import ClickhouseUring.Requests

/-!
# Whose destination a read gets

`pread_submit_map` holds the request of each process under its pid and a copy of every read under
its sequence number.  A read of one process whose number is the pid of another replaces the
request of the other, and the next read of that process goes to a foreign destination.  Nothing
else crosses over (`destinations_isolated_iff`).
-/

namespace ClickhouseUring.Batch

/-- The entry that a `preadRaw` hands to `add_pending_op`. -/
def handed (g : Globals) (pid : BitVec 32) : Event → Option PreadSubmitInfo
  | .preadRaw fd _ _ _ toRead _ => (g.preadSubmitMap.lookup pid).map fun info =>
      { info with fd := fd, size := toRead, iIno := -1, seqNum := g.globalSeq, dependsOn := 0 }
  | _ => none

/-- The event hands over only what the latest `readS` of its process stored, and changes the entry
of no other process of `pids`. -/
def Isolated (pids : List (BitVec 32)) (p : Globals × List Report) (e : BitVec 32 × Event) :
    Prop :=
  (∀ info, handed p.1 e.1 e.2 = some info →
    info.pid = e.1 ∧ latestTo e.1 p.2 = some info.dest) ∧
  ∀ P ∈ pids, P ≠ e.1 →
    (hook p.1 e.1 e.2).1.preadSubmitMap.lookup P = p.1.preadSubmitMap.lookup P

/-- The entry of a process is what its latest `readS` stored. -/
def Owned (pids : List (BitVec 32)) (p : Globals × List Report) : Prop :=
  Stored pids p ∧ ∀ P ∈ pids, ∀ info, p.1.preadSubmitMap.lookup P = some info → info.pid = P

section Owned

variable {pids : List (BitVec 32)} {p : Globals × List Report} {e : BitVec 32 × Event}

/-- What is handed over is what `add_pending_op` gets. -/
theorem preadRaw_map_eq (g : Globals) (pid fd : BitVec 32)
    (offset res bpfOverride toRead : BitVec 64) (ret : BitVec 32) :
    (preadRaw g pid fd offset res bpfOverride toRead ret).1.preadSubmitMap =
      match handed g pid (.preadRaw fd offset res bpfOverride toRead ret) with
      | none => g.preadSubmitMap
      | some info => (addPendingOp (g.preadSubmitMap.modify pid fun _ => info) pid info ret).1 := by
  unfold preadRaw handed
  cases g.preadSubmitMap.lookup pid with
  | none => rfl
  | some info => rfl

/-- In an owned state a process gets its own destination. -/
theorem handed_of_owned (hp : Owned pids p) (he : e.1 ∈ pids) {info : PreadSubmitInfo}
    (h : handed p.1 e.1 e.2 = some info) : info.pid = e.1 ∧ latestTo e.1 p.2 = some info.dest := by
  obtain ⟨pid, e⟩ := e
  cases e with
  | preadRaw fd offset res bpfOverride toRead ret =>
    obtain ⟨i, hi, rfl⟩ := Option.map_eq_some_iff.mp h
    exact ⟨hp.2 pid he i hi, hp.1 pid he i hi⟩
  | mainEntry => exact absurd h (by simp [handed])
  | readS n toBuf isOverridden bytesCopied => exact absurd h (by simp [handed])
  | batchSubmit bytesRead => exact absurd h (by simp [handed])

/-- **One event.** From an owned state it keeps the processes apart exactly when its number is the
pid of no other. -/
theorem isolated_step_iff (hp : Owned pids p) (he : e.1 ∈ pids) :
    Isolated pids p e ↔ Apart pids p e := by
  have hhanded : ∀ info, handed p.1 e.1 e.2 = some info →
      info.pid = e.1 ∧ latestTo e.1 p.2 = some info.dest := fun info h => handed_of_owned hp he h
  unfold Isolated
  rw [and_iff_right hhanded]
  obtain ⟨pid, e⟩ := e
  have ha := hook_acts p.1 pid e
  dsimp only at he ⊢
  generalize (hook p.1 pid e).1 = g', (hook p.1 pid e).2 = outs at ha
  cases ha with
  | main => exact iff_of_true (fun P _ _ => rfl) trivial
  | silent h => exact iff_of_true (fun P _ _ => rfl) trivial
  | report h => exact iff_of_true (fun P _ _ => rfl) trivial
  | readS => exact iff_of_true (fun P _ hne => HashMap.lookup_update_of_ne _ hne _) trivial
  | unknown h =>
    refine iff_of_true (fun P _ _ => rfl) fun hs => ?_
    rw [h] at hs
    exact Bool.noConfusion hs
  | @accept fd offset res bpfOverride toRead ret i h =>
    constructor
    · intro hframe _ hmem haccepts
      by_contra hne
      -- the copy lands under a pid, and the entry there would already be the copy
      have hcopy : (p.1.submitted pid (i.complete fd p.1.globalSeq toRead ret)).lookup
          p.1.globalSeq = some (i.complete fd p.1.globalSeq toRead ret) :=
        HashMap.lookup_update_self (m := p.1.preadSubmitMap.modify pid fun _ => _) haccepts _
      have hpid := hp.2 _ hmem _ ((hframe _ hmem hne).symm.trans hcopy)
      exact hne (hpid.symm.trans (hp.2 pid he i h))
    · intro hapart P hP hne
      have hseq := hapart (by rw [h]; rfl)
      dsimp only
      rw [lookup_submitted h hseq hP, if_neg hne]

theorem owned_step (hp : Owned pids p) (he : e.1 ∈ pids) (hapart : Apart pids p e) :
    Owned pids (probes.recorded.step p e) := by
  refine ⟨stored_step hp.1 hapart, fun P hP info hinfo => ?_⟩
  by_cases hpid : P = e.1
  · subst hpid
    obtain ⟨pid, e⟩ := e
    have ha := hook_acts p.1 pid e
    dsimp only at he ⊢
    replace hinfo : (hook p.1 pid e).1.preadSubmitMap.lookup pid = some info := hinfo
    generalize (hook p.1 pid e).1 = g', (hook p.1 pid e).2 = outs at ha hinfo
    cases ha with
    | main => exact hp.2 pid he info hinfo
    | silent h => exact hp.2 pid he info hinfo
    | report h => exact hp.2 pid he info hinfo
    | unknown h => exact hp.2 pid he info hinfo
    | readS => rw [dest_of_lookup_update hinfo]
    | @accept fd offset res bpfOverride toRead ret i h =>
      rw [lookup_submitted h (hapart (by rw [h]; rfl)) he, if_pos rfl] at hinfo
      obtain rfl := Option.some.inj hinfo
      exact hp.2 pid he i h
  · have hframe := ((isolated_step_iff hp he).mpr hapart).2 P hP hpid
    exact hp.2 P hP info (hframe.symm.trans hinfo)

end Owned

/-- **Destinations.** Throughout a run every `preadRaw` gets what the latest `readS` of its own
process stored, and no event changes the entry of another process, exactly when no accepted read is
numbered with the pid of another process of the run, or the map refuses the copy. -/
theorem destinations_isolated_iff (evs : List (BitVec 32 × Event)) :
    probes.recorded.Steps (Isolated (evs.map Prod.fst)) (initial, []) evs ↔
      probes.recorded.Steps (Apart (evs.map Prod.fst)) (initial, []) evs := by
  apply probes.recorded.steps_iff (I := Owned (evs.map Prod.fst)) (E := fun _ e =>
    e.1 ∈ evs.map Prod.fst) _ _ ⟨_, _⟩
    (probes.recorded.steps_of_forall_mem fun e he => List.mem_map_of_mem he)
  · intro p e hp he
    exact isolated_step_iff hp he
  · intro p e hp he hapart
    exact owned_step hp he hapart
  · intro P _ info h
    exact absurd h (by simp [initial])
  · intro P _ info h
    exact absurd h (by simp [initial])

/-- The second read of process 2 is numbered 1; then process 1 reads to the buffer of process 2. -/
theorem not_isolated_first_pid :
    let evs : List (BitVec 32 × Event) := [(1, .readS 8 100 0 0), (2, .readS 8 200 0 0),
      (2, .preadRaw 3 0 0 0 8 0), (2, .preadRaw 3 0 0 0 8 0)]
    ¬ probes.recorded.Steps (Isolated (evs.map Prod.fst)) (initial, []) evs ∧
      (handed (probes.after initial evs) 1 (.preadRaw 3 0 0 0 8 0)).map
        (fun info => (info.pid, info.dest)) = some (2, 200) ∧
      latestTo 1 (probes.trace initial evs) = some 100 := by
  refine ⟨fun h => ?_, by decide, by decide⟩
  exact absurd (h.2.2.2.1.2 1 (by decide) (by decide)) (by decide)

end ClickhouseUring.Batch
