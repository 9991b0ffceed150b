import ClickhouseUring.User.Probes
import Mathlib.Data.List.DropRight

/-!
# The bytes that `batchSubmit` reports

`fd_info_map` keeps the total of a process from its first accepted read on; nothing takes the
bytes of a reported batch off it.  So `batchSubmit` reports the bytes of its batch exactly when
those of the earlier batches vanish modulo 2^64 (`reportsBatch_iff`).
-/

namespace ClickhouseUring.User

/-- The size of the read that was accepted, if one was. -/
def Report.accepted (r : Report) : Option (BitVec 64) :=
  match r.event, r.outputs with
  | .preadRaw _ _ _ _ toRead, _ :: _ => some toRead
  | _, _ => none

/-- A `batchSubmit` that wrote to `bytes_read`. -/
def Report.reports (r : Report) : Bool :=
  match r.event, r.outputs with
  | .batchSubmit _, _ :: _ => true
  | _, _ => false

/-- The sizes of all accepted reads of a run. -/
def bytes (tr : List Report) : ℕ := ((tr.filterMap Report.accepted).map BitVec.toNat).sum

/-- What happened since the last `batchSubmit` that wrote. -/
def batch (tr : List Report) : List Report := tr.rtakeWhile fun r => !r.reports

/-- What happened up to and including the last `batchSubmit` that wrote. -/
def earlier (tr : List Report) : List Report := tr.rdropWhile fun r => !r.reports

/-- A value written to `bytes_read` is the sum of the reads accepted since the last one. -/
def ReportsBatch (p : Globals × List Report) (e : BitVec 32 × Event) : Prop :=
  ∀ addr v, .writeSize addr v ∈ (hook p.1 e.1 e.2).2 → v.toNat = bytes (batch p.2) % 2 ^ 64

/-- When a `batchSubmit` writes, the reads accepted before the last one that wrote add up to 0. -/
def EarlierVanish (p : Globals × List Report) : BitVec 32 × Event → Prop
  | (pid, .batchSubmit _) => p.1.overridden = true → (p.1.fdInfoMap.lookup pid).isSome →
      bytes (earlier p.2) % 2 ^ 64 = 0
  | _ => True

theorem bytes_append (a b : List Report) : bytes (a ++ b) = bytes a + bytes b := by
  unfold bytes
  rw [List.filterMap_append, List.map_append, List.sum_append]

theorem bytes_eq (tr : List Report) : bytes tr = bytes (earlier tr) + bytes (batch tr) := by
  have h : earlier tr ++ batch tr = tr := List.rdropWhile_append_rtakeWhile
  rw [← bytes_append, h]

/-- The total of the process is the sum of all its accepted reads, and the map has no other
process. -/
structure Tallied (pid : BitVec 32) (p : Globals × List Report) : Prop where
  keys : p.1.fdInfoMap.keys ⊆ {pid}
  total : ((p.1.fdInfoMap.lookup pid).elim 0 fun i => i.totalBytesToRead.toNat) =
    bytes p.2 % 2 ^ 64

theorem tallied_initial (pid : BitVec 32) : Tallied pid (initial, []) :=
  ⟨Finset.empty_subset _, rfl⟩

section Step

variable {pid : BitVec 32} {p : Globals × List Report}

theorem Tallied.accepts (hp : Tallied pid p) : p.1.fdInfoMap.Accepts pid := by
  apply HashMap.accepts_of_card
  have hcard := Finset.card_le_card hp.keys
  rw [Finset.card_singleton] at hcard
  omega

theorem bytes_concat_none {r : Report} (h : r.accepted = none) (tr : List Report) :
    bytes (tr ++ [r]) = bytes tr := by
  rw [bytes_append]
  unfold bytes
  rw [List.filterMap_cons_none h]
  rfl

theorem bytes_concat_some {r : Report} {n : BitVec 64} (h : r.accepted = some n)
    (tr : List Report) : bytes (tr ++ [r]) = bytes tr + n.toNat := by
  rw [bytes_append]
  unfold bytes
  rw [List.filterMap_cons_some h]
  rfl

/-- A report that accepts nothing leaves the sum alone. -/
theorem Tallied.same {g g' : Globals} {tr : List Report} {r : Report}
    (hp : Tallied pid (g, tr)) (hr : r.accepted = none) (hm : g'.fdInfoMap = g.fdInfoMap) :
    Tallied pid (g', tr ++ [r]) := by
  constructor
  · rw [hm]
    exact hp.keys
  · rw [hm, bytes_concat_none hr]
    exact hp.total

/-- An accepted read adds to the total. -/
theorem Tallied.accept {g g' : Globals} {tr : List Report} {r : Report} {fd : BitVec 32}
    {toRead : BitVec 64} (hp : Tallied pid (g, tr)) (hr : r.accepted = some toRead)
    (hm : g'.fdInfoMap = g.count pid fd toRead) : Tallied pid (g', tr ++ [r]) := by
  have htotal := hp.total
  constructor
  · rw [hm]
    exact keys_count_subset.trans
      (Finset.insert_subset (Finset.mem_singleton_self pid) hp.keys)
  · rw [hm, bytes_concat_some hr]
    cases hi : g.fdInfoMap.lookup pid with
    | none =>
      rw [hi] at htotal
      rw [lookup_count_none hi hp.accepts]
      have hlt := toRead.isLt
      show toRead.toNat = _
      have h0 : bytes tr % 2 ^ 64 = 0 := htotal.symm
      omega
    | some i =>
      rw [hi] at htotal
      rw [lookup_count_some hi]
      show (i.totalBytesToRead + toRead).toNat = _
      have h0 : i.totalBytesToRead.toNat = bytes tr % 2 ^ 64 := htotal
      rw [BitVec.toNat_add, h0]
      omega

theorem tallied_step (hp : Tallied pid p) (e : Event) :
    Tallied pid (probes.recorded.step p (pid, e)) := by
  obtain ⟨g, tr⟩ := p
  have ha := hook_acts g pid e
  rw [Machine.recorded_step]
  unfold probes
  dsimp only
  generalize (hook g pid e).1 = g', (hook g pid e).2 = outs at ha
  cases ha with
  | decides => exact hp.same rfl rfl
  | skip h => exact hp.same rfl rfl
  | accept h => exact hp.accept rfl rfl
  | unknown h => exact hp.same rfl rfl
  | dismiss h ho => exact hp.same rfl rfl
  | report h ho => exact hp.same rfl rfl

/-- **One event.** The value reported is the sum of the batch exactly when the earlier reads
vanish. -/
theorem reportsBatch_iff_step (hp : Tallied pid p) (e : Event) :
    ReportsBatch p (pid, e) ↔ EarlierVanish p (pid, e) := by
  have hsum := bytes_eq p.2
  have htotal := hp.total
  have silent : ∀ {outs : List Output}, (∀ addr v, .writeSize addr v ∉ outs) →
      (hook p.1 pid e).2 = outs → ReportsBatch p (pid, e) := by
    intro outs hno hout addr v hv
    rw [hout] at hv
    exact absurd hv (hno addr v)
  have ha := hook_acts p.1 pid e
  generalize hg : (hook p.1 pid e).1 = g' at ha
  generalize hout : (hook p.1 pid e).2 = outs at ha
  cases ha with
  | decides => exact iff_of_true (silent (by simp) hout) trivial
  | skip h => exact iff_of_true (silent (by simp) hout) trivial
  | accept h => exact iff_of_true (silent (by simp) hout) trivial
  | unknown h =>
    refine iff_of_true (silent (by simp) hout) fun _ hsome => ?_
    rw [h] at hsome
    exact Bool.noConfusion hsome
  | dismiss h ho =>
    refine iff_of_true (silent (by simp) hout) fun ht => ?_
    exact Bool.noConfusion (ho.symm.trans ht)
  | @report bytesRead i h ho =>
    rw [h] at htotal
    have h0 : i.totalBytesToRead.toNat = bytes p.2 % 2 ^ 64 := htotal
    constructor
    · intro hr _ _
      have hv := hr bytesRead i.totalBytesToRead (by rw [hout]; exact List.mem_cons_self)
      omega
    · intro hv addr v hmem
      have hz := hv ho (by rw [h]; rfl)
      rw [hout] at hmem
      obtain ⟨-, rfl⟩ : addr = bytesRead ∧ v = i.totalBytesToRead := by simpa using hmem
      omega

end Step

/-- **Reported bytes.** In a run of one process every value written to `bytes_read` is the sum of
the reads accepted since the last one exactly when, at every `batchSubmit` that writes, the reads
accepted before the last one add up to 0 modulo 2^64. -/
theorem reportsBatch_iff (pid : BitVec 32) (evs : List Event) :
    probes.recorded.Steps ReportsBatch (initial, []) (evs.map fun e => (pid, e)) ↔
      probes.recorded.Steps EarlierVanish (initial, []) (evs.map fun e => (pid, e)) := by
  refine probes.recorded.steps_iff (I := Tallied pid) (E := fun _ e => e.1 = pid) ?_ ?_
    (tallied_initial pid) (probes.recorded.steps_of_forall_mem ?_)
  · rintro p ⟨_, e⟩ hp rfl
    exact reportsBatch_iff_step hp e
  · rintro p ⟨_, e⟩ hp rfl _
    exact tallied_step hp e
  · intro e he
    obtain ⟨_, -, rfl⟩ := List.mem_map.mp he
    rfl

/-- Two batches of one read of eight bytes: the second `batchSubmit` reports sixteen. -/
theorem not_reportsBatch_two :
    ¬ probes.recorded.Steps ReportsBatch (initial, [])
      ([.readS true 8 0 0, .preadRaw 3 0 0 0 8, .batchSubmit 0,
        .readS true 8 0 0, .preadRaw 3 8 0 0 8, .batchSubmit 0].map fun e => (7, e)) := by
  intro h
  have hv := h.2.2.2.2.2.1 0 16 (by decide)
  exact absurd hv (by decide)

end ClickhouseUring.User
