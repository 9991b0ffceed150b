import ClickhouseUring.Batch.Probes
import Mathlib.Data.List.DropRight

/-!
# The bytes that `batchSubmit` reports

`preadRaw` looks the total of its process up under the descriptor but creates it under the pid.
As long as no descriptor in use is the pid of a process in the map, the entry is never found and
is created anew by every read: it holds the size of the latest one.  So `batchSubmit` reports the
bytes of its batch exactly when the latest read alone makes them up (`reportsBatch_iff_latest`).
-/

namespace ClickhouseUring.Batch

/-- The events of `P`. -/
def own (P : BitVec 32) (tr : List Report) : List Report := tr.filter fun r => r.pid = P

def Report.isReadS (r : Report) : Bool := r.event matches .readS ..

def Report.isBatchSubmit (r : Report) : Bool := r.event matches .batchSubmit _

/-- The size that a `preadRaw` asks for. -/
def Report.asked (r : Report) : Option (BitVec 64) :=
  match r.event with
  | .preadRaw _ _ _ _ toRead _ => some toRead
  | _ => none

/-- The events of `P` from its first `readS` on. -/
def fromReadS (P : BitVec 32) (tr : List Report) : List Report :=
  (own P tr).dropWhile fun r => !r.isReadS

/-- The size of the latest read of `P` after its first `readS`. -/
def latest (P : BitVec 32) (tr : List Report) : Option (BitVec 64) :=
  ((fromReadS P tr).filterMap Report.asked).getLast?

/-- The sizes of the reads of `P` after its first `readS` and its latest `batchSubmit`. -/
def batchBytes (P : BitVec 32) (tr : List Report) : ℕ :=
  ((((fromReadS P tr).rtakeWhile fun r => !r.isBatchSubmit).filterMap Report.asked).map
    BitVec.toNat).sum

/-- A value written to `bytes_read` is the sum of the reads since the last `batchSubmit`. -/
def ReportsBatch (p : Globals × List Report) (e : BitVec 32 × Event) : Prop :=
  ∀ addr v, .writeSize addr v ∈ (hook p.1 e.1 e.2).2 → v.toNat = batchBytes e.1 p.2 % 2 ^ 64

/-- At a `batchSubmit` of a process that has reads, they add up to the size of the latest. -/
def LatestIsBatch (p : Globals × List Report) : BitVec 32 × Event → Prop
  | (pid, .batchSubmit _) => ∀ n, latest pid p.2 = some n → n.toNat = batchBytes pid p.2 % 2 ^ 64
  | _ => True

/-- Neither map is full. -/
def NotFull (g : Globals) : Prop :=
  g.preadSubmitMap.keys.card < 10000 ∧ g.fdInfoMap.keys.card < 1000

/-- A read that finds an entry in `pread_submit_map` comes after a `readS` of its process, and
its descriptor is no key of `fd_info_map`. -/
def NoAlias (p : Globals × List Report) : BitVec 32 × Event → Prop
  | (pid, .preadRaw fd _ _ _ _ _) => (p.1.preadSubmitMap.lookup pid).isSome →
      (own pid p.2).any Report.isReadS ∧ p.1.fdInfoMap.lookup fd = none
  | _ => True

instance : DecidablePred NotFull := fun g =>
  inferInstanceAs (Decidable (g.preadSubmitMap.keys.card < 10000 ∧ g.fdInfoMap.keys.card < 1000))

instance (p : Globals × List Report) : DecidablePred (NoAlias p)
  | (_, .preadRaw ..) => inferInstanceAs (Decidable (_ → _ ∧ _))
  | (_, .mainEntry) => inferInstanceAs (Decidable True)
  | (_, .readS ..) => inferInstanceAs (Decidable True)
  | (_, .batchSubmit _) => inferInstanceAs (Decidable True)

/-! ## Reading a history -/

section History

variable {P : BitVec 32} {tr : List Report} {r : Report}

theorem own_concat_self (h : r.pid = P) : own P (tr ++ [r]) = own P tr ++ [r] := by
  unfold own
  rw [List.filter_append, List.filter_cons_of_pos (by simpa using h)]
  rfl

theorem own_concat_other (h : r.pid ≠ P) : own P (tr ++ [r]) = own P tr := by
  unfold own
  rw [List.filter_append, List.filter_cons_of_neg (by simpa using h)]
  exact List.append_nil _

/-- After the first `readS` every event of the process counts. -/
theorem fromReadS_concat (hr : r.pid = P) (h : (own P tr).any Report.isReadS) :
    fromReadS P (tr ++ [r]) = fromReadS P tr ++ [r] := by
  have hne : ¬ (fromReadS P tr).isEmpty := by
    unfold fromReadS
    rw [List.isEmpty_iff, List.dropWhile_eq_nil_iff]
    obtain ⟨q, hq, hqr⟩ := List.any_eq_true.mp h
    intro hall
    have := hall q hq
    rw [hqr] at this
    exact Bool.noConfusion this
  unfold fromReadS at hne ⊢
  rw [own_concat_self hr, List.dropWhile_append, if_neg hne]

/-- Up to the first `readS` none does. -/
theorem fromReadS_concat_nil (hr : r.pid = P) (h : ¬ (own P tr).any Report.isReadS) :
    fromReadS P tr = [] ∧ (fromReadS P (tr ++ [r])).filterMap Report.asked = [] := by
  have hnil : fromReadS P tr = [] := by
    unfold fromReadS
    rw [List.dropWhile_eq_nil_iff]
    intro q hq
    by_cases hqr : q.isReadS = true
    · exact absurd (List.any_eq_true.mpr ⟨q, hq, hqr⟩) h
    · simpa using hqr
  refine ⟨hnil, ?_⟩
  unfold fromReadS at hnil ⊢
  rw [own_concat_self hr, List.dropWhile_append, hnil, if_pos List.isEmpty_nil]
  by_cases hrs : r.isReadS = true
  · rw [List.dropWhile_cons_of_neg (by simpa using hrs)]
    unfold Report.isReadS at hrs
    cases he : r.event <;> simp [he, Report.asked] at hrs ⊢
  · rw [List.dropWhile_cons_of_pos (by simpa using hrs)]
    rfl

/-- An event that asks for nothing, or is not of the process, leaves the latest size alone. -/
theorem latest_concat (h : r.pid = P → r.asked = none) : latest P (tr ++ [r]) = latest P tr := by
  unfold latest
  by_cases hr : r.pid = P
  · by_cases hs : (own P tr).any Report.isReadS = true
    · rw [fromReadS_concat hr hs, List.filterMap_append, List.filterMap_cons_none (h hr)]
      exact congrArg List.getLast? (List.append_nil _)
    · obtain ⟨hnil, hask⟩ := fromReadS_concat_nil hr hs
      rw [hask, hnil]
      rfl
  · unfold fromReadS
    rw [own_concat_other hr]

theorem latest_concat_unknown (hr : r.pid = P) (h : ¬ (own P tr).any Report.isReadS) :
    latest P (tr ++ [r]) = latest P tr := by
  obtain ⟨hnil, hask⟩ := fromReadS_concat_nil hr h
  unfold latest
  rw [hask, hnil]
  rfl

theorem latest_concat_read {n : BitVec 64} (hr : r.pid = P) (hn : r.asked = some n)
    (h : (own P tr).any Report.isReadS) : latest P (tr ++ [r]) = some n := by
  unfold latest
  rw [fromReadS_concat hr h, List.filterMap_append, List.filterMap_cons_some hn]
  exact List.getLast?_concat

theorem any_concat (h : (own P (tr ++ [r])).any Report.isReadS) :
    (own P tr).any Report.isReadS ∨ r.pid = P ∧ r.isReadS := by
  by_cases hr : r.pid = P
  · rw [own_concat_self hr, List.any_append, Bool.or_eq_true] at h
    refine h.imp_right fun h => ⟨hr, ?_⟩
    simpa using h
  · rw [own_concat_other hr] at h
    exact Or.inl h

end History

/-! ## One event -/

/-- Processes with a `readS` have an entry in `pread_submit_map`, and the total of a process is
the size of its latest read. -/
structure Tallied (p : Globals × List Report) : Prop where
  entry : ∀ P, (own P p.2).any Report.isReadS → (p.1.preadSubmitMap.lookup P).isSome
  total : ∀ P, (p.1.fdInfoMap.lookup P).map FdInfo.totalBytesToRead = latest P p.2

theorem tallied_initial : Tallied (initial, []) :=
  ⟨fun _ h => Bool.noConfusion h, fun _ => rfl⟩

section Step

variable {g g' : Globals} {tr : List Report} {r : Report}

/-- An event that is neither a `readS` nor an accepted read changes neither map. -/
theorem Tallied.same (hp : Tallied (g, tr)) (hm : g'.preadSubmitMap = g.preadSubmitMap)
    (hf : g'.fdInfoMap = g.fdInfoMap) (hrs : r.isReadS = false)
    (hlast : latest r.pid (tr ++ [r]) = latest r.pid tr) : Tallied (g', tr ++ [r]) := by
  constructor
  · intro P hany
    rw [hm]
    rcases any_concat hany with hany | ⟨-, hr⟩
    · exact hp.entry P hany
    · exact absurd (hrs.symm.trans hr) (by decide)
  · intro P
    rw [hf, hp.total P]
    by_cases hP : r.pid = P
    · subst hP
      exact hlast.symm
    · exact (latest_concat fun h => absurd h hP).symm

/-- A `readS` leaves an entry of its process. -/
theorem Tallied.readS (hp : Tallied (g, tr)) (hfull : NotFull g) {info : PreadSubmitInfo}
    (hm : g'.preadSubmitMap = g.preadSubmitMap.update r.pid info)
    (hf : g'.fdInfoMap = g.fdInfoMap) (hask : r.asked = none) : Tallied (g', tr ++ [r]) := by
  constructor
  · intro P hany
    rw [hm]
    rcases any_concat hany with hany | ⟨rfl, -⟩
    · exact HashMap.isSome_lookup_update (hp.entry P hany) _ _
    · rw [HashMap.lookup_update_self (HashMap.accepts_of_card hfull.1 _)]
      rfl
  · intro P
    rw [hf]
    exact (hp.total P).trans (latest_concat fun _ => hask).symm

/-- An accepted read whose descriptor is no key makes its size the total of its process. -/
theorem Tallied.accept (hp : Tallied (g, tr)) (hfull : NotFull g) {info : PreadSubmitInfo}
    {fd : BitVec 32} {toRead : BitVec 64} (hm : g'.preadSubmitMap = g.submitted r.pid info)
    (hf : g'.fdInfoMap = g.count r.pid fd toRead) (hrs : r.isReadS = false)
    (hask : r.asked = some toRead) (hany : (own r.pid tr).any Report.isReadS)
    (hfd : g.fdInfoMap.lookup fd = none) : Tallied (g', tr ++ [r]) := by
  have hcount : g.count r.pid fd toRead = g.fdInfoMap.update r.pid ⟨toRead, 1, fd⟩ := by
    unfold Globals.count
    rw [hfd]
  constructor
  · intro P hP
    rw [hm]
    rcases any_concat hP with hP | ⟨-, hr⟩
    · exact HashMap.isSome_lookup_update (HashMap.isSome_lookup_modify (hp.entry P hP) _ _) _ _
    · exact absurd (hrs.symm.trans hr) (by decide)
  · intro P
    rw [hf, hcount]
    by_cases hP : P = r.pid
    · subst hP
      rw [HashMap.lookup_update_self (HashMap.accepts_of_card hfull.2 _)]
      exact (latest_concat_read rfl hask hany).symm
    · rw [HashMap.lookup_update_of_ne _ hP, hp.total P]
      exact (latest_concat fun h => absurd h.symm hP).symm

variable {p : Globals × List Report}

theorem tallied_step (hp : Tallied p) {e : BitVec 32 × Event} (hfull : NotFull p.1)
    (hno : NoAlias p e) : Tallied (probes.recorded.step p e) := by
  obtain ⟨g, tr⟩ := p
  obtain ⟨pid, e⟩ := e
  have ha := hook_acts g pid e
  rw [Machine.recorded_step]
  unfold probes
  dsimp only
  generalize (hook g pid e).1 = g', (hook g pid e).2 = outs at ha
  cases ha with
  | main => exact hp.same rfl rfl rfl (latest_concat fun _ => rfl)
  | silent h => exact hp.same rfl rfl rfl (latest_concat fun _ => rfl)
  | report h => exact hp.same rfl rfl rfl (latest_concat fun _ => rfl)
  | unknown h =>
    refine hp.same rfl rfl rfl (latest_concat_unknown rfl fun hany => ?_)
    have := hp.entry pid hany
    rw [h] at this
    exact Bool.noConfusion this
  | readS => exact hp.readS hfull rfl rfl rfl
  | accept h =>
    obtain ⟨hany, hfd⟩ := hno (by rw [h]; rfl)
    exact hp.accept hfull rfl rfl rfl rfl hany hfd

theorem no_size_in_flush (addr v : BitVec 64) : .writeSize addr v ∉ handleBatchedOps := by
  intro h
  rcases List.mem_cons.mp h with h | h
  · exact Output.noConfusion h
  · exact Output.noConfusion (List.eq_of_mem_replicate h)

/-- **One event.** The value reported is the sum of the batch exactly when the latest read
is. -/
theorem reportsBatch_step_iff (hp : Tallied p) (e : BitVec 32 × Event) :
    ReportsBatch p e ↔ LatestIsBatch p e := by
  obtain ⟨pid, e⟩ := e
  have htotal := hp.total pid
  have ha := hook_acts p.1 pid e
  have silent : ∀ {outs : List Output}, (∀ addr v, .writeSize addr v ∉ outs) →
      (hook p.1 pid e).2 = outs → ReportsBatch p (pid, e) := by
    intro outs hno hout addr v hv
    rw [hout] at hv
    exact absurd hv (hno addr v)
  generalize hg : (hook p.1 pid e).1 = g' at ha
  generalize hout : (hook p.1 pid e).2 = outs at ha
  cases ha with
  | main => exact iff_of_true (silent (by simp) hout) trivial
  | readS => exact iff_of_true (silent (by simp) hout) trivial
  | unknown h => exact iff_of_true (silent (by simp) hout) trivial
  | accept h => exact iff_of_true (silent (by simp) hout) trivial
  | silent h =>
    refine iff_of_true (silent (by simp) hout) fun n hn => ?_
    rw [h, hn] at htotal
    exact absurd htotal (by simp)
  | @report bytesRead i h =>
    rw [h] at htotal
    have hlast : latest pid p.2 = some i.totalBytesToRead := htotal.symm
    constructor
    · intro hr n hn
      have hv := hr bytesRead i.totalBytesToRead (by rw [hout]; exact List.mem_cons_self)
      obtain rfl := Option.some.inj (hn.symm.trans hlast)
      exact hv
    · intro hl addr v hmem
      rw [hout] at hmem
      rcases List.mem_cons.mp hmem with hmem | hmem
      · obtain ⟨-, rfl⟩ := Output.writeSize.inj hmem
        exact hl _ hlast
      · exact absurd hmem (no_size_in_flush addr v)

end Step

/-- **Reported bytes.** As long as the maps are not full and no key is used for two things, every
value written to `bytes_read` is the sum of the batch exactly when, at every `batchSubmit` of a
process with reads, its latest read is. -/
theorem reportsBatch_iff_latest (evs : List (BitVec 32 × Event))
    (h : probes.recorded.Steps (fun p e => NotFull p.1 ∧ NoAlias p e) (initial, []) evs) :
    probes.recorded.Steps ReportsBatch (initial, []) evs ↔
      probes.recorded.Steps LatestIsBatch (initial, []) evs := by
  refine probes.recorded.steps_iff (I := Tallied)
    (E := fun p e => NotFull p.1 ∧ NoAlias p e) ?_ ?_ tallied_initial h
  · intro p e hp _
    exact reportsBatch_step_iff hp e
  · intro p e hp he _
    exact tallied_step hp he.1 he.2

/-- A batch of one read. -/
theorem reports_one_read :
    probes.recorded.Steps ReportsBatch (initial, [])
      [(7, .mainEntry), (7, .readS 8 64 0 0), (7, .preadRaw 3 0 0 0 8 0), (7, .batchSubmit 0)] := by
  refine (reportsBatch_iff_latest _ (by decide)).mpr ⟨trivial, trivial, trivial, ?_, trivial⟩
  intro n hn
  obtain rfl : n = 8 := Option.some.inj (hn.symm.trans (by decide))
  decide

/-- A batch of two reads of eight bytes: `batchSubmit` reports eight. -/
theorem not_reports_two_reads :
    ¬ probes.recorded.Steps ReportsBatch (initial, [])
      [(7, .mainEntry), (7, .readS 16 64 0 0), (7, .preadRaw 3 0 0 0 8 0),
        (7, .preadRaw 3 8 0 0 8 0), (7, .batchSubmit 0)] := by
  intro h
  have hv := h.2.2.2.2.1 0 8 List.mem_cons_self
  exact absurd hv (by decide)

end ClickhouseUring.Batch
