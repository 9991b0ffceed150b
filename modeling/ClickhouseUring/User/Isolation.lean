import ClickhouseUring.User.Probes

/-!
# What a process can see of the others

The totals are kept for each process, but the decision that `readS` leaves in `overridden` is one
cell for all.  A process sees what it would see alone exactly when each of its `preadRaw` and
`batchSubmit` events finds in that cell what the process itself left there (`isolated_iff`).

`paired P` runs the program twice, once with all events and once with those of `P` only.
-/

namespace ClickhouseUring.User

/-- An output without its sequence number. -/
def Output.eraseSeq : Output → Output
  | .prepare info => .prepare { info with seqNum := 0 }
  | o => o

/-- What process `P` can observe of a run: for each of its events, what was written to its memory
and the records with its pid. -/
def view (P : BitVec 32) (tr : List Report) : List (List Output) :=
  (tr.filter fun r => r.pid = P).map fun r => r.outputs.map Output.eraseSeq

/-- The same in order, whichever of its events it comes from. -/
def observed (P : BitVec 32) (tr : List Report) : List Output := (view P tr).flatten

/-- The events of `P`. -/
def alone (P : BitVec 32) (evs : List (BitVec 32 × Event)) : List (BitVec 32 × Event) :=
  evs.filter fun e => e.1 = P

/-- `P` observes the same when the events of the other processes are deleted. -/
def Isolated (P : BitVec 32) (evs : List (BitVec 32 × Event)) : Prop :=
  view P (probes.trace initial evs) = view P (probes.trace initial (alone P evs))

/-- The run of all processes and the run of `P` alone. -/
structure Two where
  shared : Globals
  own : Globals

/-- The two runs side by side. -/
def paired (P : BitVec 32) : Machine Two (BitVec 32 × Event) Unit where
  step t e := ⟨(hook t.shared e.1 e.2).1, if e.1 = P then (hook t.own e.1 e.2).1 else t.own⟩
  out _ _ := []

theorem paired_own {P : BitVec 32} (t : Two) (e : Event) :
    (paired P).step t (P, e) = ⟨(hook t.shared P e).1, (hook t.own P e).1⟩ :=
  congrArg (Two.mk _) (if_pos rfl)

theorem paired_other {P q : BitVec 32} (h : q ≠ P) (t : Two) (e : Event) :
    (paired P).step t (q, e) = ⟨(hook t.shared q e).1, t.own⟩ :=
  congrArg (Two.mk _) (if_neg h)

/-- An event of `P` looks the same in both runs. -/
def SameView (P : BitVec 32) (t : Two) (e : BitVec 32 × Event) : Prop :=
  e.1 = P → (hook t.shared e.1 e.2).2.map Output.eraseSeq =
    (hook t.own e.1 e.2).2.map Output.eraseSeq

/-- The decision that an event of `P` depends on is the one that `P` itself left.  A `preadRaw`
reads it; a `batchSubmit` does so once a read of `P` was accepted, and reports only if the entry
of `P` found room in the map. -/
def OwnDecision (P : BitVec 32) (t : Two) (e : BitVec 32 × Event) : Prop :=
  e.1 = P → match e.2 with
    | .readS .. => True
    | .preadRaw .. => t.shared.overridden = t.own.overridden
    | .batchSubmit _ => (t.own.fdInfoMap.lookup P).isSome → (t.own.overridden = true ↔
        t.shared.overridden = true ∧ (t.shared.fdInfoMap.lookup P).isSome)

/-! ## From the two traces to the paired run -/

theorem view_append (P : BitVec 32) (a b : List Report) :
    view P (a ++ b) = view P a ++ view P b := by
  unfold view
  rw [List.filter_append, List.map_append]

theorem view_own {P : BitVec 32} (e : Event) (outs : List Output) :
    view P [⟨P, e, outs⟩] = [outs.map Output.eraseSeq] := by
  unfold view
  rw [List.filter_cons_of_pos (by simp)]
  rfl

theorem view_other {P q : BitVec 32} (h : q ≠ P) (e : Event) (outs : List Output) :
    view P [⟨q, e, outs⟩] = [] := by
  unfold view
  rw [List.filter_cons_of_neg (by simpa using h)]
  rfl

theorem view_eq_iff (P : BitVec 32) (s t : Globals) (evs : List (BitVec 32 × Event)) :
    view P (probes.trace s evs) = view P (probes.trace t (alone P evs)) ↔
      (paired P).Steps (SameView P) ⟨s, t⟩ evs := by
  induction evs generalizing s t with
  | nil => exact iff_of_true rfl trivial
  | cons e evs ih =>
    obtain ⟨q, e⟩ := e
    rw [Machine.trace_cons, view_append, Machine.steps_cons]
    by_cases hq : q = P
    · subst hq
      have ha : alone q ((q, e) :: evs) = (q, e) :: alone q evs :=
        List.filter_cons_of_pos (by simp)
      have hsame : SameView q ⟨s, t⟩ (q, e) ↔ (hook s q e).2.map Output.eraseSeq =
          (hook t q e).2.map Output.eraseSeq := ⟨fun h => h rfl, fun h _ => h⟩
      have htail := ih (hook s q e).1 (hook t q e).1
      rw [ha, Machine.trace_cons, view_append, paired_own, hsame, ← htail]
      show view q [⟨q, e, _⟩] ++ _ = view q [⟨q, e, _⟩] ++ _ ↔ _
      rw [view_own, view_own, List.singleton_append, List.singleton_append, List.cons.injEq]
      rfl
    · have ha : alone P ((q, e) :: evs) = alone P evs := List.filter_cons_of_neg (by simpa using hq)
      have htail := ih (hook s q e).1 t
      rw [ha, paired_other hq, ← htail]
      show view P [⟨q, e, _⟩] ++ _ = _ ↔ _
      rw [view_other hq, List.nil_append]
      exact ⟨fun h => ⟨fun hqP => absurd hqP hq, h⟩, fun h => h.2⟩

/-! ## One event -/

/-- The entries of `P` are the same in both runs, or the shared map had no room for it. -/
structure Kept (P : BitVec 32) (t : Two) : Prop where
  keys : t.own.fdInfoMap.keys ⊆ {P}
  entry : t.shared.fdInfoMap.lookup P = t.own.fdInfoMap.lookup P ∨
    t.shared.fdInfoMap.lookup P = none ∧ ¬ t.shared.fdInfoMap.Accepts P

theorem kept_initial (P : BitVec 32) : Kept P ⟨initial, initial⟩ :=
  ⟨Finset.empty_subset _, Or.inl rfl⟩

section Step

variable {P : BitVec 32} {t : Two}

theorem Kept.own_accepts (ht : Kept P t) : t.own.fdInfoMap.Accepts P := by
  apply HashMap.accepts_of_card
  have hcard := Finset.card_le_card ht.keys
  rw [Finset.card_singleton] at hcard
  omega

/-- Without an entry of its own `P` has none in the shared map. -/
theorem Kept.lookup_none (ht : Kept P t) (h : t.own.fdInfoMap.lookup P = none) :
    t.shared.fdInfoMap.lookup P = none := by
  rcases ht.entry with he | ⟨he, -⟩
  · exact he.trans h
  · exact he

/-- An event of another process leaves the entry of `P` alone. -/
theorem kept_other (ht : Kept P t) {q : BitVec 32} (hq : q ≠ P) (e : Event) :
    Kept P ((paired P).step t (q, e)) := by
  have hentry := ht.entry
  have ha := hook_acts t.shared q e
  rw [paired_other hq]
  refine ⟨ht.keys, ?_⟩
  generalize (hook t.shared q e).1 = g', (hook t.shared q e).2 = outs at ha
  cases ha with
  | accept h =>
    show (t.shared.count q _ _).lookup P = _ ∨ (t.shared.count q _ _).lookup P = none ∧
      ¬ (t.shared.count q _ _).Accepts P
    rw [lookup_count_of_ne (Ne.symm hq)]
    exact hentry.imp_right fun h => ⟨h.1, not_accepts_count h.2⟩
  | decides => exact hentry
  | skip => exact hentry
  | unknown => exact hentry
  | dismiss => exact hentry
  | report => exact hentry

/-- Accepting the same read of `P` in both runs keeps its entries in step. -/
theorem entry_count (ht : Kept P t) (fd : BitVec 32) (toRead : BitVec 64) :
    (t.shared.count P fd toRead).lookup P = (t.own.count P fd toRead).lookup P ∨
      (t.shared.count P fd toRead).lookup P = none ∧
        ¬ (t.shared.count P fd toRead).Accepts P := by
  have refused : t.shared.fdInfoMap.lookup P = none → ¬ t.shared.fdInfoMap.Accepts P →
      (t.shared.count P fd toRead).lookup P = none := by
    intro h hf
    unfold Globals.count
    rw [h]
    dsimp only
    rw [HashMap.update_of_not_accepts hf, h]
  rcases ht.entry with he | ⟨he, hf⟩
  · cases hi : t.own.fdInfoMap.lookup P with
    | none =>
      rw [hi] at he
      by_cases hf : t.shared.fdInfoMap.Accepts P
      · left
        rw [lookup_count_none he hf, lookup_count_none hi ht.own_accepts]
      · exact Or.inr ⟨refused he hf, not_accepts_count hf⟩
    | some i =>
      left
      rw [lookup_count_some (he.trans hi), lookup_count_some hi]
  · exact Or.inr ⟨refused he hf, not_accepts_count hf⟩

theorem kept_own (ht : Kept P t) {e : Event} (h : OwnDecision P t (P, e)) :
    Kept P ((paired P).step t (P, e)) := by
  have hdec := h rfl
  rw [paired_own]
  have hs := hook_acts t.shared P e
  have ho := hook_acts t.own P e
  generalize (hook t.shared P e).1 = s', (hook t.shared P e).2 = souts at hs
  generalize (hook t.own P e).1 = o', (hook t.own P e).2 = oouts at ho
  cases hs with
  | decides => cases ho with
    | decides => exact ⟨ht.keys, ht.entry⟩
  | skip hf => cases ho with
    | skip => exact ht
    | accept hf' => exact absurd (hf.symm.trans (hdec.trans hf')) (by decide)
  | accept hf => cases ho with
    | skip hf' => exact absurd (hf.symm.trans (hdec.trans hf')) (by decide)
    | accept hf' =>
      refine ⟨?_, entry_count ht _ _⟩
      exact keys_count_subset.trans
        (Finset.insert_subset (Finset.mem_singleton_self P) ht.keys)
  | unknown => cases ho <;> exact ⟨ht.keys, ht.entry⟩
  | dismiss => cases ho <;> exact ⟨ht.keys, ht.entry⟩
  | report => cases ho <;> exact ⟨ht.keys, ht.entry⟩

/-- **One event.** An event of `P` looks the same in both runs exactly when the decision it
depends on is the one that `P` left. -/
theorem sameView_iff (ht : Kept P t) (e : Event) :
    SameView P t (P, e) ↔ OwnDecision P t (P, e) := by
  have hentry := ht.entry
  unfold SameView OwnDecision
  simp only [true_imp_iff]
  have hs := hook_acts t.shared P e
  have ho := hook_acts t.own P e
  generalize (hook t.shared P e).1 = s', (hook t.shared P e).2 = souts at hs
  generalize (hook t.own P e).1 = o', (hook t.own P e).2 = oouts at ho
  cases hs with
  | decides => cases ho with
    | decides => exact iff_of_true rfl trivial
  | skip hf => cases ho with
    | skip hf' => exact iff_of_true rfl (hf.trans hf'.symm)
    | accept hf' =>
      refine iff_of_false (List.cons_ne_nil _ _).symm fun h => ?_
      exact absurd (hf.symm.trans (h.trans hf')) (by decide)
  | accept hf => cases ho with
    | skip hf' =>
      refine iff_of_false (List.cons_ne_nil _ _) fun h => ?_
      exact absurd (hf.symm.trans (h.trans hf')) (by decide)
    | accept hf' => exact iff_of_true rfl (hf.trans hf'.symm)
  | unknown hi => cases ho with
    | unknown hi' => exact iff_of_true rfl (by simp [hi'])
    | dismiss hi' hf' => exact iff_of_true rfl (by simp [hi, hf'])
    | report hi' hf' => exact iff_of_false (by simp) (by simp [hi, hi', hf'])
  | @dismiss _ i hi hf => cases ho with
    | unknown hi' => exact absurd (hi.symm.trans (ht.lookup_none hi')) (by simp)
    | dismiss hi' hf' => exact iff_of_true rfl (by simp [hf, hf'])
    | report hi' hf' => exact iff_of_false (by simp) (by simp [hi', hf, hf'])
  | @report _ i hi hf => cases ho with
    | unknown hi' => exact absurd (hi.symm.trans (ht.lookup_none hi')) (by simp)
    | dismiss hi' hf' => exact iff_of_false (by simp) (by simp [hi, hi', hf, hf'])
    | @report _ i' hi' hf' =>
      have hii : i = i' := by
        rcases hentry with he | ⟨he, -⟩
        · exact Option.some.inj (hi.symm.trans (he.trans hi'))
        · exact absurd (hi.symm.trans he) (by simp)
      subst hii
      exact iff_of_true rfl (by simp [hi, hf, hf'])

end Step

theorem isolated_iff_ownDecision (P : BitVec 32) (evs : List (BitVec 32 × Event)) :
    Isolated P evs ↔ (paired P).Steps (OwnDecision P) ⟨initial, initial⟩ evs := by
  unfold Isolated
  rw [view_eq_iff]
  refine (paired P).steps_iff_of_invariant (I := Kept P) ?_ ?_ (kept_initial P) evs
  · rintro t ⟨q, e⟩ ht
    by_cases hq : q = P
    · subst hq
      exact sameView_iff ht e
    · exact iff_of_true (fun h => absurd h hq) fun h => absurd h hq
  · rintro t ⟨q, e⟩ ht h
    by_cases hq : q = P
    · subst hq
      exact kept_own ht h
    · exact kept_other ht hq e

/-- **Isolation.** Deleting the events of the other processes changes nothing that `P` observes
exactly when each event of `P` finds the decision that `P` itself left.  Then the writes to its
memory, the records with its pid and any other part of what it observes come in the same order. -/
theorem isolated_iff (P : BitVec 32) (evs : List (BitVec 32 × Event)) :
    (Isolated P evs ↔ (paired P).Steps (OwnDecision P) ⟨initial, initial⟩ evs) ∧
    ((paired P).Steps (OwnDecision P) ⟨initial, initial⟩ evs → ∀ part : Output → Bool,
      (observed P (probes.trace initial evs)).filter part =
        (observed P (probes.trace initial (alone P evs))).filter part) := by
  have hiff : Isolated P evs ↔ (paired P).Steps (OwnDecision P) ⟨initial, initial⟩ evs :=
    isolated_iff_ownDecision P evs
  refine ⟨hiff, fun hown part => ?_⟩
  exact congrArg (fun views => views.flatten.filter part) (hiff.mpr hown)

/-- Process 1 decides to batch, process 2 decides not to, and the read of process 1 runs
natively. -/
theorem not_isolated_two :
    ¬ Isolated 1 [(1, .readS true 8 0 0), (2, .readS false 8 0 0), (1, .preadRaw 3 0 0 0 8)] := by
  unfold Isolated
  decide

end ClickhouseUring.User
