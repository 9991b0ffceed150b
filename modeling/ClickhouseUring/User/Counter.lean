import ClickhouseUring.User.Consumer

/-!
# The batch counter of the consumer

`batch_count` goes up with every entry obtained and back to 0 when all of them are reaped.  When
`io_uring_wait_cqe` fails, `process_pread_submit_info` returns at once and leaves the counter as it
was, although the completions before the failure are gone.  So the counter survives exactly the
failures that come first in their callback (`counted_iff`).
-/

namespace ClickhouseUring.User

open Uring

/-- A callback of the consumer with what its ring calls return. -/
inductive Callback
  /-- `handle_pread_prepare`; `sqe` says whether `io_uring_get_sqe` returned an entry. -/
  | prepare (info : PreadPrepareInfo) (sqe : Bool)
  /-- `handle_pread_submit`; `wait i` is the outcome of the `i`-th `io_uring_wait_cqe`. -/
  | submit (pid : BitVec 32) (wait : ℕ → Option Int)

/-- The callback; `none` when one of its waits never returns. -/
def Consumer.handle (c : Consumer) : Callback → Option Consumer
  | .prepare info sqe => some (processPreadPrepareInfo c info sqe)
  | .submit pid wait => (processPreadSubmitInfo c pid wait).map Prod.fst

/-- The consumer, one callback after the other. -/
def callbacks : Machine (Option Consumer) Callback Unit where
  step s cb := s.bind fun c => c.handle cb
  out _ _ := []

/-- The callback returns, and then the counter is the number of entries obtained and not yet
reaped. -/
def Counted (s : Option Consumer) (cb : Callback) : Prop :=
  ∃ c, callbacks.step s cb = some c ∧ c.batchCount = c.ring.outstanding

/-- No `io_uring_wait_cqe` of the callback fails after another one has succeeded. -/
def FailsFirst (s : Option Consumer) : Callback → Prop
  | .prepare .. => True
  | .submit _ wait => ∀ c, s = some c → ∀ i < c.batchCount, wait i = none → wait 0 = none

/-! ## One callback -/

/-- With enough in flight the loop reaps up to the first failure. -/
theorem reap_eq (wait : ℕ → Option Int) {n : ℕ} (k : ℕ) {r : IoRing Read} (h : n ≤ r.inflight) :
    ∃ j ≤ n, reap wait n k r = some ({ r with inflight := r.inflight - j }, decide (j = n)) ∧
      (∀ i < j, wait (k + i) ≠ none) ∧ (j < n → wait (k + j) = none) := by
  induction n generalizing k r with
  | zero =>
    exact ⟨0, le_rfl, rfl, fun i hi => absurd hi (Nat.not_lt_zero i),
      fun h => absurd h (lt_irrefl 0)⟩
  | succ n ih =>
    cases hw : wait k with
    | none =>
      refine ⟨0, Nat.zero_le _, ?_, fun i hi => absurd hi (Nat.not_lt_zero i), fun _ => hw⟩
      rw [reap, hw]
      rfl
    | some res =>
      have hexec : r.exec .wait = some { r with inflight := r.inflight - 1 } :=
        if_neg (by omega)
      obtain ⟨j, hj, hreap, hbefore, hat⟩ :=
        @ih (k + 1) { r with inflight := r.inflight - 1 } (by show n ≤ r.inflight - 1; omega)
      refine ⟨j + 1, by omega, ?_, ?_, ?_⟩
      · rw [reap, hw]
        dsimp only
        rw [hexec, Option.bind_some, hreap, Nat.sub_sub, Nat.add_comm 1 j]
        simp only [Nat.add_right_cancel_iff]
      · intro i hi
        cases i with
        | zero =>
          rw [Nat.add_zero, hw]
          exact Option.some_ne_none res
        | succ i =>
          rw [← Nat.succ_add_eq_add_succ]
          exact hbefore i (by omega)
      · intro hlt
        rw [← Nat.succ_add_eq_add_succ]
        exact hat (by omega)

/-- A callback that finds `n` entries outstanding and `batch_count` at `n` reaps `j` of them; only
if these are all is the counter touched. -/
theorem processPreadSubmitInfo_eq {c : Consumer} (hc : c.batchCount = c.ring.outstanding)
    (pid : BitVec 32) (wait : ℕ → Option Int) :
    ∃ j ≤ c.batchCount, (processPreadSubmitInfo c pid wait).map Prod.fst =
        (if c.batchCount = 0 then some c
          else some ⟨⟨[], c.batchCount - j⟩, if j = c.batchCount then 0 else c.batchCount⟩) ∧
      (∀ i < j, wait i ≠ none) ∧ (j < c.batchCount → wait j = none) := by
  have hexec : c.ring.exec .submit = some ⟨[], c.batchCount⟩ := by
    rw [hc, IoRing.outstanding, Nat.add_comm]
    rfl
  have hinflight : c.batchCount ≤ (IoRing.mk (α := Read) [] c.batchCount).inflight := le_rfl
  obtain ⟨j, hj, hreap, hbefore, hat⟩ := reap_eq wait 0 hinflight
  simp only [Nat.zero_add] at hbefore hat
  refine ⟨j, hj, ?_, hbefore, hat⟩
  unfold processPreadSubmitInfo
  split_ifs with h0 hjn
  · rfl
  · rw [hexec, Option.bind_some, hreap, decide_eq_true hjn]
    rfl
  · rw [hexec, Option.bind_some, hreap, decide_eq_false hjn]
    rfl

/-- **One callback.** A callback that finds the counter right leaves it right exactly when no wait
fails after another has succeeded. -/
theorem counted_step_iff {s : Option Consumer}
    (hs : ∃ c, s = some c ∧ c.batchCount = c.ring.outstanding) (cb : Callback) :
    Counted s cb ↔ FailsFirst s cb := by
  obtain ⟨c, rfl, hc⟩ := hs
  cases cb with
  | prepare info sqe =>
    refine iff_of_true ⟨_, rfl, ?_⟩ trivial
    unfold processPreadPrepareInfo
    cases sqe with
    | false => exact hc
    | true =>
      show c.batchCount + 1 = (c.ring.add _).outstanding
      rw [IoRing.outstanding_add, hc]
  | submit pid wait =>
    obtain ⟨j, hj, heq, hbefore, hat⟩ := processPreadSubmitInfo_eq hc pid wait
    unfold Counted FailsFirst
    show (∃ c', (processPreadSubmitInfo c pid wait).map Prod.fst = some c' ∧ _) ↔ _
    rw [heq]
    constructor
    · rintro ⟨c', hc', hcount⟩ _ ⟨⟩ i hi hnone
      rw [if_neg (by omega)] at hc'
      obtain rfl := Option.some.inj hc'
      have hcount : (if j = c.batchCount then 0 else c.batchCount) = 0 + (c.batchCount - j) :=
        hcount
      split_ifs at hcount with hjn
      · exact absurd hnone (hbefore i (hjn ▸ hi))
      · obtain rfl : j = 0 := by omega
        exact hat (by omega)
    · intro hfirst
      by_cases h0 : c.batchCount = 0
      · rw [if_pos h0]
        exact ⟨c, rfl, hc⟩
      · rw [if_neg h0]
        refine ⟨_, rfl, ?_⟩
        show (if j = c.batchCount then 0 else c.batchCount) = 0 + (c.batchCount - j)
        split_ifs with hjn
        · omega
        · have hj0 : j = 0 := by
            by_contra hne
            exact hbefore 0 (by omega) (hfirst c rfl j (by omega) (hat (by omega)))
          omega

/-! ## Runs -/

/-- **The counter.** In a run from an empty ring the counter is right after every callback exactly
when no `io_uring_wait_cqe` fails after another one of its callback has succeeded. -/
theorem counted_iff (cbs : List Callback) :
    callbacks.Steps Counted (some ⟨.empty, 0⟩) cbs ↔
      callbacks.Steps FailsFirst (some ⟨.empty, 0⟩) cbs := by
  apply callbacks.steps_iff_of_invariant
    (I := fun s => ∃ c, s = some c ∧ c.batchCount = c.ring.outstanding) _ _ ⟨_, rfl, rfl⟩
  · intro s cb hs
    exact counted_step_iff hs cb
  · intro s cb hs hf
    exact (counted_step_iff hs cb).mpr hf

/-- Two entries, and a wait that fails after one of them was reaped: the counter stays at 2, and
the next `process_pread_submit_info` never returns. -/
theorem not_counted_second_fails :
    let cbs : List Callback := [.prepare (recordOf 1 0 3 0 8) true,
      .prepare (recordOf 1 1 3 8 8) true, .submit 1 fun i => if i = 0 then some 8 else none]
    ¬ callbacks.Steps Counted (some ⟨.empty, 0⟩) cbs ∧
      callbacks.after (some ⟨.empty, 0⟩) (cbs ++ [.submit 1 fun _ => some 8]) = none := by
  refine ⟨fun h => ?_, rfl⟩
  obtain ⟨c, hc, hcount⟩ := h.2.2.1
  obtain rfl : c = ⟨⟨[], 1⟩, 2⟩ := Option.some.inj (hc.symm.trans rfl)
  exact absurd hcount (by decide)

end ClickhouseUring.User
