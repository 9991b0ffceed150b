import ClickhouseUring.Hotpatch.Hooks
import Mathlib.Algebra.Order.Ring.Int

/-!
# Accounting of the hotpatch hooks

`current_count` goes up by one for every hook that queues.  `write` and `fsync` queue one entry,
`send` and `read` two, so that the counter falls behind with the first of these.  Without them it is
right as long as it does not overflow (`accounted_iff`).
-/

namespace ClickhouseUring.Hotpatch

open Uring

/-- The hook returns, with the counter at the number of entries queued or submitted and not yet
reaped, and a flush reaps all of them. -/
def Outcome.Accounts (r : IoRing Op) (o : Outcome) : Prop :=
  ∃ r', r.run o.cmds = some r' ∧ o.globals.currentCount.toInt = r'.outstanding ∧
    ∀ f ∈ flushes r o.cmds,
      f.waits = f.submitted + f.leftover ∧ r' = .empty ∧ o.globals.currentCount = 0

/-- The hook of the call accounts for what is on the ring. -/
def Accounted (patchSize : BitVec 32) (s : Sys) (c : Call) : Prop :=
  ∃ r, s.ring = some r ∧ (hook patchSize s.globals c).Accounts r

/-- The call queues only itself, and the counter has room for it. -/
def CountedOnce (s : Sys) : Call → Prop
  | .write fd _ _ => s.globals.global ∧ fd ≠ 1 → s.globals.currentCount.toInt ≠ 2 ^ 31 - 1
  | .fsync _ => s.globals.currentCount.toInt ≠ 2 ^ 31 - 1
  | .send .. => False
  | .read .. => False

/-- The counter is the number of entries outstanding. -/
def Counted (s : Sys) : Prop :=
  ∃ r, s.ring = some r ∧ s.globals.currentCount.toInt = r.outstanding

/-! ## One call -/

/-- The counter wraps at the top of its range. -/
theorem toInt_succ (x : BitVec 32) :
    (x + 1).toInt = if x.toInt = 2 ^ 31 - 1 then -2 ^ 31 else x.toInt + 1 := by
  have hlt : x.toInt < 2 ^ 31 := x.toInt_lt
  have hle : -2 ^ 31 ≤ x.toInt := x.le_toInt
  have hone : (1 : BitVec 32).toInt = 1 := by decide
  rw [BitVec.toInt_add, hone, Int.bmod_def]
  split_ifs <;> omega

/-- What queueing and counting an operation does to the counter and the ring. -/
inductive Enqueues (patchSize : BitVec 32) (g : Globals) (r : IoRing Op) (op : Op) :
    BitVec 32 → IoRing Op → List Flush → Prop
  | joins (h : g.currentCount.toInt < patchSize.toInt) :
      Enqueues patchSize g r op (g.currentCount + 1) (r.add ⟨op, false⟩) []
  /-- The waits are those of the new count. -/
  | flushes {n : ℕ} (h : patchSize.toInt ≤ g.currentCount.toInt)
      (hn : n = (g.currentCount + 1).toInt.toNat) :
      Enqueues patchSize g r op 0 ⟨[], r.outstanding + 1 - n⟩
        [⟨r.queued.length + 1, r.inflight, n⟩]

theorem enqueue_acts (patchSize : BitVec 32) {g : Globals} {r : IoRing Op}
    (h : g.currentCount.toInt ≤ r.outstanding) (op : Op) :
    ∃ r', r.run (enqueue patchSize g op).2 = some r' ∧
      Enqueues patchSize g r op (enqueue patchSize g op).1.currentCount r'
        (flushes r (enqueue patchSize g op).2) := by
  unfold enqueue reap
  by_cases hslt : g.currentCount.slt patchSize
  · rw [if_pos hslt]
    exact ⟨r.add ⟨op, false⟩, rfl, .joins (BitVec.slt_iff_toInt_lt.mp hslt)⟩
  · rw [if_neg hslt]
    have hwaits : (g.currentCount + 1).toInt.toNat ≤ (r.add ⟨op, false⟩).outstanding := by
      rw [toInt_succ, IoRing.outstanding_add]
      split_ifs <;> omega
    have hqueued : (r.add ⟨op, false⟩).queued.length = r.queued.length + 1 := List.length_append
    have hrun := IoRing.run_submit_waits hwaits
    rw [IoRing.outstanding_add] at hrun
    refine ⟨_, hrun, ?_⟩
    rw [flushes_push, flushes_flush, hqueued]
    refine .flushes ?_ rfl
    rw [BitVec.slt_iff_toInt_lt] at hslt
    exact Int.not_lt.mp hslt

section Step

variable {patchSize : BitVec 32} {s : Sys} {g : Globals} {r : IoRing Op}

/-- **A call queued once** is accounted for unless the counter overflows. -/
theorem accounts_enqueue_iff (h : g.currentCount.toInt = r.outstanding) (op : Op)
    (override : Option (BitVec 64)) :
    Outcome.Accounts r
        ⟨(enqueue patchSize g op).1, (enqueue patchSize g op).2, override⟩ ↔
      g.currentCount.toInt ≠ 2 ^ 31 - 1 := by
  have hmax : patchSize.toInt < 2 ^ 31 := patchSize.toInt_lt
  have hsucc := toInt_succ g.currentCount
  obtain ⟨r₁, hrun, hacts⟩ := enqueue_acts patchSize (Int.le_of_eq h) op
  unfold Outcome.Accounts
  dsimp only
  rw [hrun]
  generalize (enqueue patchSize g op).1.currentCount = count,
    flushes r (enqueue patchSize g op).2 = fs at hacts
  cases hacts with
  | joins hlt =>
    have hne : g.currentCount.toInt ≠ 2 ^ 31 - 1 := by omega
    rw [if_neg hne] at hsucc
    refine iff_of_true ⟨_, rfl, ?_, List.forall_mem_nil _⟩ hne
    rw [IoRing.outstanding_add, hsucc, h]
    rfl
  | @flushes n hle hn =>
    constructor
    · rintro ⟨_, ⟨⟩, hcount, -⟩ htop
      rw [if_pos htop] at hsucc
      have hzero : (0 : ℤ) = (r.outstanding + 1 - n : ℕ) :=
        hcount.trans (by simp [IoRing.outstanding])
      omega
    · intro hne
      rw [if_neg hne] at hsucc
      have hout : r.outstanding + 1 - n = 0 := by omega
      rw [hout]
      refine ⟨_, rfl, rfl, fun f hf => ?_⟩
      obtain rfl := List.mem_singleton.mp hf
      refine ⟨?_, rfl, rfl⟩
      unfold IoRing.outstanding at h
      dsimp only
      omega

/-- **A call queued twice** is never accounted for. -/
theorem not_accounts_twice (h : g.currentCount.toInt = r.outstanding) (op op' : Op)
    (override : Option (BitVec 64)) :
    ¬ Outcome.Accounts r ⟨(enqueue patchSize g op).1,
      .push op' true :: .submit :: (enqueue patchSize g op).2, override⟩ := by
  rintro ⟨r', hrun, hcount, -⟩
  dsimp only at hrun hcount
  have hsucc := toInt_succ g.currentCount
  have hsubmit : (r.add ⟨op', false⟩).exec .submit = some ⟨[], r.outstanding + 1⟩ := by
    rw [← IoRing.outstanding_add r ⟨op', false⟩, IoRing.outstanding, Nat.add_comm]
    rfl
  have hrun' : (IoRing.mk [] (r.outstanding + 1)).run (enqueue patchSize g op).2 = some r' := by
    rw [← hrun]
    exact (congrArg (fun o => o.bind fun r => r.run (enqueue patchSize g op).2) hsubmit).symm
  have hout : (IoRing.mk ([] : List (Sqe Op)) (r.outstanding + 1)).outstanding =
      r.outstanding + 1 := Nat.zero_add _
  have hle : g.currentCount.toInt ≤
      (IoRing.mk ([] : List (Sqe Op)) (r.outstanding + 1)).outstanding := by
    rw [hout]
    omega
  obtain ⟨r₁, hr₁, hacts⟩ := enqueue_acts patchSize hle op
  obtain rfl := Option.some.inj (hr₁.symm.trans hrun')
  generalize (enqueue patchSize g op).1.currentCount = count,
    flushes _ (enqueue patchSize g op).2 = fs at hacts hcount
  cases hacts with
  | joins hlt =>
    have hmax : patchSize.toInt < 2 ^ 31 := patchSize.toInt_lt
    rw [IoRing.outstanding_add, hout, hsucc, if_neg (by omega)] at hcount
    omega
  | @flushes n hle hn =>
    -- one completion more is outstanding than the counter has waits for
    have hleft : n ≤ r.outstanding + 1 := by
      rw [hn, hsucc]
      split_ifs <;> omega
    rw [hout] at hcount
    have hzero : (0 : ℤ) = (0 + (r.outstanding + 1 + 1 - n) : ℕ) := hcount
    omega

/-- **One call.** -/
theorem accounted_iff_countedOnce (hs : Counted s) (c : Call) :
    Accounted patchSize s c ↔ CountedOnce s c := by
  obtain ⟨r, hr, hcount⟩ := hs
  have haccounted : Accounted patchSize s c ↔ (hook patchSize s.globals c).Accounts r := by
    unfold Accounted
    rw [hr]
    simp only [Option.some.injEq, exists_eq_left']
  rw [haccounted]
  cases c with
  | write fd buf n =>
    unfold hook write CountedOnce
    dsimp only
    by_cases hfd : s.globals.global = true ∧ fd ≠ 1
    · rw [if_pos (by simpa using hfd), accounts_enqueue_iff hcount]
      exact ⟨fun h _ => h, fun h => h hfd⟩
    · rw [if_neg (by simpa using hfd)]
      exact iff_of_true ⟨r, rfl, hcount, List.forall_mem_nil _⟩
        fun h => absurd h hfd
  | fsync fd => exact accounts_enqueue_iff hcount _ _
  | send fd buf n flags => exact iff_of_false (not_accounts_twice hcount _ _ _) id
  | read fd buf n flags => exact iff_of_false (not_accounts_twice hcount _ _ _) id

theorem counted_step {c : Call} (h : Accounted patchSize s c) :
    Counted ((patched patchSize).step s c) := by
  obtain ⟨r, hr, r', hrun, hcount, -⟩ := h
  refine ⟨r', ?_, hcount⟩
  show s.ring.bind _ = _
  rw [hr]
  exact hrun

end Step

/-! ## Runs -/

/-- **The counter.** In a run from an empty ring every call is accounted for exactly when none is
a `send` or a `read` and none is counted while the counter is at the top of its range, which only
the largest `patch_size` lets it reach. -/
theorem accounted_iff (patchSize : BitVec 32) (global : Bool) (cs : List Call) :
    (patched patchSize).Steps (Accounted patchSize) (loaded global) cs ↔
      (patched patchSize).Steps CountedOnce (loaded global) cs := by
  apply (patched patchSize).steps_iff_of_invariant (I := Counted) _ _ ⟨_, rfl, rfl⟩
  · intro s c hs
    exact accounted_iff_countedOnce hs c
  · intro s c hs hc
    exact counted_step ((accounted_iff_countedOnce hs c).mpr hc)

/-- After one `send` two entries are outstanding, and the counter is 1. -/
theorem not_accounted_send :
    ¬ (patched 100000000).Steps (Accounted 100000000) (loaded true) [.send 5 4096 8 0] := by
  rintro ⟨⟨r, hr, hacc⟩, -⟩
  obtain rfl := Option.some.inj hr
  exact not_accounts_twice rfl _ _ _ hacc

end ClickhouseUring.Hotpatch
