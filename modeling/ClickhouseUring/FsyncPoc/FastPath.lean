import ClickhouseUring.FsyncPoc.Balance

/-!
# The fast path leaves completions behind

With `wait_kernel` a positive counter stands in for the two waits of a pair.  The completions of
the pair stay on the ring all the same, and a later wait takes them for those of its own iteration.
So the iterations reap what they submit exactly as long as no look at the counter finds it positive
(`reaped_iff`).
-/

namespace ClickhouseUring.FsyncPoc

open Uring

/-- After the iteration everything submitted is reaped, and its waits returned completions of its
own entries. -/
def Reaped (kernel : Bool) (batchSize : BitVec 64) : Option Bench → Turn → Prop
  | none, _ => False
  | some s, t => ∃ s' r, iterate kernel batchSize s t = some (s', r) ∧
      s'.ring.outstanding = [] ∧ ∀ c ∈ r.seen, c.op.iteration = s.iteration

/-- How often the probe runs before `n` looks at the counter, from the `i`-th on. -/
def Turn.arrived (t : Turn) (i n : ℕ) : ℕ := ((List.range' i n).map t.writebacks).sum

/-- With what has arrived before it, none of `n` looks at the counter finds a credit. -/
def Turn.Bare (t : Turn) (n i : ℕ) (count : BitVec 32) : Prop :=
  ∀ j < n, (count + BitVec.ofNat 32 (t.arrived i (j + 1))).toInt ≤ 0

/-- With `wait_kernel`, no look at the counter finds a credit. -/
def NoCredit (kernel : Bool) (batchSize : BitVec 64) : Option Bench → Turn → Prop
  | none, _ => False
  | some s, t => kernel = true → t.Bare (syncs batchSize) 0 s.successfulWritebackCount

/-! ## One iteration -/

theorem bare_succ (t : Turn) (n i : ℕ) (count : BitVec 32) :
    t.Bare (n + 1) i count ↔ (count + BitVec.ofNat 32 (t.writebacks i)).toInt ≤ 0 ∧
      t.Bare n (i + 1) (count + BitVec.ofNat 32 (t.writebacks i)) := by
  have harrived : ∀ j, count + BitVec.ofNat 32 (t.arrived i (j + 1)) =
      count + BitVec.ofNat 32 (t.writebacks i) + BitVec.ofNat 32 (t.arrived (i + 1) j) := by
    intro j
    unfold Turn.arrived
    rw [List.range'_succ, List.map_cons, List.sum_cons, BitVec.ofNat_add, BitVec.add_assoc]
  have hzero : count + BitVec.ofNat 32 (t.arrived i 1) =
      count + BitVec.ofNat 32 (t.writebacks i) := by
    rw [harrived 0]
    exact BitVec.add_zero _
  unfold Turn.Bare
  constructor
  · intro h
    refine ⟨?_, fun j hj => ?_⟩
    · rw [← hzero]
      exact h 0 (Nat.succ_pos n)
    · rw [← harrived (j + 1)]
      exact h (j + 1) (Nat.succ_lt_succ hj)
  · rintro ⟨h0, h⟩ j hj
    cases j with
    | zero =>
      rw [hzero]
      exact h0
    | succ j =>
      rw [harrived (j + 1)]
      exact h j (Nat.lt_of_succ_lt_succ hj)

/-- The waits for `n` pairs, of which `taken` are left out. -/
theorem waitKernel_eq (t : Turn) {n : ℕ} (i : ℕ) {r : Queues Entry} (count : BitVec 32)
    (h : 2 * n ≤ r.outstanding.length) :
    ∃ cqes r' count' taken, waitKernel t n i r count = some (cqes, r', count') ∧
      cqes.length + 2 * taken = 2 * n ∧
      r.outstanding.Perm (cqes.map Cqe.op ++ r'.outstanding) ∧ r'.queued = r.queued ∧
      (taken = 0 ↔ t.Bare n i count) := by
  induction n generalizing i r count with
  | zero =>
    refine ⟨[], r, count, 0, rfl, rfl, List.Perm.refl _, rfl, iff_of_true rfl fun j hj => ?_⟩
    exact absurd hj (Nat.not_lt_zero j)
  | succ n ih =>
    rw [waitKernel, bare_succ]
    generalize count + BitVec.ofNat 32 (t.writebacks i) = count'
    by_cases hcredit : count'.toInt > 0
    · -- a credit is taken, and the two completions stay
      obtain ⟨cqes, r', count'', taken, hwait, hlen, hperm, hqueued, -⟩ :=
        ih (i + 1) (r := r) (count' - 1) (by omega)
      refine ⟨cqes, r', count'', taken + 1, ?_, by omega, hperm, hqueued, ?_⟩
      · dsimp only
        rw [if_pos hcredit, hwait]
      · exact iff_of_false (Nat.succ_ne_zero taken) fun h => absurd h.1 (not_le.mpr hcredit)
    · obtain ⟨cqes, r₁, hwaits, hlen, hperm, hqueued⟩ := waitCqes_eq t.serve (n := 2) (2 * i)
        (r := r) (by omega)
      have hsum := hperm.length_eq
      rw [List.length_append, List.length_map] at hsum
      obtain ⟨cqes', r', count'', taken, hwait, hlen', hperm', hqueued', hbare⟩ :=
        ih (i + 1) (r := r₁) count' (by omega)
      refine ⟨cqes ++ cqes', r', count'', taken, ?_, ?_, ?_, hqueued'.trans hqueued, ?_⟩
      · dsimp only
        rw [if_neg hcredit, hwaits, Option.bind_eq_bind, Option.bind_some]
        dsimp only
        rw [hwait]
        rfl
      · rw [List.length_append]
        omega
      · rw [List.map_append, List.append_assoc]
        exact hperm.trans (hperm'.append_left _)
      · rw [hbare, and_iff_right (not_lt.mp hcredit)]

/-- An iteration that takes `taken` credits leaves as many pairs on the ring. -/
theorem iterate_taken (kernel : Bool) (b : BitVec 64) {s : Bench} (hs : s.ring = .empty)
    (t : Turn) :
    ∃ s' r taken, iterate kernel b s t = some (s', r) ∧ s'.ring.queued = [] ∧
      s'.ring.outstanding.length = 2 * taken ∧
      (pairs s.iteration (syncs b)).Perm (r.seen.map Cqe.op ++ s'.ring.outstanding) ∧
      (taken = 0 ↔ NoCredit kernel b (some s) t) := by
  cases kernel with
  | false =>
    obtain ⟨r, hiterate, hr⟩ := iterate_plain b hs t
    refine ⟨_, r, 0, hiterate, rfl, rfl, ?_, iff_of_true rfl fun h => Bool.noConfusion h⟩
    have hperm := hr.seen
    rw [hr.queued] at hperm
    have hempty : (Queues.empty : Queues Entry).outstanding = [] := rfl
    dsimp only
    rw [hempty, List.append_nil]
    exact hperm.symm
  | true =>
    have hout : (Queues.mk [] (pairs s.iteration (syncs b)) []).outstanding =
        pairs s.iteration (syncs b) := List.append_nil _
    obtain ⟨cqes, ring, count, taken, hwait, hlen, hperm, hqueued, hbare⟩ :=
      waitKernel_eq t (n := syncs b) 0 (r := ⟨[], pairs s.iteration (syncs b), []⟩)
        s.successfulWritebackCount (by rw [hout, length_pairs])
    rw [hout] at hperm
    have hsum := hperm.length_eq
    rw [List.length_append, List.length_map, length_pairs] at hsum
    refine ⟨⟨ring, s.nrReqs + b, count, s.iteration + 1⟩, ⟨pairs s.iteration (syncs b),
      if b.toNat ≤ 512 then [] else ["get sqe failed", "submit_io_uring_write failed"], cqes⟩,
      taken, ?_, hqueued, by dsimp only; omega, hperm, ?_⟩
    · unfold iterate
      rw [hs, queueEntries_empty]
      show (waitKernel t (syncs b) 0 ⟨[], pairs s.iteration (syncs b), []⟩ _).bind _ = _
      rw [hwait]
      rfl
    · rw [hbare]
      exact ⟨fun h _ => h, fun h => h rfl⟩

theorem reaped_step_iff (kernel : Bool) (b : BitVec 64) {s : Bench} (hs : s.ring = .empty)
    (t : Turn) : Reaped kernel b (some s) t ↔ NoCredit kernel b (some s) t := by
  obtain ⟨s', r, taken, hiterate, -, hlen, hperm, htaken⟩ := iterate_taken kernel b hs t
  rw [← htaken]
  constructor
  · rintro ⟨s'', r', hiterate', hout, -⟩
    obtain ⟨rfl, rfl⟩ := Prod.mk.inj (Option.some.inj (hiterate.symm.trans hiterate'))
    rw [hout, List.length_nil] at hlen
    omega
  · rintro rfl
    have hout : s'.ring.outstanding = [] := List.length_eq_zero_iff.mp hlen
    refine ⟨s', r, hiterate, hout, fun c hc => ?_⟩
    rw [hout, List.append_nil] at hperm
    exact iteration_of_mem_pairs (hperm.symm.subset (List.mem_map_of_mem hc))

/-! ## Runs -/

/-- Between two iterations the ring is empty. -/
def Clear (s : Option Bench) : Prop := ∃ s', s = some s' ∧ s'.ring = .empty

theorem clear_step {kernel : Bool} {b : BitVec 64} {s : Option Bench} (hs : Clear s) {t : Turn}
    (h : NoCredit kernel b s t) : Clear ((test kernel b).step s t) := by
  obtain ⟨s, rfl, hring⟩ := hs
  obtain ⟨s', r, taken, hiterate, hqueued, hlen, -, htaken⟩ := iterate_taken kernel b hring t
  rw [htaken.mpr h] at hlen
  refine ⟨s', ?_, Queues.eq_empty hqueued (List.length_eq_zero_iff.mp hlen)⟩
  have hturn : (iterate kernel b s t).map (fun p => (p.1, [p.2])) = some (s', [r]) := by
    rw [hiterate]
    rfl
  exact (Machine.ofPartial_of_some hturn).1

/-- **The fast path.** Each iteration of a run reaps everything submitted, and its own entries
only, exactly if with `wait_kernel` no look at the counter finds a credit. -/
theorem reaped_iff (kernel : Bool) (batchSize : BitVec 64) (turns : List Turn) :
    (test kernel batchSize).Steps (Reaped kernel batchSize) (some started) turns ↔
      (test kernel batchSize).Steps (NoCredit kernel batchSize) (some started) turns := by
  apply (test kernel batchSize).steps_iff_of_invariant (I := Clear) _ _ ⟨started, rfl, rfl⟩
  · rintro _ t ⟨s, rfl, hring⟩
    exact reaped_step_iff kernel batchSize hring t
  · intro s t hs h
    exact clear_step hs h

/-- One writeback before the first look leaves the two completions of the iteration unseen. -/
theorem not_reaped_credit :
    ¬ (test true 1).Steps (Reaped true 1) (some started)
      [⟨fun _ => .prompt fun _ => 0, fun _ => 1⟩] := by
  rintro ⟨⟨s', r, hiterate, hout, -⟩, -⟩
  have hleft : ((iterate true 1 started ⟨fun _ => .prompt fun _ => 0, fun _ => 1⟩).map
      fun p => p.1.ring.outstanding.length) = some 2 := by decide
  rw [hiterate, Option.map_some, hout] at hleft
  exact absurd hleft (by decide)

end ClickhouseUring.FsyncPoc
