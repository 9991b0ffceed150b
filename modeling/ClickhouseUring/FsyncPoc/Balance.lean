import ClickhouseUring.FsyncPoc.Loop
import Mathlib.Algebra.BigOperators.Group.List.Basic
import Mathlib.Algebra.Order.BigOperators.Group.List

/-!
# The plain loop is balanced

Without `wait_kernel` an iteration sees as many completions as it queues entries, and leaves the
ring empty (`test_balanced`).  A `batch_size` of 512 fills the 1024 entries to the last one; a
larger one makes `io_uring_get_sqe` fail between two pairs, never within one.

`nr_reqs` has 64 bits, and so is right modulo `2 ^ 64` only (`nrReqs_wraps`).
-/

namespace ClickhouseUring.FsyncPoc

open Uring

/-- The turns of an iteration that queue something. -/
def syncs (batchSize : BitVec 64) : ℕ := min batchSize.toNat 512

/-- The iteration queues whole pairs and sees their completions, all of them and no others. -/
structure Balanced (batchSize : BitVec 64) (it : ℕ) (r : Report) : Prop where
  queued : r.queued = pairs it (syncs batchSize)
  seen : (r.seen.map Cqe.op).Perm r.queued
  errors : batchSize.toNat ≤ 512 → r.errors = []

/-- The pairs of a write and an fsync that an iteration sees completed. -/
def Report.completed (r : Report) : ℕ :=
  min (r.seen.countP fun c => c.op.request = .write 256 0)
    (r.seen.countP fun c => c.op.request = .fsync)

/-- The pairs completed in all iterations. -/
def completed (tr : List Report) : ℕ := (tr.map Report.completed).sum

/-! ## One iteration -/

theorem queueEntries_empty (it n : ℕ) :
    queueEntries it n .empty = ⟨⟨pairs it (min n 512), [], []⟩, min n 512,
      if n ≤ 512 then [] else ["get sqe failed", "submit_io_uring_write failed"]⟩ :=
  queueEntries_eq it n [] [] (show ([] : List Entry).length + 2 * 512 = entries from rfl)

theorem iterate_plain (b : BitVec 64) {s : Bench} (hs : s.ring = .empty) (t : Turn) :
    ∃ r, iterate false b s t = some ({ s with
      ring := .empty, nrReqs := s.nrReqs + b, iteration := s.iteration + 1 }, r) ∧
      Balanced b s.iteration r := by
  obtain ⟨cqes, ring, hwaits, hlen, hperm, hqueued⟩ := waitCqes_eq t.serve (n := syncs b * 2) 0
    (r := ⟨[], pairs s.iteration (syncs b), []⟩)
    (by rw [Queues.outstanding, List.map_nil, List.append_nil, length_pairs]; omega)
  have hout : (Queues.mk [] (pairs s.iteration (syncs b)) []).outstanding =
      pairs s.iteration (syncs b) := List.append_nil _
  rw [hout] at hperm
  have hring : ring = .empty := by
    apply Queues.eq_empty hqueued
    have hsum := hperm.length_eq
    rw [List.length_append, List.length_map, hlen, length_pairs] at hsum
    rw [← List.length_eq_zero_iff]
    omega
  subst hring
  refine ⟨⟨pairs s.iteration (syncs b),
    if b.toNat ≤ 512 then [] else ["get sqe failed", "submit_io_uring_write failed"], cqes⟩,
    ?_, rfl, ?_, fun h => if_pos h⟩
  · unfold iterate
    rw [hs, queueEntries_empty]
    show (Option.map _ (waitCqes t.serve (syncs b * 2) 0
      ⟨[], pairs s.iteration (syncs b), []⟩)).bind _ = _
    rw [hwaits]
    rfl
  · have hempty : (Queues.empty : Queues Entry).outstanding = [] := rfl
    rw [hempty, List.append_nil] at hperm
    exact hperm.symm

theorem countP_pairs {it n : ℕ} {p : Entry → Bool} (h : p (.write it) ≠ p (.fsync it)) :
    (pairs it n).countP p = n := by
  induction n with
  | zero => rfl
  | succ n ih =>
    rw [pairs_succ, List.countP_cons, List.countP_cons, ih]
    cases hw : p (.write it) <;> cases hf : p (.fsync it)
    · exact absurd (hw.trans hf.symm) h
    · rfl
    · rfl
    · exact absurd (hw.trans hf.symm) h

theorem Balanced.completed {b : BitVec 64} {it : ℕ} {r : Report} (h : Balanced b it r) :
    r.completed = syncs b := by
  have hcount : ∀ p : Entry → Bool, r.seen.countP (fun c => p c.op) =
      (pairs it (syncs b)).countP p := by
    intro p
    rw [← h.queued, ← h.seen.countP_eq p, List.countP_map]
    rfl
  unfold Report.completed
  rw [hcount fun e => decide (e.request = .write 256 0),
    hcount fun e => decide (e.request = .fsync), countP_pairs, countP_pairs, Nat.min_self]
  · exact Bool.noConfusion
  · exact Bool.noConfusion

/-! ## Runs -/

/-- The state and the reports after so many iterations. -/
structure Kept (b : BitVec 64) (n : ℕ) (tr : List Report) (s : Bench) : Prop where
  ring : s.ring = .empty
  nrReqs : s.nrReqs = BitVec.ofNat 64 (n * b.toNat)
  iteration : s.iteration = n
  length : tr.length = n
  balanced : ∀ i r, tr[i]? = some r → Balanced b i r
  completed : completed tr = n * syncs b

theorem Kept.concat {b : BitVec 64} {n : ℕ} {tr : List Report} {s : Bench} (h : Kept b n tr s)
    {r : Report} (hr : Balanced b n r) :
    Kept b (n + 1) (tr ++ [r]) { s with
      ring := .empty, nrReqs := s.nrReqs + b, iteration := s.iteration + 1 } where
  ring := rfl
  nrReqs := by
    show s.nrReqs + b = _
    rw [h.nrReqs, Nat.add_mul, Nat.one_mul, BitVec.ofNat_add, BitVec.ofNat_toNat,
      BitVec.setWidth_eq]
  iteration := congrArg (· + 1) h.iteration
  length := by rw [List.length_append, h.length]; rfl
  balanced i r' hi := by
    rcases Nat.lt_or_ge i tr.length with hlt | hge
    · rw [List.getElem?_append_left hlt] at hi
      exact h.balanced i r' hi
    · rw [List.getElem?_append_right hge, List.getElem?_singleton] at hi
      split_ifs at hi with h0
      obtain rfl := Option.some.inj hi
      obtain rfl : i = n := by rw [← h.length]; omega
      exact hr
  completed := by
    have hsum := h.completed
    unfold FsyncPoc.completed at hsum ⊢
    rw [List.map_append, List.sum_append, hsum, List.map_singleton, List.sum_singleton,
      hr.completed, Nat.add_mul, Nat.one_mul]

theorem kept_started (b : BitVec 64) : Kept b 0 [] started where
  ring := rfl
  nrReqs := by
    rw [Nat.zero_mul]
    rfl
  iteration := rfl
  length := rfl
  balanced i r h := by simp at h
  completed := (Nat.zero_mul _).symm

theorem kept_run (b : BitVec 64) (turns : List Turn) :
    ∃ s, (test false b).after (some started) turns = some s ∧
      Kept b turns.length ((test false b).trace (some started) turns) s := by
  have hturn (n : ℕ) (tr : List Report) (s : Bench) (t : Turn) (h : Kept b n tr s) (_ : True) :
      ∃ s' rs, (iterate false b s t).map (fun p => (p.1, [p.2])) = some (s', rs) ∧
        Kept b (n + 1) (tr ++ rs) s' := by
    obtain ⟨r, hiterate, hr⟩ := iterate_plain b h.ring t
    rw [h.iteration] at hr
    rw [hiterate]
    exact ⟨_, _, rfl, h.concat hr⟩
  exact Machine.ofPartial_run hturn (kept_started b) fun _ _ => trivial

/-- **Balance.** For every `batch_size` and every number of iterations, each iteration queues its
pairs, a write and its fsync, sees the completions of what it queued, and leaves the ring empty; up
to a `batch_size` of 512 no call fails, and `nr_reqs` is the number of completed pairs modulo
`2 ^ 64`. -/
theorem test_balanced (batchSize : BitVec 64) (turns : List Turn) :
    ∃ s, (test false batchSize).after (some started) turns = some s ∧ s.ring = .empty ∧
      ((test false batchSize).trace (some started) turns).length = turns.length ∧
      (∀ i r, ((test false batchSize).trace (some started) turns)[i]? = some r →
        Balanced batchSize i r) ∧
      (batchSize.toNat ≤ 512 → s.nrReqs.toNat =
        completed ((test false batchSize).trace (some started) turns) % 2 ^ 64) := by
  obtain ⟨s, hafter, h⟩ := kept_run batchSize turns
  refine ⟨s, hafter, h.ring, h.length, h.balanced, fun hle => ?_⟩
  have hsyncs : syncs batchSize = batchSize.toNat := Nat.min_eq_left hle
  rw [h.nrReqs, h.completed, hsyncs, BitVec.toNat_ofNat]

/-- An iteration in which everything completes at once and the probe does not run. -/
def promptTurn : Turn := ⟨fun _ => .prompt fun _ => 0, fun _ => 0⟩

/-- After `2 ^ 55` iterations with a `batch_size` of 512 the counter is back at zero. -/
theorem nrReqs_wraps :
    ¬ ∃ s, (test false 512).after (some started) (List.replicate (2 ^ 55) promptTurn) = some s ∧
      s.nrReqs.toNat = completed
        ((test false 512).trace (some started) (List.replicate (2 ^ 55) promptTurn)) := by
  rintro ⟨s, hafter, hcount⟩
  obtain ⟨s', hafter', h⟩ := kept_run 512 (List.replicate (2 ^ 55) promptTurn)
  obtain rfl := Option.some.inj (hafter.symm.trans hafter')
  rw [h.nrReqs, h.completed, List.length_replicate, BitVec.toNat_ofNat] at hcount
  exact absurd hcount (by decide)

end ClickhouseUring.FsyncPoc
