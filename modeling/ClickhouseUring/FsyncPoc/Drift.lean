import ClickhouseUring.FsyncPoc.FastPath
import ClickhouseUring.Kit.Bucket

/-!
# How far the fast path falls behind

With `wait_kernel` each credit taken leaves a pair of completions on the ring, where it stays: no
iteration ever waits for more than it submits.  The counter itself is a bucket that the probe fills
and the looks empty, so that the number of pairs left behind is known from the times of the
writebacks alone (`drift`).  Submissions and waits succeed, also when more completions are unseen
than the completion queue has room for: the kernel keeps them back then.
-/

namespace ClickhouseUring.FsyncPoc

open Uring

/-- How often the probe runs before each of `n` looks, from the `i`-th on. -/
def Turn.looks (t : Turn) (i n : ℕ) : List ℕ := (List.range' i n).map t.writebacks

/-- The same for all looks of a run. -/
def writebacks (b : BitVec 64) (turns : List Turn) : List ℕ :=
  turns.flatMap fun t => t.looks 0 (syncs b)

/-- The entries of `n` iterations. -/
def submitted (b : BitVec 64) (n : ℕ) : List Entry :=
  (List.range n).flatMap fun it => pairs it (syncs b)

/-- The entries whose completions have been seen. -/
def seen (tr : List Report) : List Entry := tr.flatMap fun r => r.seen.map Cqe.op

/-! ## One iteration -/

/-- The waits take the credits as they come, as long as the counter does not overflow. -/
theorem credits_of_waitKernel {t : Turn} {n i : ℕ} {r r' : Queues Entry} {count count' : BitVec 32}
    {cqes : List (Cqe Entry)} (hlt : count.toNat + (t.looks i n).sum < 2 ^ 31)
    (h : waitKernel t n i r count = some (cqes, r', count')) :
    count'.toNat = Bucket.left count.toNat (t.looks i n) ∧
      cqes.length + 2 * Bucket.taken count.toNat (t.looks i n) = 2 * n := by
  induction n generalizing i r count cqes with
  | zero =>
    obtain ⟨rfl, -, rfl⟩ : [] = cqes ∧ r = r' ∧ count = count' := by simpa [waitKernel] using h
    exact ⟨rfl, rfl⟩
  | succ n ih =>
    have hlooks : t.looks i (n + 1) = t.writebacks i :: t.looks (i + 1) n := by
      simp [Turn.looks, List.range'_succ]
    rw [hlooks, List.sum_cons] at hlt
    rw [hlooks, Bucket.left_cons, Bucket.taken_cons]
    have hcount : (count + BitVec.ofNat 32 (t.writebacks i)).toNat =
        count.toNat + t.writebacks i := by
      rw [BitVec.toNat_add, BitVec.toNat_ofNat]
      omega
    rw [waitKernel] at h
    generalize count + BitVec.ofNat 32 (t.writebacks i) = added at h hcount
    have hpos : added.toInt > 0 ↔ added.toNat ≠ 0 := by
      rw [BitVec.toInt_eq_toNat_of_lt (by omega)]
      omega
    dsimp only at h
    by_cases hcredit : added.toInt > 0
    · rw [if_pos hcredit] at h
      have hne := hpos.mp hcredit
      have hone : (1 : BitVec 32) ≤ added := by
        show 1 ≤ added.toNat
        omega
      have hsub : (added - 1).toNat = count.toNat + t.writebacks i - 1 := by
        rw [BitVec.toNat_sub_of_le hone, hcount]
        rfl
      have hrest : (added - 1).toNat + (t.looks (i + 1) n).sum < 2 ^ 31 := by omega
      obtain ⟨hleft, hlen⟩ := ih hrest h
      rw [hsub] at hleft hlen
      rw [if_neg (by omega)]
      exact ⟨hleft, by omega⟩
    · rw [if_neg hcredit] at h
      have hzero : count.toNat + t.writebacks i = 0 := by
        rw [← hcount]
        exact not_not.mp (mt hpos.mpr hcredit)
      obtain ⟨⟨first, r₁⟩, hfirst, h⟩ := Option.bind_eq_some_iff.mp h
      obtain ⟨⟨rest, r₂, count₂⟩, hrest, h⟩ := Option.bind_eq_some_iff.mp h
      obtain ⟨rfl, rfl, rfl⟩ : first ++ rest = cqes ∧ r₂ = r' ∧ count₂ = count' := by
        simpa using h
      have hlt' : added.toNat + (t.looks (i + 1) n).sum < 2 ^ 31 := by omega
      obtain ⟨hleft, hlen⟩ := ih hlt' hrest
      have hadded : added.toNat = count.toNat + t.writebacks i - 1 := by omega
      rw [hadded] at hleft hlen
      rw [if_pos hzero, List.length_append, length_of_waitCqes hfirst]
      exact ⟨hleft, by omega⟩

/-- What an iteration does to a ring that may hold completions of earlier ones. -/
structure Advances (b : BitVec 64) (s : Bench) (t : Turn) (s' : Bench) (r : Report) : Prop where
  iterate : iterate true b s t = some (s', r)
  queued : s'.ring.queued = []
  nrReqs : s'.nrReqs = s.nrReqs + b
  iteration : s'.iteration = s.iteration + 1
  perm : (s.ring.outstanding ++ pairs s.iteration (syncs b)).Perm
    (r.seen.map Cqe.op ++ s'.ring.outstanding)
  credits : s.successfulWritebackCount.toNat + (t.looks 0 (syncs b)).sum < 2 ^ 31 →
    s'.successfulWritebackCount.toNat =
      Bucket.left s.successfulWritebackCount.toNat (t.looks 0 (syncs b)) ∧
    r.seen.length + 2 * Bucket.taken s.successfulWritebackCount.toNat (t.looks 0 (syncs b)) =
      2 * syncs b

theorem iterate_advances (b : BitVec 64) {s : Bench} (hs : s.ring.queued = []) (t : Turn) :
    ∃ s' r, Advances b s t s' r := by
  obtain ⟨⟨queued, running, posted⟩, nrReqs, count, it⟩ := s
  obtain rfl : queued = [] := hs
  have hout : ((⟨[], running, posted⟩ : Queues Entry).outstanding ++ pairs it (syncs b)).Perm
      (Queues.mk [] (running ++ pairs it (syncs b)) posted).outstanding := by
    unfold Queues.outstanding
    rw [List.append_assoc, List.append_assoc]
    exact List.perm_append_comm.append_left running
  have hroom : 2 * syncs b ≤
      (Queues.mk [] (running ++ pairs it (syncs b)) posted).outstanding.length := by
    rw [← hout.length_eq, List.length_append, length_pairs]
    omega
  obtain ⟨cqes, ring, count', -, hwait, -, hperm, hqueued, -⟩ := waitKernel_eq t 0 count hroom
  refine ⟨⟨ring, nrReqs + b, count', it + 1⟩, ⟨pairs it (syncs b),
    if b.toNat ≤ 512 then [] else ["get sqe failed", "submit_io_uring_write failed"], cqes⟩,
    ?_, hqueued, rfl, rfl, hout.trans hperm, fun hlt => credits_of_waitKernel hlt hwait⟩
  have hqueue := queueEntries_eq it b.toNat (q := []) running posted
    (show ([] : List Entry).length + 2 * 512 = entries from rfl)
  unfold iterate
  rw [hqueue]
  show (waitKernel t (syncs b) 0 ⟨[], running ++ pairs it (syncs b), posted⟩ count).bind _ = _
  rw [hwait]
  rfl

/-! ## Runs -/

/-- The state and the reports after the turns. -/
structure Drifted (b : BitVec 64) (turns : List Turn) (tr : List Report) (s : Bench) : Prop where
  queued : s.ring.queued = []
  nrReqs : s.nrReqs = BitVec.ofNat 64 (turns.length * b.toNat)
  iteration : s.iteration = turns.length
  credits : s.successfulWritebackCount.toNat = Bucket.left 0 (writebacks b turns)
  perm : (submitted b turns.length).Perm (seen tr ++ s.ring.outstanding)
  behind : s.ring.outstanding.length = 2 * Bucket.taken 0 (writebacks b turns)

theorem Drifted.concat {b : BitVec 64} {turns : List Turn} {tr : List Report} {s s' : Bench}
    (h : Drifted b turns tr s) {t : Turn} {r : Report} (ht : Advances b s t s' r)
    (hlt : (writebacks b (turns ++ [t])).sum < 2 ^ 31) :
    Drifted b (turns ++ [t]) (tr ++ [r]) s' := by
  have hwritebacks : writebacks b (turns ++ [t]) = writebacks b turns ++ t.looks 0 (syncs b) := by
    simp [writebacks]
  have hlength : (turns ++ [t]).length = turns.length + 1 := by simp
  have hleft := Bucket.taken_add_left 0 (writebacks b turns)
  rw [hwritebacks, List.sum_append] at hlt
  obtain ⟨hcredits, hseen⟩ := ht.credits (by rw [h.credits]; omega)
  rw [h.credits] at hcredits hseen
  have hperm : (submitted b (turns ++ [t]).length).Perm
      (seen (tr ++ [r]) ++ s'.ring.outstanding) := by
    have hsubmitted : submitted b (turns ++ [t]).length =
        submitted b turns.length ++ pairs s.iteration (syncs b) := by
      simp [submitted, List.range_succ, h.iteration]
    have hsplit : seen (tr ++ [r]) ++ s'.ring.outstanding =
        seen tr ++ (r.seen.map Cqe.op ++ s'.ring.outstanding) := by simp [seen]
    rw [hsubmitted, hsplit]
    calc submitted b turns.length ++ pairs s.iteration (syncs b)
      _ |>.Perm ((seen tr ++ s.ring.outstanding) ++ pairs s.iteration (syncs b)) :=
        h.perm.append_right _
      _ |>.Perm (seen tr ++ (r.seen.map Cqe.op ++ s'.ring.outstanding)) := by
        rw [List.append_assoc]
        exact ht.perm.append_left _
  refine ⟨ht.queued, ?_, by rw [ht.iteration, h.iteration, hlength], ?_, hperm, ?_⟩
  · rw [ht.nrReqs, h.nrReqs, hlength, Nat.add_mul, Nat.one_mul, BitVec.ofNat_add,
      BitVec.ofNat_toNat, BitVec.setWidth_eq]
  · rw [hcredits, hwritebacks, Bucket.left_append]
  · have hlen := ht.perm.length_eq
    rw [List.length_append, List.length_append, List.length_map, length_pairs, h.behind] at hlen
    rw [hwritebacks, Bucket.taken_append]
    omega

theorem drifted_started (b : BitVec 64) : Drifted b [] [] started where
  queued := rfl
  nrReqs := by
    rw [List.length_nil, Nat.zero_mul]
    rfl
  iteration := rfl
  credits := rfl
  perm := List.Perm.refl _
  behind := rfl

theorem drifted_run (b : BitVec 64) {turns : List Turn}
    (hlt : (writebacks b turns).sum < 2 ^ 31) :
    ∃ s, (test true b).after (some started) turns = some s ∧
      Drifted b turns ((test true b).trace (some started) turns) s := by
  induction turns using List.reverseRecOn with
  | nil => exact ⟨started, rfl, drifted_started b⟩
  | append_singleton turns t ih =>
    have hbefore : (writebacks b turns).sum < 2 ^ 31 := by
      have hsum : (writebacks b (turns ++ [t])).sum =
          (writebacks b turns).sum + (t.looks 0 (syncs b)).sum := by simp [writebacks]
      omega
    obtain ⟨s, hafter, h⟩ := ih hbefore
    obtain ⟨s', r, ht⟩ := iterate_advances b h.queued t
    have hturn : (iterate true b s t).map (fun p => (p.1, [p.2])) = some (s', [r]) := by
      rw [ht.iterate]
      rfl
    have hmachine : (test true b).step (some s) t = some s' ∧ (test true b).out (some s) t = [r] :=
      Machine.ofPartial_of_some hturn
    refine ⟨s', ?_, ?_⟩
    · rw [Machine.after_concat, hafter, hmachine.1]
    · rw [Machine.trace_concat, hafter, hmachine.2]
      exact h.concat ht hlt

/-- **Drift.**  With `wait_kernel` and fewer than `2 ^ 31` writebacks the test never blocks.  After
any number of iterations the counter is the largest surplus of writebacks over looks among the
suffixes of the run; each of the other writebacks has left two completions behind, though the test
has counted their requests; and nothing else is lost or seen twice. -/
theorem drift (b : BitVec 64) (turns : List Turn) (hlt : (writebacks b turns).sum < 2 ^ 31) :
    ∃ s, (test true b).after (some started) turns = some s ∧ s.ring.queued = [] ∧
      IsGreatest {k | ∃ bs, bs <:+ writebacks b turns ∧ bs.sum = k + bs.length}
        s.successfulWritebackCount.toNat ∧
      s.ring.outstanding.length + 2 * s.successfulWritebackCount.toNat =
        2 * (writebacks b turns).sum ∧
      s.nrReqs = BitVec.ofNat 64 (turns.length * b.toNat) ∧
      (submitted b turns.length).Perm
        (seen ((test true b).trace (some started) turns) ++ s.ring.outstanding) := by
  obtain ⟨s, hafter, h⟩ := drifted_run b hlt
  have hsum := Bucket.taken_add_left 0 (writebacks b turns)
  refine ⟨s, hafter, h.queued, ?_, ?_, h.nrReqs, h.perm⟩
  · rw [h.credits]
    exact Bucket.isGreatest_left _
  · rw [h.behind, h.credits]
    omega

/-- Two iterations of one pair: the writeback of the first is taken by its look, and the second sees
the completions of the first. -/
theorem drift_two_turns :
    let turns : List Turn :=
      [⟨fun _ => .prompt fun _ => 0, fun _ => 1⟩, ⟨fun _ => .prompt fun _ => 0, fun _ => 0⟩]
    ∃ s, (test true 1).after (some started) turns = some s ∧ s.ring.queued = [] ∧
      IsGreatest {k | ∃ bs, bs <:+ writebacks 1 turns ∧ bs.sum = k + bs.length}
        s.successfulWritebackCount.toNat ∧
      s.ring.outstanding.length + 2 * s.successfulWritebackCount.toNat =
        2 * (writebacks 1 turns).sum ∧
      s.nrReqs = BitVec.ofNat 64 (turns.length * (1 : BitVec 64).toNat) ∧
      (submitted 1 turns.length).Perm
        (seen ((test true 1).trace (some started) turns) ++ s.ring.outstanding) :=
  drift 1 _ (by decide)

end ClickhouseUring.FsyncPoc
