import ClickhouseUring.Kit.Queues
import ClickhouseUring.Kit.Run
import Mathlib.Algebra.Order.Ring.Nat

/-!
# `iouring_hotpatch/read_uring.c`

The loop of `test_io_uring` flushes its reads once 256 are queued, on a ring with 32 submission
entries.  The 33rd `io_uring_get_sqe` fails and ends the loop, in this call and in all calls after
it; nothing is ever submitted (`nothing_submitted`).
-/

namespace ClickhouseUring.ReadUring

open Uring

/-- `BATCH_SIZE`. -/
def batchSize : ℕ := 256

/-- The submission entries that `main` asks for. -/
def queueDepth : ℕ := 32

/-- `sizeof(buffer)`. -/
def bufferSize : ℕ := 4

/-- A read as `io_uring_prep_read` prepares it. -/
structure Read where
  fd : ℤ
  nbytes : ℕ
  offset : ℕ
deriving DecidableEq, Repr

inductive Report
  | failedToOpen
  | prep (op : Read)
  /-- "Could not get submission queue entry". -/
  | noSqe
  /-- "Number of read calls in 0.4 seconds". -/
  | print (count : ℕ)
deriving DecidableEq, Repr

/-- The loop, where the clock allows for so many iterations; `count` does not change.  In the flush
`&ring` is the address of a pointer to the ring, so there is no defined result. -/
def loop (fd : ℤ) (count : ℕ) : ℕ → ℕ → Queues Read → Option (Queues Read × List Report)
  | 0, _, ring => some (ring, [])
  | turns + 1, batchCount, ring =>
    match ring.getSqe queueDepth ⟨fd, bufferSize, bufferSize * count⟩ with
    | none => some (ring, [.noSqe])
    | some ring =>
      if batchSize ≤ batchCount + 1 then none
      else (loop fd count turns (batchCount + 1) ring).map fun (ring, reports) =>
        (ring, .prep ⟨fd, bufferSize, bufferSize * count⟩ :: reports)

/-- What `open` returns, and for how many iterations the clock stays within the limit. -/
structure Call where
  fd : ℤ
  turns : ℕ
deriving DecidableEq, Repr

/-- `test_io_uring`. -/
def testIoUring (ring : Queues Read) (c : Call) : Option (Queues Read × List Report) :=
  if c.fd < 0 then some (ring, [.failedToOpen])
  else (loop c.fd 0 c.turns 0 ring).map fun (ring, reports) => (ring, reports ++ [.print 0])

/-- The loop of `main`. -/
def main : Machine (Option (Queues Read)) Call Report := .ofPartial testIoUring

/-! ## One call -/

/-- The iterations of a call whose file opens. -/
def Call.iterations (c : Call) : ℕ := if c.fd < 0 then 0 else c.turns

/-- The reads prepared. -/
def prepared (tr : List Report) : List Read :=
  tr.filterMap fun
    | .prep op => some op
    | _ => none

/-- The counts printed. -/
def printed (tr : List Report) : List ℕ :=
  tr.filterMap fun
    | .print count => some count
    | _ => none

theorem prepared_append (tr tr' : List Report) :
    prepared (tr ++ tr') = prepared tr ++ prepared tr' := List.filterMap_append

theorem printed_append (tr tr' : List Report) :
    printed (tr ++ tr') = printed tr ++ printed tr' := List.filterMap_append

/-- The loop fills the ring up, and ends with a failure when it could have gone on. -/
theorem loop_eq (fd : ℤ) (turns batchCount : ℕ) (q : List Read) (hq : q.length ≤ queueDepth)
    (hbatch : batchCount ≤ q.length) :
    let free := queueDepth - q.length
    let ops := List.replicate (min turns free) (⟨fd, bufferSize, 0⟩ : Read)
    loop fd 0 turns batchCount ⟨q, [], []⟩ =
      some (⟨q ++ ops, [], []⟩, ops.map .prep ++ if turns ≤ free then [] else [.noSqe]) := by
  unfold queueDepth at hq ⊢
  induction turns generalizing batchCount q with
  | zero => simp [loop]
  | succ turns ih =>
    unfold loop
    by_cases hfull : q.length < 32
    · have hsqe : (Queues.mk q [] []).getSqe queueDepth ⟨fd, bufferSize, bufferSize * 0⟩ =
          some ⟨q ++ [⟨fd, bufferSize, 0⟩], [], []⟩ := if_pos hfull
      have hlen : (q ++ [(⟨fd, bufferSize, 0⟩ : Read)]).length = q.length + 1 := by
        rw [List.length_append, List.length_singleton]
      have hroom : ¬ batchSize ≤ batchCount + 1 := by
        unfold batchSize
        omega
      have hmin : min (turns + 1) (32 - q.length) = min turns (32 - (q.length + 1)) + 1 := by
        omega
      have hle : turns + 1 ≤ 32 - q.length ↔ turns ≤ 32 - (q.length + 1) := by omega
      have hih := ih (batchCount + 1) (q ++ [⟨fd, bufferSize, 0⟩]) (by omega) (by omega)
      dsimp only at hih ⊢
      rw [hsqe]
      dsimp only
      rw [if_neg hroom, hih, hlen, hmin, List.replicate_succ]
      simp [hle]
    · have hsqe : (Queues.mk q [] []).getSqe queueDepth ⟨fd, bufferSize, bufferSize * 0⟩ = none :=
        if_neg hfull
      have hfree : 32 - q.length = 0 := by omega
      dsimp only
      rw [hsqe, hfree]
      simp

/-- What a call leaves on the ring and reports. -/
theorem testIoUring_eq (q : List Read) (hq : q.length ≤ queueDepth) (c : Call) :
    ∃ ops reports, testIoUring ⟨q, [], []⟩ c = some (⟨q ++ ops, [], []⟩, reports) ∧
      ops.length = min c.iterations (queueDepth - q.length) ∧
      (∀ op ∈ ops, op = ⟨c.fd, bufferSize, 0⟩) ∧ prepared reports = ops ∧
      printed reports = if c.fd < 0 then [] else [0] := by
  unfold testIoUring Call.iterations
  split_ifs with hfd
  · exact ⟨[], [.failedToOpen], by rw [List.append_nil], by simp, by simp, rfl, rfl⟩
  · rw [loop_eq c.fd c.turns 0 q hq (Nat.zero_le _), Option.map_some]
    refine ⟨_, _, rfl, List.length_replicate, fun op hop => List.eq_of_mem_replicate hop, ?_, ?_⟩
    · split_ifs <;> simp [prepared]
    · split_ifs <;> simp [printed]

/-! ## All calls -/

/-- The ring after the calls `cs`, which reported `tr`. -/
structure Starved (cs : List Call) (tr : List Report) (ring : Queues Read) : Prop where
  /-- Every read that was ever prepared waits in the submission queue. -/
  ring_eq : ring = ⟨prepared tr, [], []⟩
  length_eq : (prepared tr).length = min queueDepth (cs.map Call.iterations).sum
  /-- All of them are reads of the first four bytes. -/
  reads : ∀ op ∈ prepared tr, op.nbytes = 4 ∧ op.offset = 0
  /-- Every call whose file opens prints a count, which is 0. -/
  printed_eq : printed tr = (cs.filter fun c => ¬ c.fd < 0).map fun _ => 0

/-- **Nothing is submitted.** Whatever the clock and `open` do, in any number of calls: 32 reads are
prepared at most, none of them is handed to the kernel, and the flush, whose first argument is of
the wrong type, is never reached. -/
theorem nothing_submitted (cs : List Call) :
    ∃ ring, main.after (some .empty) cs = some ring ∧
      Starved cs (main.trace (some .empty) cs) ring := by
  induction cs using List.reverseRecOn with
  | nil => exact ⟨.empty, rfl, rfl, rfl, List.forall_mem_nil _, rfl⟩
  | append_singleton cs c ih =>
    obtain ⟨ring, hafter, rfl, hlength, hreads, hprinted⟩ := ih
    have hq : (prepared (main.trace (some .empty) cs)).length ≤ queueDepth := by omega
    obtain ⟨ops, reports, hcall, hops, hop, hprepared, hprint⟩ := testIoUring_eq _ hq c
    obtain ⟨hstep, hout⟩ := Machine.ofPartial_of_some hcall
    refine ⟨⟨prepared (main.trace (some .empty) cs) ++ ops, [], []⟩, ?_, ?_⟩
    · rw [Machine.after_concat, hafter]
      exact hstep
    · have htrace : main.trace (some .empty) (cs ++ [c]) =
          main.trace (some .empty) cs ++ reports := by
        rw [Machine.trace_concat, hafter]
        exact congrArg _ hout
      rw [htrace]
      refine ⟨by rw [prepared_append, hprepared], ?_, ?_, ?_⟩
      · rw [prepared_append, hprepared, List.length_append, hops, hlength, List.map_append,
          List.sum_append, List.map_singleton, List.sum_singleton]
        omega
      · rw [prepared_append, hprepared]
        intro op hmem
        rcases List.mem_append.mp hmem with hmem | hmem
        · exact hreads op hmem
        · rw [hop op hmem]
          exact ⟨rfl, rfl⟩
      · rw [printed_append, hprinted, hprint, List.filter_append, List.map_append]
        split_ifs with hfd
        · rw [List.filter_cons_of_neg (by simpa using hfd), List.filter_nil, List.map_nil]
        · rw [List.filter_cons_of_pos (by simpa using hfd), List.filter_nil, List.map_singleton]

end ClickhouseUring.ReadUring
