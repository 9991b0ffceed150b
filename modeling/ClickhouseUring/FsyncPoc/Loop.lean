import ClickhouseUring.Kit.Queues
import ClickhouseUring.Kit.Run

/-!
# The loop of `iouring_fsync_poc/iouring_fsync.c`

An iteration of `test` queues a write and an fsync for each of `batch_size` turns, submits them and
waits.  With `wait_kernel` a wait for such a pair is left out when
`successful_writeback_count`, which the probe `file_write_and_wait_range` increments, is positive.

`io_uring_submit` submits everything queued and the waits succeed.  When the loop ends is left
open; the file and the random data are left out.
-/

namespace ClickhouseUring.FsyncPoc

open Uring

/-- The entries of `io_uring_queue_init`. -/
def entries : ℕ := 1024

/-- What is prepared; `user_data` is 1 for a write and 2 for an fsync. -/
inductive Request
  | write (nbytes offset : ℕ)
  | fsync
deriving DecidableEq, Repr

/-- A submission queue entry; the iteration only tells where it comes from. -/
structure Entry where
  request : Request
  iteration : ℕ
deriving DecidableEq, Repr

/-- The entry of a write of the buffer of 256 bytes. -/
def Entry.write (it : ℕ) : Entry := ⟨.write 256 0, it⟩

/-- The entry of an fsync. -/
def Entry.fsync (it : ℕ) : Entry := ⟨.fsync, it⟩

/-- The variables of `test` and its ring, and `successful_writeback_count`. -/
structure Bench where
  ring : Queues Entry
  nrReqs : BitVec 64
  successfulWritebackCount : BitVec 32
  iteration : ℕ
deriving DecidableEq

/-- What the system does in an iteration: how it serves each wait, and how often the probe runs
before each look at the counter. -/
structure Turn where
  serve : ℕ → Service Entry
  writebacks : ℕ → ℕ

/-- What happens in an iteration. -/
structure Report where
  /-- The entries it submits. -/
  queued : List Entry
  errors : List String
  /-- The completions it sees. -/
  seen : List (Cqe Entry)
deriving DecidableEq

/-! ## The functions of the source -/

/-- `submit_io_uring_write`; it fails when `io_uring_get_sqe` does. -/
def submitIoUringWrite (it : ℕ) (r : Queues Entry) : Option (Queues Entry) :=
  r.getSqe entries (.write it)

/-- `submit_io_uring_fsync`. -/
def submitIoUringFsync (it : ℕ) (r : Queues Entry) : Option (Queues Entry) :=
  r.getSqe entries (.fsync it)

/-- The result of the loop that queues the entries. -/
structure Queued where
  ring : Queues Entry
  syncCount : ℕ
  errors : List String
deriving DecidableEq

/-- The loop that queues the entries, with so many turns to go; a failure ends it. -/
def queueEntries (it : ℕ) : ℕ → Queues Entry → Queued
  | 0, r => ⟨r, 0, []⟩
  | n + 1, r =>
    match submitIoUringWrite it r with
    | none => ⟨r, 0, ["get sqe failed", "submit_io_uring_write failed"]⟩
    | some r =>
      match submitIoUringFsync it r with
      | none => ⟨r, 0, ["get sqe failed", "submit_io_uring_fsync failed"]⟩
      | some r =>
        let q := queueEntries it n r
        { q with syncCount := q.syncCount + 1 }

/-- The waits with `wait_kernel`, from the `i`-th pair on: the completions seen, the ring and the
counter afterwards. -/
def waitKernel (t : Turn) : ℕ → ℕ → Queues Entry → BitVec 32 →
    Option (List (Cqe Entry) × Queues Entry × BitVec 32)
  | 0, _, r, count => some ([], r, count)
  | n + 1, i, r, count => do
    let count := count + BitVec.ofNat 32 (t.writebacks i)
    if count.toInt > 0 then
      waitKernel t n (i + 1) r (count - 1)
    else
      let (cqes, r) ← waitCqes t.serve 2 (2 * i) r
      let (cqes', r, count) ← waitKernel t n (i + 1) r count
      return (cqes ++ cqes', r, count)

/-- An iteration of the loop of `test`.  Without `wait_kernel` nothing looks at the counter. -/
def iterate (kernel : Bool) (batchSize : BitVec 64) (s : Bench) (t : Turn) :
    Option (Bench × Report) := do
  let q := queueEntries s.iteration batchSize.toNat s.ring
  let ring := q.ring.submit
  let (seen, ring, count) ←
    if kernel then waitKernel t q.syncCount 0 ring s.successfulWritebackCount
    else (waitCqes t.serve (q.syncCount * 2) 0 ring).map fun (seen, ring) =>
      (seen, ring, s.successfulWritebackCount)
  return (⟨ring, s.nrReqs + batchSize, count, s.iteration + 1⟩, ⟨q.ring.queued, q.errors, seen⟩)

/-! ## The machine -/

/-- `test`, iteration after iteration; a wait that never returns ends it. -/
def test (kernel : Bool) (batchSize : BitVec 64) : Machine (Option Bench) Turn Report :=
  .ofPartial fun s t => (iterate kernel batchSize s t).map fun p => (p.1, [p.2])

/-- `test` before its loop. -/
def started : Bench := ⟨.empty, 0, 0, 0⟩

/-! ## Queueing -/

/-- The entries of `n` turns. -/
def pairs (it n : ℕ) : List Entry := (List.replicate n [.write it, .fsync it]).flatten

@[simp] theorem pairs_zero (it : ℕ) : pairs it 0 = [] := rfl

theorem pairs_succ (it n : ℕ) : pairs it (n + 1) = .write it :: .fsync it :: pairs it n := rfl

@[simp] theorem length_pairs (it n : ℕ) : (pairs it n).length = 2 * n := by
  induction n with
  | zero => rfl
  | succ n ih => rw [pairs_succ, List.length_cons, List.length_cons, ih]; omega

theorem iteration_of_mem_pairs {it n : ℕ} {e : Entry} (h : e ∈ pairs it n) : e.iteration = it := by
  obtain ⟨l, hl, he⟩ := List.mem_flatten.mp h
  rw [List.eq_of_mem_replicate hl] at he
  rcases List.mem_cons.mp he with rfl | he
  · rfl
  · rw [List.mem_singleton.mp he]
    rfl

/-- What the loop that queues the entries does on a ring with room for so many pairs. -/
theorem queueEntries_eq (it n : ℕ) {room : ℕ} {q : List Entry} (running : List Entry)
    (posted : List (Cqe Entry)) (h : q.length + 2 * room = entries) :
    queueEntries it n ⟨q, running, posted⟩ =
      ⟨⟨q ++ pairs it (min n room), running, posted⟩, min n room,
        if n ≤ room then [] else ["get sqe failed", "submit_io_uring_write failed"]⟩ := by
  induction n generalizing room q with
  | zero => rw [queueEntries, Nat.zero_min, pairs_zero, List.append_nil, if_pos (Nat.zero_le _)]
  | succ n ih =>
    cases room with
    | zero =>
      -- the ring is full
      have hfull : submitIoUringWrite it ⟨q, running, posted⟩ = none := by
        apply if_neg
        dsimp only
        omega
      rw [queueEntries, hfull, Nat.min_zero, pairs_zero, List.append_nil, if_neg (by omega)]
    | succ room =>
      have hwrite : submitIoUringWrite it ⟨q, running, posted⟩ =
          some ⟨q ++ [.write it], running, posted⟩ := by
        apply Queues.getSqe_eq
        dsimp only
        omega
      have hfsync : submitIoUringFsync it ⟨q ++ [.write it], running, posted⟩ =
          some ⟨q ++ [.write it] ++ [.fsync it], running, posted⟩ := by
        apply Queues.getSqe_eq
        dsimp only
        rw [List.length_append, List.length_singleton]
        omega
      have hroom : (q ++ [Entry.write it] ++ [Entry.fsync it]).length + 2 * room = entries := by
        simp only [List.length_append, List.length_singleton]
        omega
      rw [queueEntries, hwrite]
      dsimp only
      rw [hfsync]
      dsimp only
      rw [ih hroom, Nat.add_min_add_right, pairs_succ, List.append_assoc, List.append_assoc]
      simp only [Nat.add_le_add_iff_right, List.cons_append, List.nil_append]

end ClickhouseUring.FsyncPoc
