import ClickhouseUring.Kit.CInt
import ClickhouseUring.Kit.Queues
import ClickhouseUring.Kit.Run

/-!
# `benchmark_io_uring` of `iouring_hotpatch/vanilla_uring_read.c`

One turn of the machine is one iteration of the loop, which flushes a batch of 256 reads before it
queues the next one; then the turn that finds the end of the file, flushes what is left and prints.

The setup before the loop, the clock and `user_data`, which nothing reads, are left out.
-/

namespace ClickhouseUring.VanillaRead

open Uring

/-- `BUFFER_SIZE`. -/
def bufferSize : ℕ := 4096

/-- `QUEUE_DEPTH`. -/
def queueDepth : ℕ := 512

/-- `BATCH_SIZE`. -/
def batchSize : ℕ := 256

/-- A read as `io_uring_prep_read` prepares it. -/
structure Read where
  nbytes : ℕ
  offset : ℤ
deriving DecidableEq, Repr

/-- Where the function is. -/
inductive Phase
  | reading
  /-- It has printed its result. -/
  | finished
  /-- `handle_error` has ended the process. -/
  | exited
deriving DecidableEq, Repr

/-- The variables of the function and its ring. -/
structure Bench where
  phase : Phase
  fileOffset : ℤ
  batchCount : ℕ
  totalReads : ℤ
  ring : Queues Read
deriving DecidableEq

/-- What happens in a turn. -/
inductive Report
  /-- A read is prepared, and so many entries are queued. -/
  | prep (op : Read) (fill : ℕ)
  /-- `io_uring_submit_and_wait` with `batch_count`, the entries it submits, and the completions
  seen after it. -/
  | flush (batchCount : ℕ) (queued : List Read) (seen : List (Cqe Read))
  | handleError (msg : String)
  | print (totalReads : ℤ)
deriving DecidableEq

/-- What the system does in a turn: how it serves the submission, and each `io_uring_wait_cqe`,
which fails without a service. -/
structure Turn where
  submit : Service Read
  wait : ℕ → Option (Service Read)

/-! ## The function -/

/-- The loop over the completions of a batch, with `n` to go from the `i`-th on: the completions
seen, the ring and the message of an error that ends it. -/
def reap (wait : ℕ → Option (Service Read)) : ℕ → ℕ → Queues Read →
    Option (List (Cqe Read) × Queues Read × Option String)
  | 0, _, r => some ([], r, none)
  | n + 1, i, r =>
    match wait i with
    | none => some ([], r, some "Error waiting for completion")
    | some k => do
      let (cqe, seen) ← k.waitCqe r
      if cqe.res < 0 then
        return ([], r, some "Read failed")
      else
        let (cqes, r, error) ← reap wait n (i + 1) seen
        return (cqe :: cqes, r, error)

/-- `handle_error`. -/
def Bench.handleError (b : Bench) (msg : String) : Bench × List Report :=
  ({ b with phase := .exited }, [.handleError msg])

/-- `io_uring_submit_and_wait` with `batch_count`, and the loop over the completions. -/
def flushBatch (b : Bench) (t : Turn) : Option (Bench × List Report) := do
  let ring ← t.submit.wait b.batchCount b.ring.submit
  let (seen, ring, error) ← reap t.wait b.batchCount 0 ring
  let flush := Report.flush b.batchCount b.ring.queued seen
  match error with
  | none => return ({ b with ring }, [flush])
  | some msg =>
    let (b, reports) := { b with ring := ring }.handleError msg
    return (b, flush :: reports)

/-- The flush at the top of the loop. -/
def flushFull (b : Bench) (t : Turn) : Option (Bench × List Report) :=
  if b.batchCount ≥ batchSize then
    (flushBatch b t).map fun (b, reports) =>
      (if b.phase = .exited then b else { b with batchCount := 0 }, reports)
  else some (b, [])

/-- The rest of an iteration: the read of the next chunk. -/
def queueRead (stSize : ℤ) (b : Bench) : Option (Bench × List Report) :=
  -- `io_uring_get_sqe`
  if b.ring.queued.length < queueDepth then do
    let bound ← CInt.add 64 b.fileOffset bufferSize
    let bytesToRead := if bound > stSize then (stSize - b.fileOffset).toNat else bufferSize
    let queued := b.ring.queued ++ [⟨bytesToRead, b.fileOffset⟩]
    let totalReads ← CInt.add 32 b.totalReads 1
    return ({ b with
        ring := { b.ring with queued }, fileOffset := CInt.wrap 64 (b.fileOffset + bytesToRead),
        batchCount := b.batchCount + 1, totalReads },
      [.prep ⟨bytesToRead, b.fileOffset⟩ queued.length])
  else some (b.handleError "Failed to get submission queue entry")

/-- An iteration of the loop. -/
def readChunk (stSize : ℤ) (b : Bench) (t : Turn) : Option (Bench × List Report) := do
  let (b, reports) ← flushFull b t
  if b.phase = .exited then
    return (b, reports)
  else
    let (b, reports') ← queueRead stSize b
    return (b, reports ++ reports')

/-- The flush after the loop. -/
def flushRest (b : Bench) (t : Turn) : Option (Bench × List Report) :=
  if b.batchCount > 0 then flushBatch b t else some (b, [])

/-- What comes after the loop. -/
def finish (b : Bench) (t : Turn) : Option (Bench × List Report) := do
  let (b, reports) ← flushRest b t
  if b.phase = .exited then
    return (b, reports)
  else
    return ({ b with phase := .finished }, reports ++ [.print b.totalReads])

/-! ## The machine -/

/-- A turn of the function on a file of `stSize` bytes. -/
def turn (stSize : ℤ) (b : Bench) (t : Turn) : Option (Bench × List Report) :=
  match b.phase with
  | .reading => if b.fileOffset < stSize then readChunk stSize b t else finish b t
  | .finished => some (b, [])
  | .exited => some (b, [])

/-- The function, turn after turn. -/
def benchmark (stSize : ℤ) : Machine (Option Bench) Turn Report := .ofPartial (turn stSize)

/-- The function before its loop, with an empty ring. -/
def started : Bench := ⟨.reading, 0, 0, 0, .empty⟩

end ClickhouseUring.VanillaRead
