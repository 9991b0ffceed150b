import ClickhouseUring.Kit.CInt
import ClickhouseUring.Kit.Queues
import ClickhouseUring.Kit.Run

/-!
# `main` of `iouring_hotpatch/uring_client copy.c`

Here each iteration of the first loop submits a read and waits for a completion, takes its result
for the length of what was read, and queues the send; each iteration of the second loop does the
same with a receive and a write.  The sends and the writes go out with the next submission, and are
reaped in batches of 512.

One turn of the machine is one iteration of a loop, or what follows a loop.  The setup before the
first loop, the contents of the buffer, `user_data`, which nothing reads, and messages other than
errors are left out.
-/

namespace ClickhouseUring.UringCopy

open Uring

/-- `BUF_SIZE`. -/
def bufSize : ℕ := 4

/-- `QUEUE_DEPTH`. -/
def queueDepth : ℕ := 4096

/-- `BATCH_SIZE`. -/
def batchSize : ℕ := 512

/-- What `main` prepares. -/
inductive Request
  | read (nbytes : ℕ) (offset : ℤ)
  | send (nbytes : ℕ)
  | recv (nbytes : ℕ)
  | write (nbytes : ℕ) (offset : ℤ)
deriving DecidableEq, Repr

/-- A submission queue entry, and the iteration of its loop that prepared it. -/
structure Op where
  request : Request
  iteration : ℕ
deriving DecidableEq, Repr

/-- Where `main` is. -/
inductive Phase
  | sending
  /-- A read has ended the first loop. -/
  | sent
  | receiving
  /-- A receive has ended the second loop. -/
  | received
  | finished
  /-- `main` has logged an error, cleaned up and returned -1. -/
  | failed
deriving DecidableEq, Repr

/-- The variables of `main` and its ring. -/
structure Client where
  phase : Phase
  fileOffset : ℤ
  recvFileOffset : ℤ
  batchCount : ℕ
  iteration : ℕ
  ring : Queues Op
deriving DecidableEq

/-- What happens in a turn. -/
inductive Report
  /-- The completion that is taken for that of `op`. -/
  | taken (op : Op) (cqe : Cqe Op)
  | logError (message : String)
deriving DecidableEq

/-- What becomes of `io_uring_submit` and the `io_uring_wait_cqe` after it. -/
inductive Served
  | submitFails
  | waitFails
  | served (k : Service Op)

/-- What the system does in a turn. -/
structure Turn where
  serve : Served
  flush : Service Op
  /-- `recv.txt` can be opened. -/
  opened : Bool

/-! ## The parts of the loops -/

def Client.fail (c : Client) (message : String) : Client × List Report :=
  ({ c with phase := .failed }, [.logError message])

/-- Prepare and submit a read or a receive and wait; the completion, unless there was an error. -/
def submitOp (c : Client) (op : Op) (name : String) (s : Served) :
    Option ((Client × List Report) × Option (Cqe Op)) :=
  match c.ring.getSqe queueDepth op with
  | none => some (c.fail s!"io_uring_get_sqe failed for {name} operation", none)
  | some ring =>
    match s with
    | .submitFails =>
      some ({ c with ring }.fail s!"io_uring_submit failed for {name} operation", none)
    | .waitFails =>
      let c := { c with ring := ring.submit }
      some (c.fail s!"Error waiting for cqe for {name} operation", none)
    | .served k => do
      let (cqe, ring) ← k.waitCqe ring.submit
      return (({ c with ring }, [.taken op cqe]), some cqe)

/-- `io_uring_submit_and_wait` with `batch_count`, and the loop over the completions. -/
def flushBatch (c : Client) (k : Service Op) (peekError resError : String) :
    Option (Client × List Report) := do
  let ring ← k.wait c.batchCount c.ring.submit
  let (peeks, ring) := ring.reap c.batchCount
  let phase := if none ∈ peeks then .failed else c.phase
  return ({ c with ring, phase }, peeks.flatMap fun
    | none => [.logError peekError]
    | some cqe => if cqe.res < 0 then [.logError resError] else [])

/-- Prepare a send or a write, and flush a full batch; the end of an iteration. -/
def queueOp (c : Client) (request : Request) (name resError : String) (k : Service Op) :
    Option (Client × List Report) :=
  match c.ring.getSqe queueDepth ⟨request, c.iteration⟩ with
  | none => some (c.fail s!"io_uring_get_sqe failed for {name} operation")
  | some ring =>
    let c := { c with ring, batchCount := c.batchCount + 1, iteration := c.iteration + 1 }
    if c.batchCount ≥ batchSize then
      (flushBatch c k s!"Error peeking for cqe during {name} operation" resError).map
        fun (c, reports) => ({ c with batchCount := 0 }, reports)
    else some (c, [])

/-- The flush after a loop. -/
def flushRest (c : Client) (name resError : String) (k : Service Op) :
    Option (Client × List Report) :=
  if c.batchCount > 0 then
    flushBatch c k s!"Error peeking for cqe for remaining {name} operations" resError
  else some (c, [])

/-! ## The function -/

/-- An iteration of the first loop, before the end of the file. -/
def sendChunk (stSize : ℤ) (c : Client) (t : Turn) : Option (Client × List Report) := do
  let bound ← CInt.add 64 c.fileOffset bufSize
  let bytesToRead := if bound > stSize then (stSize - c.fileOffset).toNat else bufSize
  let op : Op := ⟨.read bytesToRead c.fileOffset, c.iteration⟩
  let ((c, reports), cqe) ← submitOp c op "read" t.serve
  match cqe with
  | none => return (c, reports)
  | some cqe =>
    if cqe.res ≤ 0 then
      let errors := if cqe.res < 0 then [.logError "Read error"] else []
      return ({ c with phase := .sent }, reports ++ errors)
    else
      let fileOffset ← CInt.add 64 c.fileOffset cqe.res
      let (c, reports') ←
        queueOp { c with fileOffset } (.send cqe.res.toNat) "send" "Send error" t.flush
      return (c, reports ++ reports')

/-- What `main` does between its two loops. -/
def finishSending (c : Client) (t : Turn) : Option (Client × List Report) := do
  let (c, reports) ← flushRest c "send" "Send error" t.flush
  if c.phase = .failed then
    return (c, reports)
  else if t.opened then
    return ({ c with phase := .receiving, batchCount := 0, iteration := 0 }, reports)
  else
    let (c, reports') := c.fail "Failed to open file recv.txt"
    return (c, reports ++ reports')

/-- An iteration of the second loop. -/
def receive (c : Client) (t : Turn) : Option (Client × List Report) := do
  let ((c, reports), cqe) ← submitOp c ⟨.recv bufSize, c.iteration⟩ "recv" t.serve
  match cqe with
  | none => return (c, reports)
  | some cqe =>
    if cqe.res ≤ 0 then
      let errors := if cqe.res < 0 then [.logError "Receive error"] else []
      return ({ c with phase := .received }, reports ++ errors)
    else
      let offset := c.recvFileOffset
      -- the sum comes after `io_uring_get_sqe`, which does not depend on it
      let recvFileOffset ← CInt.add 64 offset cqe.res
      let (c, reports') ← queueOp { c with recvFileOffset } (.write cqe.res.toNat offset) "write"
        "Write error" t.flush
      return (c, reports ++ reports')

/-- What `main` does after its second loop. -/
def finishReceiving (c : Client) (t : Turn) : Option (Client × List Report) := do
  let (c, reports) ← flushRest c "write" "Write error" t.flush
  if c.phase = .failed then
    return (c, reports)
  else
    return ({ c with phase := .finished }, reports)

/-! ## The machine -/

/-- A turn of `main` on a file of `stSize` bytes. -/
def turn (stSize : ℤ) (c : Client) (t : Turn) : Option (Client × List Report) :=
  match c.phase with
  | .sending => if c.fileOffset ≥ stSize then finishSending c t else sendChunk stSize c t
  | .sent => finishSending c t
  | .receiving => receive c t
  | .received => finishReceiving c t
  | .finished => some (c, [])
  | .failed => some (c, [])

/-- `main`, turn after turn. -/
def copy (stSize : ℤ) : Machine (Option Client) Turn Report := .ofPartial (turn stSize)

/-- `main` before its first loop, with an empty ring. -/
def started : Client := ⟨.sending, 0, 0, 0, 0, .empty⟩

end ClickhouseUring.UringCopy
