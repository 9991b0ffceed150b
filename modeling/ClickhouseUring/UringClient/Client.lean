import ClickhouseUring.Kit.CInt
import ClickhouseUring.Kit.Queues
import ClickhouseUring.Kit.Run

/-!
# `main` of `iouring_hotpatch/uring_client.c`

One turn of the machine is one iteration of a loop: of the loop that queues the file in chunks, each
as a read and a send, and flushes every 256 entries; then the turn that finds the end of the file,
flushes what is left and opens `recv.txt`; then of the loop that receives the answer.

The setup before the first loop, `user_data`, which nothing reads, and messages other than errors
are left out.
-/

namespace ClickhouseUring.UringClient

open Uring

/-- `BUF_SIZE`. -/
def bufSize : ℕ := 4096

/-- `QUEUE_DEPTH`. -/
def queueDepth : ℕ := 512

/-- `BATCH_SIZE`. -/
def batchSize : ℕ := 256

/-- The operations that `main` prepares; they all use the one buffer. -/
inductive Op
  | read (nbytes : ℕ) (offset : ℤ)
  | send (nbytes : ℕ)
  | recv (nbytes : ℕ)
  | write (nbytes : ℕ) (offset : ℤ)
deriving DecidableEq, Repr

/-- Where `main` is. -/
inductive Phase
  | sending
  | receiving
  | finished
  /-- `main` has logged an error, cleaned up and returned -1. -/
  | failed
deriving DecidableEq, Repr

/-- The variables of `main` and its ring. -/
structure Client where
  phase : Phase
  fileOffset : ℤ
  batchCount : ℕ
  recvFileOffset : ℤ
  ring : Queues Op
deriving DecidableEq

/-- What happens in a turn. -/
inductive Report
  /-- An entry is prepared, and so many are queued. -/
  | prep (op : Op) (fill : ℕ)
  /-- `io_uring_get_sqe` returns NULL. -/
  | noSqe
  /-- `io_uring_submit_and_wait` with `batch_count`, and the entries it submits. -/
  | flush (batchCount : ℕ) (queued : List Op)
  | peek (cqe : Option (Cqe Op))
  /-- `io_uring_wait_cqe` for `op`, with the operations outstanding, and what it returns. -/
  | wait (op : Op) (outstanding : List Op) (cqe : Cqe Op)
  | logError (message : String)
deriving DecidableEq

/-- What the system does in a turn; without a service `io_uring_wait_cqe` fails. -/
structure Turn where
  flush : Service Op
  /-- `recv.txt` can be opened. -/
  opened : Bool
  recv : Option (Service Op)
  write : Option (Service Op)

/-! ## The send phase -/

def Client.fail (c : Client) (message : String) : Client × List Report :=
  ({ c with phase := .failed }, [.logError message])

/-- The body of the loops over the completions of a batch. -/
def peekReports (peekError resError : String) : Option (Cqe Op) → List Report
  | none => [.peek none, .logError peekError]
  | some cqe => .peek (some cqe) :: if cqe.res < 0 then [.logError resError] else []

/-- `io_uring_submit_and_wait` with `batch_count`, and the loop over the completions. -/
def flushBatch (c : Client) (k : Service Op) (peekError resError : String) :
    Option (Client × List Report) := do
  let ring ← k.wait c.batchCount c.ring.submit
  let (peeks, ring) := ring.reap c.batchCount
  let phase := if none ∈ peeks then .failed else c.phase
  return ({ c with ring, phase },
    .flush c.batchCount c.ring.queued :: peeks.flatMap (peekReports peekError resError))

/-- An iteration of the first loop of `main`, before the end of the file. -/
def sendChunk (stSize : ℤ) (c : Client) (k : Service Op) : Option (Client × List Report) := do
  let bound ← CInt.add 64 c.fileOffset bufSize
  let bytesToRead := if bound > stSize then (stSize - c.fileOffset).toNat else bufSize
  match c.ring.getSqe queueDepth (.read bytesToRead c.fileOffset) with
  | none =>
    let (c, reports) := c.fail "io_uring_get_sqe failed for read operation"
    return (c, .noSqe :: reports)
  | some ring =>
    let prep := Report.prep (.read bytesToRead c.fileOffset) ring.queued.length
    let c := { c with
      ring, batchCount := c.batchCount + 1,
      fileOffset := CInt.wrap 64 (c.fileOffset + bytesToRead) }
    match c.ring.getSqe queueDepth (.send bytesToRead) with
    | none =>
      let (c, reports) := c.fail "io_uring_get_sqe failed for send operation"
      return (c, prep :: .noSqe :: reports)
    | some ring =>
      let prep' := Report.prep (.send bytesToRead) ring.queued.length
      let c := { c with ring, batchCount := c.batchCount + 1 }
      if c.batchCount ≥ batchSize then
        let (c, reports) ← flushBatch c k "Error peeking for cqe during send operation" "Send error"
        return ({ c with batchCount := 0 }, prep :: prep' :: reports)
      else
        return (c, [prep, prep'])

/-- The flush of what is left after the first loop of `main`. -/
def flushRest (c : Client) (k : Service Op) : Option (Client × List Report) :=
  if c.batchCount > 0 then
    flushBatch c k "Error peeking for cqe for remaining write operations" "Write error"
  else some (c, [])

/-- What `main` does between its two loops. -/
def finishSending (c : Client) (t : Turn) : Option (Client × List Report) := do
  let (c, reports) ← flushRest c t.flush
  if c.phase = .failed then
    return (c, reports)
  else if t.opened then
    return ({ c with phase := .receiving }, reports)
  else
    let (c, reports') := c.fail "Failed to open file recv.txt"
    return (c, reports ++ reports')

/-! ## The receive phase -/

/-- The second half of an iteration of the second loop of `main`: the write of what was
received. -/
def writeReceived (c : Client) (k : Option (Service Op)) (bytesReceived : ℕ) :
    Option (Client × List Report) := do
  let op := Op.write bytesReceived c.recvFileOffset
  match c.ring.getSqe queueDepth op with
  | none =>
    let (c, reports) := c.fail "io_uring_get_sqe failed for write operation"
    return (c, .noSqe :: reports)
  | some ring =>
    let prep := Report.prep op ring.queued.length
    let ring := ring.submit
    match k with
    | none =>
      let (c, reports) :=
        { c with ring := ring }.fail "Error waiting for cqe during write operation"
      return (c, prep :: reports)
    | some k =>
      let served ← k.wait 1 ring
      let (cqe, seen) ← served.next
      let reports := if cqe.res < 0 then [.logError "Write error"] else []
      return ({ c with
          ring := seen, recvFileOffset := CInt.wrap 64 (c.recvFileOffset + bytesReceived) },
        prep :: .wait op ring.outstanding cqe :: reports)

/-- An iteration of the second loop of `main`. -/
def receive (c : Client) (t : Turn) : Option (Client × List Report) := do
  match c.ring.getSqe queueDepth (.recv bufSize) with
  | none =>
    let (c, reports) := c.fail "io_uring_get_sqe failed for recv operation"
    return (c, .noSqe :: reports)
  | some ring =>
    let prep := Report.prep (.recv bufSize) ring.queued.length
    let ring := ring.submit
    match t.recv with
    | none =>
      let (c, reports) :=
        { c with ring := ring }.fail "Error waiting for cqe during recv operation"
      return (c, prep :: reports)
    | some k =>
      let served ← k.wait 1 ring
      let (cqe, seen) ← served.next
      let wait := Report.wait (.recv bufSize) ring.outstanding cqe
      if cqe.res ≤ 0 then
        let reports := if cqe.res < 0 then [.logError "Receive error"] else []
        return ({ c with ring := seen, phase := .finished }, prep :: wait :: reports)
      else
        let (c, reports) ← writeReceived { c with ring := seen } t.write cqe.res.toNat
        return (c, prep :: wait :: reports)

/-! ## The machine -/

/-- A turn of `main` on a file of `stSize` bytes. -/
def turn (stSize : ℤ) (c : Client) (t : Turn) : Option (Client × List Report) :=
  match c.phase with
  | .sending => if c.fileOffset ≥ stSize then finishSending c t else sendChunk stSize c t.flush
  | .receiving => receive c t
  | .finished => some (c, [])
  | .failed => some (c, [])

/-- `main`, turn after turn. -/
def client (stSize : ℤ) : Machine (Option Client) Turn Report where
  step s t := (s.bind fun c => turn stSize c t).map Prod.fst
  out s t := ((s.bind fun c => turn stSize c t).map Prod.snd).getD []

/-- `main` before its first loop, with an empty ring. -/
def started : Client := ⟨.sending, 0, 0, 0, .empty⟩

end ClickhouseUring.UringClient
