import ClickhouseUring.Kit.Handles
import ClickhouseUring.UringClient.Client

/-!
# The exits of `main` in `iouring_hotpatch/uring_client.c`

Here `main` goes from one operation that it checks to the next, and each of them may fail at any
time.  What is followed is which handles `main` acquires and releases: the descriptors in `sock`,
`file_fd` and `recv_fd`, and the ring, whose number is 0.

What `main` does with its ring in between is in `Client`.  Operations whose results are not looked
at, the buffer and the messages are left out.
-/

namespace ClickhouseUring.UringClient

/-- The variables that hold a handle. -/
inductive Var
  | sock
  | fileFd
  | recvFd
  | ring
deriving DecidableEq, Repr

/-- The operation that `main` is at. -/
inductive Point
  | posixMemalign
  | openFile
  | socket
  | inetPton
  | connect
  | queueInit
  | fstat
  | readSqe
  | sendSqe
  /-- The `i`-th `io_uring_peek_cqe` of a flush in the first loop. -/
  | peek (i : ℕ)
  /-- The `i`-th `io_uring_peek_cqe` of the flush after it. -/
  | peekRest (i : ℕ)
  | openRecv
  | recvSqe
  | recvWait
  | writeSqe
  | writeWait
  | returned
deriving DecidableEq, Repr

/-- The variables of `main`. -/
structure Main where
  point : Point
  sock : ℤ
  fileFd : ℤ
  recvFd : ℤ
  stSize : ℤ
  fileOffset : ℤ
  batchCount : ℕ
deriving DecidableEq, Repr

/-- The outcome of an operation: its return value, 0 for a NULL of `io_uring_get_sqe`, and what it
stores, `st_size` for `fstat` and `res` for a completion. -/
structure Outcome where
  ret : ℤ
  value : ℤ
deriving DecidableEq, Repr

/-! ## The functions of the source -/

/-- `cleanup`. -/
def cleanup (sock fileFd recvFd : ℤ) : List (Use Var) :=
  (if sock > 0 then [.release .sock sock] else []) ++
    (if fileFd > 0 then [.release .fileFd fileFd] else []) ++
    (if recvFd > 0 then [.release .recvFd recvFd] else []) ++ [.release .ring 0]

/-- The exit after an error. -/
def Main.abort (m : Main) : Main × List (Use Var) :=
  ({ m with point := .returned }, cleanup m.sock m.fileFd m.recvFd)

/-- `main` goes on to the next operation. -/
def Main.goto (m : Main) (point : Point) : Main × List (Use Var) := ({ m with point }, [])

/-- What comes after the flush of the rest: `close(file_fd)`. -/
def Main.fileSent (m : Main) : Main × List (Use Var) :=
  ({ m with point := .openRecv }, [.release .fileFd m.fileFd])

/-- The head of the first loop, and what comes after it. -/
def Main.sendLoop (m : Main) : Main × List (Use Var) :=
  if m.fileOffset ≥ m.stSize then
    if m.batchCount > 0 then m.goto (.peekRest 0) else m.fileSent
  else m.goto .readSqe

/-- The end of the second loop. -/
def Main.done (m : Main) : Main × List (Use Var) :=
  ({ m with point := .returned },
    [.release .recvFd m.recvFd, .release .ring 0, .release .sock m.sock])

/-- `main` gets the outcome of the operation that it is at and goes on to the next one; what it
acquires and releases on the way. -/
def Main.exec (m : Main) (o : Outcome) : Option (Main × List (Use Var)) :=
  match m.point with
  | .posixMemalign => if o.ret ≠ 0 then some (m.goto .returned) else some (m.goto .openFile)
  | .openFile =>
    let m : Main := { m with fileFd := o.ret }
    if m.fileFd < 0 then some (m.goto .returned)
    else some ({ m with point := .socket }, [.acquire .fileFd m.fileFd])
  | .socket =>
    let m : Main := { m with sock := o.ret }
    if m.sock < 0 then some m.abort
    else some ({ m with point := .inetPton }, [.acquire .sock m.sock])
  | .inetPton => if o.ret ≤ 0 then some m.abort else some (m.goto .connect)
  | .connect => if o.ret < 0 then some m.abort else some (m.goto .queueInit)
  | .queueInit =>
    if o.ret < 0 then some m.abort else some ({ m with point := .fstat }, [.acquire .ring 0])
  | .fstat => some { m with stSize := o.value }.sendLoop
  | .readSqe => do
    let bound ← CInt.add 64 m.fileOffset bufSize
    let bytesToRead := if bound > m.stSize then (m.stSize - m.fileOffset).toNat else bufSize
    if o.ret = 0 then return m.abort
    return { m with
      batchCount := m.batchCount + 1,
      fileOffset := CInt.wrap 64 (m.fileOffset + bytesToRead) }.goto .sendSqe
  | .sendSqe =>
    if o.ret = 0 then some m.abort
    else
      let m : Main := { m with batchCount := m.batchCount + 1 }
      if m.batchCount ≥ batchSize then some (m.goto (.peek 0)) else some m.sendLoop
  | .peek i =>
    if o.ret < 0 then some m.abort
    else if i + 1 < m.batchCount then some (m.goto (.peek (i + 1)))
    else some { m with batchCount := 0 }.sendLoop
  | .peekRest i =>
    if o.ret < 0 then some m.abort
    else if i + 1 < m.batchCount then some (m.goto (.peekRest (i + 1)))
    else some m.fileSent
  | .openRecv =>
    let m : Main := { m with recvFd := o.ret }
    if m.recvFd < 0 then some m.abort
    else some ({ m with point := .recvSqe }, [.acquire .recvFd m.recvFd])
  | .recvSqe => if o.ret = 0 then some m.abort else some (m.goto .recvWait)
  | .recvWait =>
    if o.ret < 0 then some m.abort
    else if o.value ≤ 0 then some m.done
    else some (m.goto .writeSqe)
  | .writeSqe => if o.ret = 0 then some m.abort else some (m.goto .writeWait)
  | .writeWait => if o.ret < 0 then some m.abort else some (m.goto .recvSqe)
  | .returned => some (m, [])

/-! ## The machine -/

/-- `main`, from operation to operation; an overflow of `file_offset` leaves the run undefined. -/
def main : Machine (Option Main) Outcome (Use Var) := .ofPartial Main.exec

/-- `main` at its first operation. -/
def Main.start : Main := ⟨.posixMemalign, 0, -1, -1, 0, 0, 0⟩

end ClickhouseUring.UringClient
