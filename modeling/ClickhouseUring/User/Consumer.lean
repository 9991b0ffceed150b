import ClickhouseUring.Kit.Ring
import ClickhouseUring.User.Probes

/-!
# The consumer `IO_syscall_patch/user.c`

`main` polls the two ring buffers in turn.  A prepare record becomes an entry on the consumer's
io_uring ring, a submit record submits what is queued there and reaps `batch_count` completions.
`Pipe` is the probes and the consumer together; the two ring buffers are queues that lose nothing,
and a poll handles what its own ring holds.

Setting up the BPF object and attaching the probes is left out, and so are the messages on
`stderr`.
-/

namespace ClickhouseUring.User

open Uring

/-- A read as `io_uring_prep_read` prepares it, with a length of 32 bits. -/
structure Read where
  fd : BitVec 32
  dest : BitVec 64
  nbytes : BitVec 32
  offset : BitVec 64
deriving DecidableEq, Repr

/-- `ring` and `batch_count`.  The count is a `size_t` and the index of the loop over it an `int`;
neither wraps before `2 ^ 31` entries have been prepared without a submission whose waits return, at
most 1024 for each, so the count is a natural number. -/
structure Consumer where
  ring : IoRing Read
  batchCount : ℕ
deriving DecidableEq

/-! ## The functions of the source -/

/-- The call of `io_uring_prep_read`. -/
def prepRead (info : PreadPrepareInfo) : Read :=
  ⟨info.fd, info.dest, info.size.setWidth 32, info.offset⟩

/-- `process_pread_prepare_info`.  `sqe` says whether `io_uring_get_sqe` returned an entry. -/
def processPreadPrepareInfo (c : Consumer) (info : PreadPrepareInfo) (sqe : Bool) : Consumer :=
  if sqe then ⟨c.ring.add ⟨prepRead info, true⟩, c.batchCount + 1⟩ else c

/-- The loop of `process_pread_submit_info` with `n` completions to go.  `wait i` is the outcome
of the `i`-th `io_uring_wait_cqe`: a completion with its `res`, or an error that ends the loop.
`none` stands for a wait that never returns. -/
def reap (wait : ℕ → Option Int) : ℕ → ℕ → IoRing Read → Option (IoRing Read × Bool)
  | 0, _, r => some (r, true)
  | n + 1, i, r =>
    match wait i with
    | none => some (r, false)
    | some _ => (r.exec .wait).bind (reap wait n (i + 1))

/-- `process_pread_submit_info`, with its return value. -/
def processPreadSubmitInfo (c : Consumer) (_pid : BitVec 32) (wait : ℕ → Option Int) :
    Option (Consumer × Int) :=
  if c.batchCount = 0 then some (c, 0)
  else ((c.ring.exec .submit).bind (reap wait c.batchCount 0)).map fun (ring, done) =>
    if done then (⟨ring, 0⟩, 0) else (⟨ring, c.batchCount⟩, 1)

/-! ## The two ring buffers -/

/-- The prepare records of a report. -/
def Report.prepares (r : Report) : List PreadPrepareInfo :=
  r.outputs.filterMap fun | .prepare info => some info | _ => none

/-- The submit records of a report. -/
def Report.submits (r : Report) : List (BitVec 32) :=
  r.outputs.filterMap fun | .submit pid => some pid | _ => none

/-- The prepare records of a run. -/
def preparesOf (tr : List Report) : List PreadPrepareInfo := tr.flatMap Report.prepares

/-- A submit record, with the number of prepare records emitted before it. -/
structure Submitted where
  pid : BitVec 32
  mark : ℕ
deriving DecidableEq, Repr

/-- The probes, the two ring buffers and the consumer.  `sent`, `made` and `window` only remember
what happened: every prepare record ever emitted, for each one handled whether it became an entry,
and the reports since the prepare ring was last drained. -/
structure Pipe where
  probes : Globals
  prepareRing : List PreadPrepareInfo
  submitRing : List Submitted
  consumer : Consumer
  /-- `main` is at its second `ring_buffer__poll`. -/
  inSubmit : Bool
  /-- A wait of the consumer never returned. -/
  stuck : Bool
  sent : List PreadPrepareInfo
  made : List Bool
  window : List Report

/-- The entries of `io_uring_queue_init`. -/
def queueEntries : ℕ := 1024

/-- `handle_pread_prepare` on every record in turn.  `io_uring_get_sqe` returns an entry as long
as one of the submission queue is free. -/
def drainPrepare (c : Consumer) : List PreadPrepareInfo → Consumer × List Bool
  | [] => (c, [])
  | info :: rest =>
    let sqe := decide (c.ring.queued.length < queueEntries)
    let r := drainPrepare (processPreadPrepareInfo c info sqe) rest
    (r.1, sqe :: r.2)

/-- `handle_pread_submit` on every record in turn, the `k`-th with the outcomes `wait k`; with
it the records whose handler starts. -/
def drainSubmit (wait : ℕ → ℕ → Option Int) (c : Consumer) :
    ℕ → List Submitted → Option Consumer × List Submitted
  | _, [] => (some c, [])
  | k, r :: rest =>
    match processPreadSubmitInfo c r.pid (wait k) with
    | none => (none, [r])
    | some (c', _) =>
      let d := drainSubmit wait c' (k + 1) rest
      (d.1, r :: d.2)

/-- A step of the system: a probe runs, or the `ring_buffer__poll` that `main` is in finds
records. -/
inductive Action
  | probe (pid : BitVec 32) (e : Event)
  | poll (wait : ℕ → ℕ → Option Int)

/-- What a probe adds to the rings. -/
def Pipe.emit (s : Pipe) (g : Globals) (r : Report) : Pipe :=
  { s with
    probes := g
    prepareRing := s.prepareRing ++ r.prepares
    submitRing := s.submitRing ++ r.submits.map (⟨·, s.sent.length⟩)
    sent := s.sent ++ r.prepares
    window := s.window ++ [r] }

/-- A poll of `pread_prepare_ringbuf`; on an empty ring it keeps waiting. -/
def Pipe.pollPrepare (s : Pipe) : Pipe :=
  if s.prepareRing = [] then s
  else
    let d := drainPrepare s.consumer s.prepareRing
    { s with prepareRing := [], consumer := d.1, inSubmit := true, made := s.made ++ d.2,
             window := [] }

/-- A poll of `pread_submit_batch_ringbuf`; on an empty ring it keeps waiting. -/
def Pipe.pollSubmit (s : Pipe) (wait : ℕ → ℕ → Option Int) : Pipe :=
  if s.submitRing = [] then s
  else
    match (drainSubmit wait s.consumer 0 s.submitRing).1 with
    | none => { s with stuck := true }
    | some c => { s with submitRing := [], consumer := c, inSubmit := false }

/-- The system. -/
def pipe : Machine Pipe Action Unit where
  step s
    | .probe pid e => s.emit (hook s.probes pid e).1 ⟨pid, e, (hook s.probes pid e).2⟩
    | .poll wait =>
      if s.stuck then s else if s.inSubmit then s.pollSubmit wait else s.pollPrepare
  out _ _ := []

/-- The state when `main` enters its loop. -/
def Pipe.initial : Pipe :=
  ⟨User.initial, [], [], ⟨.empty, 0⟩, false, false, [], [], []⟩

end ClickhouseUring.User
