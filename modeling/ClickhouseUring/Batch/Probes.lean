import ClickhouseUring.Kit.HashMap
import ClickhouseUring.Kit.Ring
import ClickhouseUring.Kit.Run

/-!
# The probes of `IO_syscall_patch/batch.bpf.c`

Here the probes drive the ring themselves.  `readS` stores the destination of the read that
follows in `pread_submit_map` under the pid; `preadRaw` completes the entry, hands the read to the
submit helper and stores a copy under the sequence number of the read; `batchSubmit` reports the
total of the process and flushes.

Both maps have keys of 32 bits.  `pread_submit_map` is used with pids and with sequence numbers,
`fd_info_map` with descriptors and with pids.  `readCount`, which only prints, is left out.
-/

namespace ClickhouseUring.Batch

open Uring

/-- `struct pread_submit_info`. -/
structure PreadSubmitInfo where
  pid : BitVec 32
  fd : BitVec 32
  dest : BitVec 64
  size : BitVec 64
  iIno : BitVec 64
  seqNum : BitVec 32
  dependsOn : BitVec 32
  res : BitVec 32
deriving DecidableEq, Repr

/-- `struct fd_info`. -/
structure FdInfo where
  totalBytesToRead : BitVec 64
  batchedPreads : BitVec 64
  fd : BitVec 32
deriving DecidableEq, Repr

/-- The variables and the maps of the program. -/
structure Globals where
  global : Bool
  globalSeq : BitVec 32
  preadSubmitMap : HashMap (BitVec 32) PreadSubmitInfo 10000
  fdInfoMap : HashMap (BitVec 32) FdInfo 1000

/-- The arguments of `io_uring_submit_pread`. -/
structure Pread where
  fd : BitVec 32
  dest : BitVec 64
  size : BitVec 64
  offset : BitVec 64
deriving DecidableEq, Repr

/-- What a probe emits: what it writes to the memory of its process, and its helper calls. -/
inductive Output
  | writeFlag (addr : BitVec 64) (val : Bool)
  | writeSize (addr val : BitVec 64)
  | helper (c : Cmd Pread)
deriving DecidableEq, Repr

/-! ## The functions of the source -/

/-- `BATCH_SIZE`. -/
def batchSize : ℕ := 1024

/-- `handle_batched_ops`. -/
def handleBatchedOps : List Output :=
  .helper .submit :: List.replicate batchSize (.helper .wait)

/-- `add_pending_op` for the entry of `pid`, which the caller's pointer points to.  `ret` is what
`io_uring_submit_pread` returned: 0 exactly when it queued the read. -/
def addPendingOp (m : HashMap (BitVec 32) PreadSubmitInfo 10000) (pid : BitVec 32)
    (info : PreadSubmitInfo) (ret : BitVec 32) :
    HashMap (BitVec 32) PreadSubmitInfo 10000 × List Output :=
  let info' := { info with res := ret }
  ((m.modify pid fun _ => info').update info'.seqNum info',
    [.helper (.push ⟨info.fd, info.dest, info.size, 0⟩ (ret = 0))])

/-- `main_entry`. -/
def mainEntry (g : Globals) : Globals × List Output := ({ g with global := true }, [.helper .init])

/-- `readS`. -/
def readS (g : Globals) (pid : BitVec 32) (n toBuf isOverridden _bytesCopied : BitVec 64) :
    Globals × List Output :=
  ({ g with preadSubmitMap := g.preadSubmitMap.update pid ⟨pid, 0, toBuf, n, 0, 0, 0, 0⟩ },
    [.writeFlag isOverridden true])

/-- `preadRaw`. -/
def preadRaw (g : Globals) (pid fd : BitVec 32) (_offset _res bpfOverride toRead : BitVec 64)
    (ret : BitVec 32) : Globals × List Output :=
  match g.preadSubmitMap.lookup pid with
  | none => (g, [.writeFlag bpfOverride true])
  | some info =>
    let info := { info with
      fd := fd, size := toRead, iIno := -1, seqNum := g.globalSeq, dependsOn := 0 }
    let r := addPendingOp (g.preadSubmitMap.modify pid fun _ => info) pid info ret
    let fdInfoMap := match g.fdInfoMap.lookup fd with
      | some _ => g.fdInfoMap.modify fd fun i =>
          { i with totalBytesToRead := i.totalBytesToRead + toRead,
                   batchedPreads := i.batchedPreads + 1 }
      | none => g.fdInfoMap.update pid ⟨toRead, 1, fd⟩
    ({ g with globalSeq := g.globalSeq + 1, preadSubmitMap := r.1, fdInfoMap },
      .writeFlag bpfOverride true :: r.2)

/-- `batchSubmit`. -/
def batchSubmit (g : Globals) (pid : BitVec 32) (bytesRead : BitVec 64) :
    Globals × List Output :=
  match g.fdInfoMap.lookup pid with
  | none => (g, [])
  | some fdInfo => (g, .writeSize bytesRead fdInfo.totalBytesToRead :: handleBatchedOps)

/-! ## The machine -/

/-- A probe event.  `ret` is the submit helper's result, should `preadRaw` call it. -/
inductive Event
  | mainEntry
  | readS (n toBuf isOverridden bytesCopied : BitVec 64)
  | preadRaw (fd : BitVec 32) (offset res bpfOverride toRead : BitVec 64) (ret : BitVec 32)
  | batchSubmit (bytesRead : BitVec 64)
deriving DecidableEq, Repr

/-- The probe that handles an event of process `pid`. -/
def hook (g : Globals) (pid : BitVec 32) : Event → Globals × List Output
  | .mainEntry => mainEntry g
  | .readS n toBuf isOverridden bytesCopied => readS g pid n toBuf isOverridden bytesCopied
  | .preadRaw fd offset res bpfOverride toRead ret =>
    preadRaw g pid fd offset res bpfOverride toRead ret
  | .batchSubmit bytesRead => batchSubmit g pid bytesRead

/-- What happened at one event. -/
structure Report where
  pid : BitVec 32
  event : Event
  outputs : List Output
deriving DecidableEq, Repr

/-- The state before the first event. -/
def initial : Globals := ⟨false, 0, .empty, .empty⟩

/-- The probes, run by any number of processes. -/
def probes : Machine Globals (BitVec 32 × Event) Report where
  step g e := (hook g e.1 e.2).1
  out g e := [⟨e.1, e.2, (hook g e.1 e.2).2⟩]

/-! ## What a probe can do -/

/-- The entry of a process as a `preadRaw` completes it. -/
def PreadSubmitInfo.complete (info : PreadSubmitInfo) (fd seq : BitVec 32) (toRead : BitVec 64)
    (ret : BitVec 32) : PreadSubmitInfo :=
  { info with fd := fd, size := toRead, iIno := -1, seqNum := seq, dependsOn := 0, res := ret }

/-- `fd_info_map` after a read of `pid` on `fd`. -/
def Globals.count (g : Globals) (pid fd : BitVec 32) (toRead : BitVec 64) :
    HashMap (BitVec 32) FdInfo 1000 :=
  match g.fdInfoMap.lookup fd with
  | some _ => g.fdInfoMap.modify fd fun i =>
      { i with totalBytesToRead := i.totalBytesToRead + toRead,
               batchedPreads := i.batchedPreads + 1 }
  | none => g.fdInfoMap.update pid ⟨toRead, 1, fd⟩

/-- `pread_submit_map` after a read of `pid` that completes its entry to `info`. -/
def Globals.submitted (g : Globals) (pid : BitVec 32) (info : PreadSubmitInfo) :
    HashMap (BitVec 32) PreadSubmitInfo 10000 :=
  (g.preadSubmitMap.modify pid fun _ => info).update info.seqNum info

/-- Everything a probe can do. -/
inductive Acts (g : Globals) (pid : BitVec 32) : Event → Globals → List Output → Prop
  | main : Acts g pid .mainEntry { g with global := true } [.helper .init]
  | readS {n toBuf isOverridden bytesCopied} :
      Acts g pid (.readS n toBuf isOverridden bytesCopied)
        { g with
          preadSubmitMap := g.preadSubmitMap.update pid ⟨pid, 0, toBuf, n, 0, 0, 0, 0⟩ }
        [.writeFlag isOverridden true]
  /-- No entry is stored under the pid. -/
  | unknown {fd offset res bpfOverride toRead ret} (h : g.preadSubmitMap.lookup pid = none) :
      Acts g pid (.preadRaw fd offset res bpfOverride toRead ret) g [.writeFlag bpfOverride true]
  | accept {fd offset res bpfOverride toRead ret info}
      (h : g.preadSubmitMap.lookup pid = some info) :
      Acts g pid (.preadRaw fd offset res bpfOverride toRead ret)
        { g with
          globalSeq := g.globalSeq + 1
          preadSubmitMap := g.submitted pid (info.complete fd g.globalSeq toRead ret)
          fdInfoMap := g.count pid fd toRead }
        [.writeFlag bpfOverride true, .helper (.push ⟨fd, info.dest, toRead, 0⟩ (ret = 0))]
  | silent {bytesRead} (h : g.fdInfoMap.lookup pid = none) :
      Acts g pid (.batchSubmit bytesRead) g []
  | report {bytesRead i} (h : g.fdInfoMap.lookup pid = some i) :
      Acts g pid (.batchSubmit bytesRead) g
        (.writeSize bytesRead i.totalBytesToRead :: handleBatchedOps)

theorem hook_acts (g : Globals) (pid : BitVec 32) (e : Event) :
    Acts g pid e (hook g pid e).1 (hook g pid e).2 := by
  cases e with
  | mainEntry => exact .main
  | readS n toBuf isOverridden bytesCopied => exact .readS
  | preadRaw fd offset res bpfOverride toRead ret =>
    unfold hook preadRaw addPendingOp
    dsimp only
    cases h : g.preadSubmitMap.lookup pid with
    | none => exact .unknown h
    | some info =>
      dsimp only
      rw [HashMap.modify_modify]
      exact .accept h
  | batchSubmit bytesRead =>
    unfold hook batchSubmit
    dsimp only
    cases h : g.fdInfoMap.lookup pid with
    | none => exact .silent h
    | some i => exact .report h

end ClickhouseUring.Batch
