import ClickhouseUring.Kit.HashMap
import ClickhouseUring.Kit.Run

/-!
# The probes of `IO_syscall_patch/user.bpf.c`

`readS` decides whether the read that follows is to be batched and leaves its decision in the
variable `overridden`.  An accepted `preadRaw` describes the read in a record for the consumer in
user space and adds its size to the total of the process; `batchSubmit` reports that total and
asks the consumer to submit.

The variables and `fd_info_map` are one per machine.  A probe emits what it writes to the memory
of the process that runs it and what it puts on the two ring buffers.  The outcome of the
comparison `self_type == target_type` is a parameter of `readS`.
-/

namespace ClickhouseUring.User

/-- `struct pread_prepare_info`. -/
structure PreadPrepareInfo where
  pid : BitVec 32
  fd : BitVec 32
  dest : BitVec 64
  size : BitVec 64
  iIno : BitVec 64
  offset : BitVec 64
  seqNum : BitVec 32
  dependsOn : BitVec 32
  res : BitVec 32
deriving DecidableEq, Repr

/-- `struct fd_info`. -/
structure FdInfo where
  totalBytesToRead : BitVec 64
  batchedPreads : BitVec 64
  fd : BitVec 32
deriving DecidableEq, Repr

/-- The variables and the hash map of the program. -/
structure Globals where
  overridden : Bool
  globalSeq : BitVec 32
  fdInfoMap : HashMap (BitVec 32) FdInfo 1000

/-- What a probe emits. -/
inductive Output
  /-- `bpf_probe_write_user` of a `bool`. -/
  | writeFlag (addr : BitVec 64) (val : Bool)
  /-- `bpf_probe_write_user` of a `size_t`. -/
  | writeSize (addr val : BitVec 64)
  /-- A record for `pread_prepare_ringbuf`. -/
  | prepare (info : PreadPrepareInfo)
  /-- A record for `pread_submit_batch_ringbuf`. -/
  | submit (pid : BitVec 32)
deriving DecidableEq, Repr

/-! ## The functions of the source -/

/-- `handle_batched_ops`. -/
def handleBatchedOps (pid : BitVec 32) : List Output := [.submit pid]

/-- `readS`. -/
def readS (g : Globals) (isTarget : Bool) (_n _toBuf isOverridden : BitVec 64) :
    Globals × List Output :=
  if isTarget then ({ g with overridden := true }, [.writeFlag isOverridden true])
  else ({ g with overridden := false }, [.writeFlag isOverridden false])

/-- `preadRaw`. -/
def preadRaw (g : Globals) (pid fd : BitVec 32) (offset _res bpfOverride toRead : BitVec 64) :
    Globals × List Output :=
  if g.overridden = false then (g, [])
  else
    let info : PreadPrepareInfo :=
      { pid, fd, dest := offset, size := toRead, iIno := -1, offset := 0, seqNum := g.globalSeq,
        dependsOn := 0, res := 0 }
    let fdInfoMap := match g.fdInfoMap.lookup pid with
      | some _ => g.fdInfoMap.modify pid fun i =>
          ⟨i.totalBytesToRead + toRead, i.batchedPreads + 1, fd⟩
      | none => g.fdInfoMap.update pid ⟨toRead, 1, fd⟩
    ({ g with globalSeq := g.globalSeq + 1, fdInfoMap },
      [.writeFlag bpfOverride g.overridden, .prepare info])

/-- `batchSubmit`. -/
def batchSubmit (g : Globals) (pid : BitVec 32) (bytesRead : BitVec 64) :
    Globals × List Output :=
  match g.fdInfoMap.lookup pid with
  | none => (g, [])
  | some fdInfo =>
    ({ g with overridden := false },
      if g.overridden then .writeSize bytesRead fdInfo.totalBytesToRead :: handleBatchedOps pid
      else [])

/-! ## The machine -/

/-- A probe event. -/
inductive Event
  | readS (isTarget : Bool) (n toBuf isOverridden : BitVec 64)
  | preadRaw (fd : BitVec 32) (offset res bpfOverride toRead : BitVec 64)
  | batchSubmit (bytesRead : BitVec 64)
deriving DecidableEq, Repr

/-- The probe that handles an event of process `pid`. -/
def hook (g : Globals) (pid : BitVec 32) : Event → Globals × List Output
  | .readS isTarget n toBuf isOverridden => readS g isTarget n toBuf isOverridden
  | .preadRaw fd offset res bpfOverride toRead => preadRaw g pid fd offset res bpfOverride toRead
  | .batchSubmit bytesRead => batchSubmit g pid bytesRead

/-- What happened at one event. -/
structure Report where
  pid : BitVec 32
  event : Event
  outputs : List Output
deriving DecidableEq, Repr

/-- The state before the first event. -/
def initial : Globals := ⟨false, 0, .empty⟩

/-- The probes, run by any number of processes. -/
def probes : Machine Globals (BitVec 32 × Event) Report where
  step g e := (hook g e.1 e.2).1
  out g e := [⟨e.1, e.2, (hook g e.1 e.2).2⟩]

/-! ## What a probe can do -/

/-- The record that an accepted `preadRaw` emits. -/
def recordOf (pid seq fd : BitVec 32) (offset toRead : BitVec 64) : PreadPrepareInfo :=
  ⟨pid, fd, offset, toRead, -1, 0, seq, 0, 0⟩

/-- The entry of a process after one more read. -/
def FdInfo.add (i : FdInfo) (fd : BitVec 32) (toRead : BitVec 64) : FdInfo :=
  ⟨i.totalBytesToRead + toRead, i.batchedPreads + 1, fd⟩

/-- The map after one more read of `pid`. -/
def Globals.count (g : Globals) (pid fd : BitVec 32) (toRead : BitVec 64) :
    HashMap (BitVec 32) FdInfo 1000 :=
  match g.fdInfoMap.lookup pid with
  | some _ => g.fdInfoMap.modify pid fun i => i.add fd toRead
  | none => g.fdInfoMap.update pid ⟨toRead, 1, fd⟩

/-- Everything a probe can do. -/
inductive Acts (g : Globals) (pid : BitVec 32) : Event → Globals → List Output → Prop
  | decides {isTarget n toBuf isOverridden} :
      Acts g pid (.readS isTarget n toBuf isOverridden) { g with overridden := isTarget }
        [.writeFlag isOverridden isTarget]
  /-- The read runs natively. -/
  | skip {fd offset res bpfOverride toRead} (h : g.overridden = false) :
      Acts g pid (.preadRaw fd offset res bpfOverride toRead) g []
  /-- The read is handed to the consumer. -/
  | accept {fd offset res bpfOverride toRead} (h : g.overridden = true) :
      Acts g pid (.preadRaw fd offset res bpfOverride toRead)
        { g with globalSeq := g.globalSeq + 1, fdInfoMap := g.count pid fd toRead }
        [.writeFlag bpfOverride true, .prepare (recordOf pid g.globalSeq fd offset toRead)]
  /-- No read of the process has been accepted yet. -/
  | unknown {bytesRead} (h : g.fdInfoMap.lookup pid = none) :
      Acts g pid (.batchSubmit bytesRead) g []
  /-- The process has reads, but the last decision was not to batch. -/
  | dismiss {bytesRead i} (h : g.fdInfoMap.lookup pid = some i) (ho : g.overridden = false) :
      Acts g pid (.batchSubmit bytesRead) { g with overridden := false } []
  | report {bytesRead i} (h : g.fdInfoMap.lookup pid = some i) (ho : g.overridden = true) :
      Acts g pid (.batchSubmit bytesRead) { g with overridden := false }
        [.writeSize bytesRead i.totalBytesToRead, .submit pid]

theorem hook_acts (g : Globals) (pid : BitVec 32) (e : Event) :
    Acts g pid e (hook g pid e).1 (hook g pid e).2 := by
  cases e with
  | readS isTarget n toBuf isOverridden =>
    cases isTarget
    · exact .decides
    · exact .decides
  | preadRaw fd offset res bpfOverride toRead =>
    obtain ⟨overridden, globalSeq, fdInfoMap⟩ := g
    cases overridden with
    | false => exact .skip rfl
    | true => exact .accept rfl
  | batchSubmit bytesRead =>
    unfold hook batchSubmit
    dsimp only
    cases h : g.fdInfoMap.lookup pid with
    | none => exact .unknown h
    | some i =>
      cases ho : g.overridden with
      | false => exact .dismiss h ho
      | true => exact .report h ho

/-! ## The totals -/

section Count

variable {g : Globals} {pid fd : BitVec 32} {toRead : BitVec 64}

theorem lookup_count_of_ne {q : BitVec 32} (h : q ≠ pid) :
    (g.count pid fd toRead).lookup q = g.fdInfoMap.lookup q := by
  unfold Globals.count
  split
  · exact HashMap.lookup_modify_of_ne _ h _
  · exact HashMap.lookup_update_of_ne _ h _

theorem lookup_count_some {i : FdInfo} (h : g.fdInfoMap.lookup pid = some i) :
    (g.count pid fd toRead).lookup pid = some (i.add fd toRead) := by
  unfold Globals.count
  rw [h, HashMap.lookup_modify_self, h]
  rfl

theorem lookup_count_none (h : g.fdInfoMap.lookup pid = none) (ha : g.fdInfoMap.Accepts pid) :
    (g.count pid fd toRead).lookup pid = some ⟨toRead, 1, fd⟩ := by
  unfold Globals.count
  rw [h]
  exact HashMap.lookup_update_self ha _

theorem keys_count_subset : (g.count pid fd toRead).keys ⊆ insert pid g.fdInfoMap.keys := by
  unfold Globals.count
  split
  · rw [HashMap.keys_modify]
    exact Finset.subset_insert _ _
  · exact HashMap.keys_update_subset _ _ _

theorem not_accepts_count {q : BitVec 32} (h : ¬ g.fdInfoMap.Accepts q) :
    ¬ (g.count pid fd toRead).Accepts q := by
  unfold Globals.count
  split
  · exact h
  · exact HashMap.not_accepts_update h _ _

end Count

end ClickhouseUring.User
