import ClickhouseUring.Kit.HashMap
import ClickhouseUring.Kit.Run

/-!
# The hooks of `bpf/rocksdb.bpf.c`

The submit hook registers the inode behind a descriptor in `bpftime_inode_map`.  A writeback of a
registered inode adds a credit to `successful_writeback_count`, and the wait hook, which finds at
least as many credits as its queue has syncs, takes them and skips the wait.

The keys of the map have 32 bits, and the program passes pointers to 64-bit inode numbers; on a
little-endian machine the key is the low half.  `filename`, which is only printed, and `start_map`,
which nothing uses, are left out.
-/

namespace ClickhouseUring.Writeback

/-- `struct uring_check_data`. -/
structure UringCheckData where
  pid : BitVec 32
  fd : BitVec 32
  iIno : BitVec 32
deriving DecidableEq, Repr

/-- The variable and the map of the program. -/
structure Globals where
  successfulWritebackCount : BitVec 64
  inodeMap : HashMap (BitVec 32) UringCheckData 10000

/-- What the submit hook finds on its way from the descriptor to the inode. -/
inductive FileWalk
  /-- `fdt->fd` cannot be read. -/
  | unreadable
  | noFile
  | noInode
  | inode (iIno : BitVec 64)
deriving DecidableEq, Repr

/-- What a hook does besides updating the variable and the map. -/
inductive Action
  /-- `successful_writeback_count++`. -/
  | credit
  | overrideReturn (rc : BitVec 64)
deriving DecidableEq, Repr

/-! ## The functions of the source -/

/-- The four bytes that a map lookup or update reads from a pointer to an inode number. -/
def key (iIno : BitVec 64) : BitVec 32 := iIno.setWidth 32

/-- The guard of the wait hook: the credits do not cover the count. -/
def Globals.Short (g : Globals) (count : BitVec 8) : Prop :=
  g.successfulWritebackCount ≤ 0 ∨ g.successfulWritebackCount < count.setWidth 64

instance (g : Globals) (count : BitVec 8) : Decidable (g.Short count) :=
  inferInstanceAs (Decidable (_ ∨ _))

theorem toNat_count (count : BitVec 8) : (count.setWidth 64).toNat = count.toNat := by
  rw [BitVec.toNat_setWidth]
  have := count.isLt
  omega

/-- The guard, in numbers. -/
theorem short_iff (g : Globals) (count : BitVec 8) : g.Short count ↔
    g.successfulWritebackCount.toNat = 0 ∨ g.successfulWritebackCount.toNat < count.toNat := by
  unfold Globals.Short
  rw [BitVec.le_def, BitVec.lt_def, toNat_count]
  exact or_congr_left Nat.le_zero

/-- The hook on `wait_for_queue`; the argument is the `sync_count` that the pointer leads to. -/
def enterWaitForQueue (g : Globals) : Option (BitVec 8) → Globals × List Action
  | none => (g, [])
  | some count =>
    if g.Short count then (g, [])
    else
      ({ g with successfulWritebackCount := g.successfulWritebackCount - count.setWidth 64 },
        [.overrideReturn 0])

/-- `bpftime_hook_function_for_submit_fd`. -/
def hookFunctionForSubmitFd (g : Globals) (pid fd : BitVec 32) : FileWalk → Globals × List Action
  | .unreadable => (g, [])
  | .noFile => (g, [])
  | .noInode => (g, [])
  | .inode iIno =>
    ({ g with inodeMap := g.inodeMap.update (key iIno) ⟨pid, fd, iIno.setWidth 32⟩ }, [])

/-- `__writeback_single_inode`; the argument is the number of the inode, unless it is NULL. -/
def writebackSingleInode (g : Globals) : Option (BitVec 64) → Globals × List Action
  | none => (g, [])
  | some iIno =>
    match g.inodeMap.lookup (key iIno) with
    | none => (g, [])
    | some _ =>
      ({ g with successfulWritebackCount := g.successfulWritebackCount + 1 }, [.credit])

/-! ## The machine -/

/-- What happens to the program; the queue of a submit is not passed to its hook. -/
inductive Event
  | submit (queue : ℕ) (pid fd : BitVec 32) (file : FileWalk)
  | writeback (inode : Option (BitVec 64))
  | wait (queue : ℕ) (uptr : Option (BitVec 8))
deriving DecidableEq, Repr

/-- The hook that handles an event. -/
def hook (g : Globals) : Event → Globals × List Action
  | .submit _ pid fd file => hookFunctionForSubmitFd g pid fd file
  | .writeback inode => writebackSingleInode g inode
  | .wait _ uptr => enterWaitForQueue g uptr

/-- The state before the first event. -/
def initial : Globals := ⟨0, .empty⟩

end ClickhouseUring.Writeback
