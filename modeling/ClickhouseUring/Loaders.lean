import ClickhouseUring.Kit.Cleanup

/-!
# The programs that load the probes

Each `main` opens and loads its object, attaches the probes one after the other, and waits for
`SIGINT`.  What a failure does to `err`, and what is released at `cleanup`, differ from one to the
next.  The lookups of `op_count` in the loops of `clickhouse-uring.c` and `tp.c`, which only print,
are left out.

`exits_clean_iff` says in which runs these programs make all their releases, each for something that
they hold, and give an error back if and only if there has been one.  The links and the descriptors
of the perf events are not among what they release: every run leaves all of them that it has made.
-/

namespace ClickhouseUring.Loaders

open Cleanup

/-- The programs of the objects. -/
inductive Prog
  | bpfStartPatch
  | bpfWritePatch
  | readFromTask
  | overrideTrace
  | readCount
  | preadRaw
  | batchSubmit
  | readS
  | mainEntry
  | start
  | fsync
  | write
  | read
  | send
  | recv
  | pread
  | enterWaitForQueue
  deriving DecidableEq, Repr

/-- What the programs make. -/
inductive Var
  | obj
  | rb
  | rbPreadPrepare
  | rbPreadSubmit
  | ring
  /-- The `bpf_link` of a program at a probe or an address; `tp.c` has one variable for its two. -/
  | link (prog : Prog) (target : String)
  /-- The descriptor that `perf_event_open_with_override` returns. -/
  | perfEvent (prog : Prog) (target : String)
  deriving DecidableEq, Repr

/-- A call that can fail. -/
inductive Point
  | openOpts
  | load
  /-- `attach` of a skeleton: all programs of the object. -/
  | attachAll
  /-- One program at a probe or an address of the target. -/
  | attach (prog : Prog) (target : String)
  | findFuncOffset (prog : Prog) (target : String)
  | perfEventOpen (prog : Prog) (target : String)
  | progAttach (prog : Prog) (target : String)
  | signal
  | mapFd
  | mapUpdate
  | ringBufferNew (v : Var)
  | queueInit
  deriving DecidableEq, Repr

abbrev Main := Program Var Point

/-! ## The calls that several programs make -/

/-- Without an object there is nothing to release. -/
def openOpts (message : String) : Stmt Var Point :=
  .call ⟨.openOpts, message, .exits, some .obj⟩

def load (message : String) : Stmt Var Point := .call ⟨.load, message, .code, none⟩

def attachAll (message : String) : Stmt Var Point := .call ⟨.attachAll, message, .code, none⟩

/-- `bpf_prog_attach_uprobe_with_override`, whose result is `err`: the three calls in it.  It keeps
the descriptor of the event open, also when the last one fails. -/
def attachOverride (prog : Prog) (target message : String) : List (Stmt Var Point) := [
  .call ⟨.findFuncOffset prog target, message, .code, none⟩,
  .call ⟨.perfEventOpen prog target, message, .code, some (.perfEvent prog target)⟩,
  .call ⟨.progAttach prog target, message, .code, none⟩]

/-- `bpf_program__attach_usdt`, with `err = errno` after a failure. -/
def attachUsdt (prog : Prog) (target message : String) : Stmt Var Point :=
  .call ⟨.attach prog target, message, .code, some (.link prog target)⟩

/-- An attachment whose failure leaves `err` as it was. -/
def attachUnset (prog : Prog) (target message : String) : Stmt Var Point :=
  .call ⟨.attach prog target, message, .kept, some (.link prog target)⟩

def signal (message : String) : Stmt Var Point := .call ⟨.signal, message, .const 1, none⟩

def mapFd : Stmt Var Point := .call ⟨.mapFd, "Failed to find BPF map\n", .exits, none⟩

def ringBufferNew (v : Var) (message : String) (err : ℤ) : Stmt Var Point :=
  .call ⟨.ringBufferNew v, message, .const err, some v⟩

/-- What most of the programs release. -/
def destroy : List (Release Var) := [⟨.obj, true⟩]

/-! ## The programs -/

/-- `IO_syscall_patch/clickhouse-uring.c`. -/
def clickhouseUring : Main where
  globals := []
  setup :=
    [openOpts "Failed to open BPF object\n", load "Failed to load BPF object: %d\n"] ++
    attachOverride .bpfStartPatch
      "_ZN2DB16ThreadPoolReader6submitENS_19IAsynchronousReader7RequestE"
      "Failed to attach BPF program to open\n" ++
    attachOverride .bpfStartPatch "_ZN2DB16ThreadPoolReader4waitEv"
      "Failed to attach BPF program to DB::ReadBuffer::next (enter)\n" ++
    attachOverride .bpfStartPatch "_ZN2DB6Server3runEv"
      "Failed to attach BPF program to DB::ReadBuffer::next (enter)\n" ++
    attachOverride .bpfStartPatch "_ZN2DB24MergeTreeSelectProcessor4readEv"
      "Failed to attach BPF program to DB::ReadBuffer::next (enter)\n" ++
    attachOverride .bpfStartPatch "_ZN2DB28CompressedReadBufferFromFile20setReadUntilPositionEm"
      "Failed to attach BPF program to DB::ReadBuffer::next (enter)\n" ++
    attachOverride .bpfWritePatch "write" "Failed to attach BPF program to write\n" ++
    attachOverride .bpfStartPatch "_ZN2DB10ReadBuffer10readStrictEPcm"
      "Failed to attach BPF program to DB::ReadBuffer::readStrict (enter)\n" ++
    [signal "Can't set signal handler: %s\n",
      mapFd,
      .call ⟨.mapUpdate, "ERROR: Updating op_count map failed\n", .exits, none⟩]
  work := .sleep
  cleanup := destroy

/-- `IO_syscall_patch/tp.c`. -/
def tp : Main where
  globals := []
  setup := [
    openOpts "Failed to open BPF object\n",
    load "Failed to load BPF object: %d\n",
    attachUnset .readFromTask "preadRaw"
      "Failed to attach USDT probe 'before_read_from_task':% d\n ",
    attachUsdt .readFromTask "batchSubmit" "Failed to attach USDT probe 'preadRaw':% d\n ",
    signal "Can't set signal handler: %s\n",
    mapFd,
    ringBufferNew .rb "Failed to create ring buffer\n" 1]
  work := .poll "Error polling ring buffer: %d\n" []
  cleanup := ⟨.rb, true⟩ :: destroy

/-- `IO_syscall_patch/uprobe.c`. -/
def uprobe : Main where
  globals := []
  setup := [
    openOpts "Failed to open BPF object\n",
    load "Failed to load BPF object: %d\n",
    attachUnset .overrideTrace "0xc76fd80"
      "Failed to attach BPF program to DB::ReadBuffer::overrideTrace (enter)\n",
    signal "Can't set signal handler: %s\n"]
  work := .sleep
  cleanup := destroy

/-- `IO_syscall_patch/batch.c`. -/
def batch : Main where
  globals := []
  setup := [
    openOpts "Failed to open BPF object\n",
    load "Failed to load BPF object: %d\n",
    attachUsdt .readCount "readCount" "Failed to attach USDT probe 'readCount': %d\n",
    attachUsdt .preadRaw "preadRaw" "Failed to attach USDT probe 'preadRaw': %d (%s)\n",
    attachUsdt .batchSubmit "batchSubmit" "Failed to attach USDT probe 'batchSubmit': %d\n",
    attachUsdt .readS "readS" "Failed to attach USDT probe 'batchSubmit': %d\n",
    attachUsdt .mainEntry "batchSubmit" "Failed to attach USDT probe 'batchSubmit': %d\n",
    signal "Can't set signal handler: %s\n"]
  work := .sleep
  cleanup := destroy

/-- `IO_syscall_patch/user.c`.  The ring is a global; the variables of the ring buffers have no
value before they are set to NULL. -/
def user : Main where
  globals := [.ring]
  setup := [
    openOpts "Failed to open BPF object\n",
    load "Failed to load BPF object: %d\n",
    attachUsdt .preadRaw "preadRaw" "Failed to attach USDT probe 'preadRaw': %d (%s)\n",
    attachUsdt .batchSubmit "batchSubmit" "Failed to attach USDT probe 'batchSubmit': %d\n",
    attachUsdt .readS "readS" "Failed to attach USDT probe 'readS': %d\n",
    signal "Can't set signal handler: %s\n",
    .null .rbPreadPrepare,
    .null .rbPreadSubmit,
    ringBufferNew .rbPreadPrepare
      "Failed to create ring buffer for pread_prepare_ringbuf\n" (-1),
    ringBufferNew .rbPreadSubmit
      "Failed to create ring buffer for pread_submit_batch_ringbuf\n" (-1),
    .call ⟨.queueInit, "Unable to setup io_uring: %s\n", .exits, some .ring⟩]
  work := .poll "Error polling the pread_prepare ring buffer: %d\n"
    ["Error polling the pread_submit ring buffer: %d\n"]
  cleanup := ⟨.rbPreadPrepare, true⟩ :: ⟨.rbPreadSubmit, true⟩ :: destroy ++ [⟨.ring, false⟩]

/-- The programs with no ring buffer that attach in one call or with overrides only, which differ in
what they attach. -/
def rocksdb (attaches : List (Stmt Var Point)) : Main where
  globals := []
  setup :=
    openOpts "failed to open BPF object\n" :: load "failed to load BPF object: %d\n" ::
      attaches ++ [signal "can't set signal handler: %s\n"]
  work := .sleep
  cleanup := destroy

/-- `bpf/rocksdb.c` and `fsync-latency-bpf/rocksdb.c`; the skeleton holds its links and releases
them with the object. -/
def rocksdbAttach : Main := rocksdb [attachAll "failed to attach BPF programs\n"]

/-- `iouring_fsync_poc/iouring_fsync.c`: the same with ten calls of `test` at most, whose results
are dropped. -/
def iouringFsync : Main := { rocksdbAttach with work := .tests }

/-- `clickhouse-iouring/rocksdb.c`. -/
def rocksdbFsync : Main := rocksdb (
  attachOverride .start "start" "Failed to attach BPF program start\n" ++
  attachOverride .fsync "fsync" "Failed to attach BPF program fsync\n" ++
  attachOverride .write "write" "Failed to attach BPF program write\n")

/-- `iouring_hotpatch/rocksdb.c`. -/
def rocksdbHotpatch : Main := rocksdb (
  attachOverride .start "start" "Failed to attach BPF program start\n" ++
  attachOverride .fsync "fsync" "Failed to attach BPF program fsync\n" ++
  attachOverride .write "write" "Failed to attach BPF program write\n" ++
  attachOverride .read "read" "Failed to attach BPF program read\n" ++
  attachOverride .send "send" "Failed to attach BPF program send\n" ++
  attachOverride .recv "recv" "Failed to attach BPF program recv\n")

/-- `iouring_hotpatch/test.c`. -/
def test : Main := rocksdb (
  attachOverride .start "start" "Failed to attach BPF program start\n" ++
  attachOverride .pread "pread" "Failed to attach BPF program read\n")

/-- `simple_override/rocksdb.c`. -/
def rocksdbOverride : Main := rocksdb (
  attachOverride .enterWaitForQueue "_ZN7rocksdb6Urings14wait_for_queueEPNS_11uring_queueE"
    "Failed to attach BPF program\n")

inductive Loader
  | clickhouseUring
  | tp
  | uprobe
  | batch
  | user
  | rocksdbAttach
  | iouringFsync
  | rocksdbFsync
  | rocksdbHotpatch
  | test
  | rocksdbOverride
  deriving DecidableEq, Repr

def Loader.main : Loader → Main
  | .clickhouseUring => Loaders.clickhouseUring
  | .tp => Loaders.tp
  | .uprobe => Loaders.uprobe
  | .batch => Loaders.batch
  | .user => Loaders.user
  | .rocksdbAttach => Loaders.rocksdbAttach
  | .iouringFsync => Loaders.iouringFsync
  | .rocksdbFsync => Loaders.rocksdbFsync
  | .rocksdbHotpatch => Loaders.rocksdbHotpatch
  | .test => Loaders.test
  | .rocksdbOverride => Loaders.rocksdbOverride

end ClickhouseUring.Loaders
