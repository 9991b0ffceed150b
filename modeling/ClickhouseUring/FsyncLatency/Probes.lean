import ClickhouseUring.Kit.HashMap
import ClickhouseUring.Kit.Run

/-!
# The probes of `fsync-latency-bpf/rocksdb.bpf.c`

A thread that enters `fsync` leaves the time in `start_map`.  `__writeback_single_inode` on that
thread and its exit from `fsync` take the time since then as a latency for one of the two averages
in `avg_latency`; both averages have the same count.

The latencies and averages are signed, the count is unsigned, so C divides unsigned numbers.  A
division by zero gives 0 here, as it does on the BPF machine.
-/

namespace ClickhouseUring.FsyncLatency

/-- `struct avg_latency_t`; the latencies are signed. -/
structure AvgLatency where
  count : BitVec 64
  latencyToWrite : BitVec 64
  latencyToFsyncExit : BitVec 64
deriving DecidableEq, Repr

/-- The variable and the map of the program: `start_map` has the time for each `pid_tgid`. -/
structure Globals where
  avgLatency : AvgLatency
  startMap : HashMap (BitVec 64) (BitVec 64) 1000

/-- `bpf_printk`. -/
structure Printk where
  format : String
  args : List (BitVec 64)
deriving DecidableEq, Repr

/-! ## The functions of the source -/

/-- What `__writeback_single_inode` does to `avg_latency`. -/
def AvgLatency.write (avg : AvgLatency) (latency : BitVec 64) : AvgLatency :=
  let count := avg.count
  { avg with
    latencyToWrite := avg.latencyToWrite + (latency - avg.latencyToWrite) / (count + 1)
    count := avg.count + 1 }

/-- What the exit from `fsync` does to `avg_latency`. -/
def AvgLatency.fsyncExit (avg : AvgLatency) (latency : BitVec 64) : AvgLatency :=
  let count := avg.count
  { avg with
    latencyToFsyncExit := (latency - avg.latencyToFsyncExit) / (count + 1)
    count := avg.count + 1 }

/-- `__writeback_single_inode`. -/
def writebackSingleInode (g : Globals) (pidTgid ns : BitVec 64) : Globals × List Printk :=
  match g.startMap.lookup pidTgid with
  | none => (g, [])
  | some startNs =>
    let latency := ns - startNs
    ({ g with avgLatency := g.avgLatency.write latency },
      [⟨"__writeback_single_inode latency: %lls", [latency]⟩])

/-- `tracepoint__syscalls__sys_enter_statfs`. -/
def sysEnterFsync (g : Globals) (pidTgid ns : BitVec 64) : Globals × List Printk :=
  ({ g with startMap := g.startMap.update pidTgid ns }, [])

/-- `tracepoint__syscalls__sys_exit_statfs`. -/
def sysExitFsync (g : Globals) (pidTgid ns : BitVec 64) : Globals × List Printk :=
  match g.startMap.lookup pidTgid with
  | none => (g, [])
  | some startNs =>
    let latency := ns - startNs
    let count := g.avgLatency.count
    let avg := g.avgLatency.fsyncExit latency
    ({ avgLatency := avg, startMap := g.startMap.delete pidTgid },
      [⟨"fsync latency: %lls, count %llu", [latency, count]⟩,
        ⟨"avg fsync latency: %lls", [avg.latencyToFsyncExit]⟩])

/-! ## The machine -/

/-- The probes. -/
inductive Probe
  | sysEnterFsync
  | writebackSingleInode
  | sysExitFsync
deriving DecidableEq, Repr

/-- An event: the probe, the thread that runs it, and the time. -/
structure Event where
  probe : Probe
  pidTgid : BitVec 64
  ns : BitVec 64
deriving DecidableEq, Repr

/-- The probe that handles an event. -/
def hook (g : Globals) (e : Event) : Globals × List Printk :=
  match e.probe with
  | .sysEnterFsync => sysEnterFsync g e.pidTgid e.ns
  | .writebackSingleInode => writebackSingleInode g e.pidTgid e.ns
  | .sysExitFsync => sysExitFsync g e.pidTgid e.ns

/-- The state before the first event. -/
def initial : Globals := ⟨⟨0, 0, 0⟩, .empty⟩

/-- The probes, run by any number of threads. -/
def probes : Machine Globals Event Printk where
  step g e := (hook g e).1
  out g e := (hook g e).2

/-- Everything a probe can do. -/
inductive Acts (g : Globals) : Event → Globals → List Printk → Prop
  | enter {tid ns} :
      Acts g ⟨.sysEnterFsync, tid, ns⟩ { g with startMap := g.startMap.update tid ns } []
  /-- A thread that has not been seen to enter `fsync`. -/
  | unmatched {probe tid ns} (hprobe : probe ≠ .sysEnterFsync) (h : g.startMap.lookup tid = none) :
      Acts g ⟨probe, tid, ns⟩ g []
  | writeback {tid ns start} (h : g.startMap.lookup tid = some start) :
      Acts g ⟨.writebackSingleInode, tid, ns⟩
        { g with avgLatency := g.avgLatency.write (ns - start) }
        [⟨"__writeback_single_inode latency: %lls", [ns - start]⟩]
  | exit {tid ns start} (h : g.startMap.lookup tid = some start) :
      Acts g ⟨.sysExitFsync, tid, ns⟩
        ⟨g.avgLatency.fsyncExit (ns - start), g.startMap.delete tid⟩
        [⟨"fsync latency: %lls, count %llu", [ns - start, g.avgLatency.count]⟩,
          ⟨"avg fsync latency: %lls",
            [(g.avgLatency.fsyncExit (ns - start)).latencyToFsyncExit]⟩]

theorem hook_acts (g : Globals) (e : Event) : Acts g e (hook g e).1 (hook g e).2 := by
  obtain ⟨probe, tid, ns⟩ := e
  cases probe with
  | sysEnterFsync => exact .enter
  | writebackSingleInode =>
    unfold hook writebackSingleInode
    dsimp only
    cases h : g.startMap.lookup tid with
    | none => exact .unmatched (by decide) h
    | some start => exact .writeback h
  | sysExitFsync =>
    unfold hook sysExitFsync
    dsimp only
    cases h : g.startMap.lookup tid with
    | none => exact .unmatched (by decide) h
    | some start => exact .exit h

end ClickhouseUring.FsyncLatency
