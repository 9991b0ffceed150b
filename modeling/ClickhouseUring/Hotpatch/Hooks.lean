import ClickhouseUring.Kit.Ring
import ClickhouseUring.Kit.Run

/-!
# The hooks of `iouring_hotpatch/rocksdb.bpf.c` and `test.bpf.c`

Four hooks intercept libc calls, queue operations on the ring and count in `current_count`.
`write` and `fsync` queue the call itself and override its return.  The hooks on `send` and on
`read`, which the source names `send` as well, queue and submit the call, then queue an fsync
besides, and override nothing.  `test.bpf.c` has a hook on `pread` that queues the read and
overrides nothing.

The buffer that the `read` hook stores in `bpftime_inode_map` is left out, since nothing reads it.
-/

namespace ClickhouseUring.Hotpatch

open Uring

/-- What the submit helpers queue, and what the intercepted calls do natively. -/
inductive Op
  | write (fd : BitVec 32) (buf n : BitVec 64)
  | fsync (fd : BitVec 32)
  | send (fd : BitVec 32) (buf n : BitVec 64) (flags : BitVec 32)
  | read (fd : BitVec 32) (buf n : BitVec 64)
  | readAt (fd : BitVec 32) (buf n offset : BitVec 64)
deriving DecidableEq, Repr

/-- The variables of the program. -/
structure Globals where
  global : Bool
  currentCount : BitVec 32
deriving DecidableEq, Repr

/-- What a hook does: the variables afterwards, its helper calls and the value it overrides the
return of the intercepted call with. -/
structure Outcome where
  globals : Globals
  cmds : List (Cmd Op)
  override : Option (BitVec 64)

/-! ## The functions of the source -/

/-- The loop `for (int i = 0; i < current_count; i++)`. -/
def reap (currentCount : BitVec 32) : List (Cmd Op) :=
  List.replicate currentCount.toInt.toNat .wait

/-- What the hooks share: queue an operation and count it, and flush when `patch_size` were
pending before it. -/
def enqueue (patchSize : BitVec 32) (g : Globals) (op : Op) : Globals × List (Cmd Op) :=
  if g.currentCount.slt patchSize then
    ({ g with currentCount := g.currentCount + 1 }, [.push op true])
  else
    ({ g with currentCount := 0 }, .push op true :: .submit :: reap (g.currentCount + 1))

/-- The `write` hook. -/
def write (patchSize : BitVec 32) (g : Globals) (fd : BitVec 32) (buf n : BitVec 64) : Outcome :=
  if g.global && fd ≠ 1 then
    let r := enqueue patchSize g (.write fd buf n)
    ⟨r.1, r.2, some n⟩
  else ⟨g, [], none⟩

/-- The `fsync` hook. -/
def fsync (patchSize : BitVec 32) (g : Globals) (fd : BitVec 32) : Outcome :=
  let r := enqueue patchSize g (.fsync fd)
  ⟨r.1, r.2, some 0⟩

/-- The `send` hook. -/
def send (patchSize : BitVec 32) (g : Globals) (fd : BitVec 32) (buf n : BitVec 64)
    (flags : BitVec 32) : Outcome :=
  let r := enqueue patchSize g (.fsync fd)
  ⟨r.1, .push (.send fd buf n flags) true :: .submit :: r.2, none⟩

/-- The `read` hook.  `flags` is the register of a fourth argument, which `read` does not have; it
becomes the offset. -/
def read (patchSize : BitVec 32) (g : Globals) (fd : BitVec 32) (buf n : BitVec 64)
    (flags : BitVec 32) : Outcome :=
  let r := enqueue patchSize g (.fsync fd)
  ⟨r.1, .push (.readAt fd buf n (flags.signExtend 64)) true :: .submit :: r.2, none⟩

/-- The `start` hook. -/
def start (g : Globals) : Outcome := ⟨{ g with global := true }, [.init], none⟩

/-- The `pread` hook of `test.bpf.c`; it flushes at `patch_size`, not after it. -/
def pread (patchSize : BitVec 32) (g : Globals) (fd : BitVec 32) (buf n offset : BitVec 64) :
    Outcome :=
  let count := g.currentCount + 1
  let cmds : List (Cmd Op) := [.push (.readAt fd buf n offset) true, .submit]
  if count = patchSize then ⟨{ g with currentCount := 0 }, cmds ++ reap count, none⟩
  else ⟨{ g with currentCount := count }, cmds, none⟩

/-! ## The machines -/

/-- An intercepted call. -/
inductive Call
  | write (fd : BitVec 32) (buf n : BitVec 64)
  | fsync (fd : BitVec 32)
  | send (fd : BitVec 32) (buf n : BitVec 64) (flags : BitVec 32)
  /-- `flags` is the register of a fourth argument. -/
  | read (fd : BitVec 32) (buf n : BitVec 64) (flags : BitVec 32)
deriving DecidableEq, Repr

/-- The hook that handles a call. -/
def hook (patchSize : BitVec 32) (g : Globals) : Call → Outcome
  | .write fd buf n => write patchSize g fd buf n
  | .fsync fd => fsync patchSize g fd
  | .send fd buf n flags => send patchSize g fd buf n flags
  | .read fd buf n flags => read patchSize g fd buf n flags

/-- The operation that the application asks for. -/
def Call.op : Call → Op
  | .write fd buf n => .write fd buf n
  | .fsync fd => .fsync fd
  | .send fd buf n flags => .send fd buf n flags
  | .read fd buf n _ => .read fd buf n

/-- The variables and the ring; there is no ring once a wait has blocked for good. -/
structure Sys where
  globals : Globals
  ring : Option (IoRing Op)
deriving DecidableEq

/-- What happened at a call: what it asked for, the helper calls and the override. -/
structure Report where
  op : Op
  cmds : List (Cmd Op)
  override : Option (BitVec 64)

/-- What a hook makes of the variables and the ring. -/
def Sys.apply (s : Sys) (o : Outcome) : Sys := ⟨o.globals, s.ring.bind fun r => r.run o.cmds⟩

/-- The application under the hooks of `rocksdb.bpf.c`. -/
def patched (patchSize : BitVec 32) : Machine Sys Call Report where
  step s c := s.apply (hook patchSize s.globals c)
  out s c := [⟨c.op, (hook patchSize s.globals c).cmds, (hook patchSize s.globals c).override⟩]

/-- The arguments of `pread`. -/
structure Pread where
  fd : BitVec 32
  buf : BitVec 64
  n : BitVec 64
  offset : BitVec 64
deriving DecidableEq, Repr

def Pread.op (c : Pread) : Op := .readAt c.fd c.buf c.n c.offset

/-- The application under the hook of `test.bpf.c`. -/
def prefetched (patchSize : BitVec 32) : Machine Sys Pread Report where
  step s c := s.apply (pread patchSize s.globals c.fd c.buf c.n c.offset)
  out s c :=
    let o := pread patchSize s.globals c.fd c.buf c.n c.offset
    [⟨c.op, o.cmds, o.override⟩]

/-- A program that has just been loaded, with a ring; `test.bpf.c` starts with `global` set. -/
def loaded (global : Bool) : Sys := ⟨⟨global, 0⟩, some .empty⟩

/-- The state after the `start` hook. -/
def started : Sys := (loaded false).apply (start (loaded false).globals)

end ClickhouseUring.Hotpatch
