import ClickhouseUring.Kit.Ring
import ClickhouseUring.Kit.Run

/-!
# The batching probes of `clickhouse-iouring/rocksdb.bpf.c`

The `write` probe queues every write of five bytes on the ring and tells the caller that it
succeeded, the `fsync` probe does so with every fsync.  Both count in `current_count`; the call
that finds `patch_size` of them pending is queued too and then flushes the ring.  A write of
another length is left alone and runs natively.
-/

namespace ClickhouseUring.WriteBatcher

open Uring

/-- `patch_size`. -/
def patchSize : Int := 48

/-- An intercepted call, which is also what the submit helpers queue. -/
inductive Call
  | write (fd : Int) (buf n : BitVec 64)
  | fsync (fd : Int)
deriving DecidableEq, Repr

/-- What a probe does: the new `current_count`, its helper calls and the value it overrides the
caller's return with. -/
structure Outcome where
  currentCount : Int
  cmds : List (Cmd Call)
  override : Option (BitVec 64)
deriving DecidableEq

/-! ## The functions of the source -/

/-- The body that `write` and `fsync` share: queue the call and count it, and flush when
`patch_size` calls were pending before it. -/
def enqueue (currentCount : Int) (op : Call) : Int × List (Cmd Call) :=
  if currentCount < patchSize then (currentCount + 1, [.push op true])
  else (0, .push op true :: .submit :: List.replicate (currentCount + 1).toNat .wait)

/-- The `write` probe. -/
def write (currentCount : Int) (fd : Int) (buf n : BitVec 64) : Outcome :=
  if n = 5 then
    let r := enqueue currentCount (.write fd buf n)
    ⟨r.1, r.2, some 5⟩
  else ⟨currentCount, [], none⟩

/-- The `fsync` probe. -/
def fsync (currentCount : Int) (fd : Int) : Outcome :=
  let r := enqueue currentCount (.fsync fd)
  ⟨r.1, r.2, some 0⟩

/-- The `start` probe. -/
def start (currentCount : Int) : Outcome := ⟨currentCount, [.init], none⟩

/-! ## The machine -/

/-- The probe that handles a call. -/
def hook (currentCount : Int) : Call → Outcome
  | .write fd buf n => write currentCount fd buf n
  | .fsync fd => fsync currentCount fd

structure Sys where
  currentCount : Int
  ring : IoRing Call
deriving DecidableEq

/-- What happened at one call: the helper calls and the override. -/
structure Report where
  call : Call
  cmds : List (Cmd Call)
  override : Option (BitVec 64)
deriving DecidableEq

/-- The helper calls that call `c` leads to on a ring with `entries` submission slots. -/
def issued (entries : ℕ) (s : Sys) (c : Call) : List (Cmd Call) :=
  resolve entries s.ring (hook s.currentCount c).cmds

/-- The patched program.  A hook that blocks forever leaves the ring as it was. -/
def batcher (entries : ℕ) : Machine Sys Call Report where
  step s c := ⟨(hook s.currentCount c).currentCount,
    (s.ring.run (issued entries s c)).getD s.ring⟩
  out s c := [⟨c, issued entries s c, (hook s.currentCount c).override⟩]

/-- The state after `start` in a program that has just been loaded. -/
def started : Sys := ⟨(start 0).currentCount, (IoRing.empty.run (start 0).cmds).getD .empty⟩

/-! ## What a hook can do -/

/-- The calls that are queued instead of executed. -/
def Call.Deferred : Call → Prop
  | .write _ _ n => n = 5
  | .fsync _ => True

instance : DecidablePred Call.Deferred
  | .write _ _ n => inferInstanceAs (Decidable (n = 5))
  | .fsync _ => inferInstanceAs (Decidable True)

/-- What a deferred call is told it returned. -/
def Call.result : Call → BitVec 64
  | .write .. => 5
  | .fsync _ => 0

/-- Everything a hook can do. -/
inductive Acts (count : Int) (c : Call) : Outcome → Prop
  /-- The call is left to run natively. -/
  | native (hc : ¬ c.Deferred) : Acts count c ⟨count, [], none⟩
  /-- The call joins the pending ones. -/
  | queued (hc : c.Deferred) (h : count < patchSize) :
      Acts count c ⟨count + 1, [.push c true], some c.result⟩
  /-- The call joins the pending ones and flushes them all. -/
  | filled (hc : c.Deferred) (h : patchSize ≤ count) :
      Acts count c
        ⟨0, .push c true :: .submit :: List.replicate (count + 1).toNat .wait, some c.result⟩

theorem hook_acts (count : Int) (c : Call) : Acts count c (hook count c) := by
  have deferred : c.Deferred →
      Acts count c ⟨(enqueue count c).1, (enqueue count c).2, some c.result⟩ := by
    intro hc
    unfold enqueue
    by_cases h : count < patchSize
    · rw [if_pos h]; exact .queued hc h
    · rw [if_neg h]; exact .filled hc (Int.not_lt.mp h)
  cases c with
  | write fd buf n =>
    by_cases hn : n = 5
    · have ho : hook count (.write fd buf n) = ⟨(enqueue count (.write fd buf n)).1,
          (enqueue count (.write fd buf n)).2, some (Call.write fd buf n).result⟩ := if_pos hn
      rw [ho]; exact deferred hn
    · have ho : hook count (.write fd buf n) = ⟨count, [], none⟩ := if_neg hn
      rw [ho]; exact .native hn
  | fsync fd => exact deferred trivial

end ClickhouseUring.WriteBatcher
