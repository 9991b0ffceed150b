import ClickhouseUring.Hotpatch.Hooks
import Mathlib.Data.List.Flatten

/-!
# What is performed under the hotpatch hooks

An operation is performed when a helper queues it, and when the intercepted call runs natively,
which it does unless its return is overridden.  `write` and `fsync` perform the call once, on the
ring or natively.  `send`, `read` and `pread` perform it on the ring and natively, and the first two
an fsync on top (`performed_perm_iff`).
-/

namespace ClickhouseUring.Hotpatch

open Uring

/-- What a call performs, on the ring and then natively. -/
def Report.performs (r : Report) : List Op :=
  pushed r.cmds ++ match r.override with
    | some _ => []
    | none => [r.op]

/-- What a run performs. -/
def performed (tr : List Report) : List Op := tr.flatMap Report.performs

/-- The calls whose hook queues without overriding. -/
def Call.Doubled : Call → Bool
  | .send .. => true
  | .read .. => true
  | _ => false

/-- What a call performs, whatever the state. -/
def Call.performs : Call → List Op
  | .send fd buf n flags => [.send fd buf n flags, .fsync fd, .send fd buf n flags]
  | .read fd buf n flags => [.readAt fd buf n (flags.signExtend 64), .fsync fd, .read fd buf n]
  | c => [c.op]

theorem pushed_reap (count : BitVec 32) : pushed (reap count) = [] := pushed_replicate_wait _

theorem pushed_enqueue (patchSize : BitVec 32) (g : Globals) (op : Op) :
    pushed (enqueue patchSize g op).2 = [op] := by
  unfold enqueue
  split_ifs
  · rfl
  · simp only [pushed, pushed_reap, if_true]

/-- **One call.** -/
theorem performs_hook (patchSize : BitVec 32) (g : Globals) (c : Call) :
    Report.performs ⟨c.op, (hook patchSize g c).cmds, (hook patchSize g c).override⟩ =
      c.performs := by
  cases c with
  | write fd buf n =>
    unfold hook write
    dsimp only
    split_ifs
    · exact congrArg (· ++ []) (pushed_enqueue patchSize g _)
    · rfl
  | fsync fd => exact congrArg (· ++ []) (pushed_enqueue patchSize g _)
  | send fd buf n flags =>
    show (.send fd buf n flags :: pushed (enqueue patchSize g (.fsync fd)).2) ++ _ = _
    rw [pushed_enqueue]
    rfl
  | read fd buf n flags =>
    show (.readAt fd buf n _ :: pushed (enqueue patchSize g (.fsync fd)).2) ++ _ = _
    rw [pushed_enqueue]
    rfl

theorem performs_pread (patchSize : BitVec 32) (g : Globals) (c : Pread) :
    Report.performs ⟨c.op, (pread patchSize g c.fd c.buf c.n c.offset).cmds,
      (pread patchSize g c.fd c.buf c.n c.offset).override⟩ = [c.op, c.op] := by
  unfold pread
  dsimp only
  split_ifs
  · show (c.op :: pushed (reap _)) ++ [c.op] = _
    rw [pushed_reap]
    rfl
  · rfl

theorem performed_trace (patchSize : BitVec 32) (s : Sys) (cs : List Call) :
    performed ((patched patchSize).trace s cs) = cs.flatMap Call.performs := by
  induction cs generalizing s with
  | nil => rfl
  | cons c cs ih =>
    rw [Machine.trace_cons, List.flatMap_cons, ← ih ((patched patchSize).step s c),
      ← performs_hook patchSize s.globals c]
    rfl

theorem performed_trace_pread (patchSize : BitVec 32) (s : Sys) (cs : List Pread) :
    performed ((prefetched patchSize).trace s cs) = cs.flatMap fun c => [c.op, c.op] := by
  induction cs generalizing s with
  | nil => rfl
  | cons c cs ih =>
    rw [Machine.trace_cons, List.flatMap_cons, ← ih ((prefetched patchSize).step s c),
      ← performs_pread patchSize s.globals c]
    rfl

theorem length_performs (c : Call) : c.performs.length = if c.Doubled then 3 else 1 := by
  cases c <;> rfl

/-- A call that is not doubled performs what it asks for. -/
theorem performs_eq {c : Call} (h : c.Doubled = false) : c.performs = [c.op] := by
  cases c with
  | write fd buf n => rfl
  | fsync fd => rfl
  | send fd buf n flags => exact Bool.noConfusion h
  | read fd buf n flags => exact Bool.noConfusion h

theorem length_flatMap_performs (cs : List Call) :
    (cs.flatMap Call.performs).length = cs.length + 2 * cs.countP Call.Doubled := by
  induction cs with
  | nil => rfl
  | cons c cs ih =>
    rw [List.flatMap_cons, List.length_append, ih, length_performs, List.length_cons,
      List.countP_cons]
    split_ifs <;> omega

theorem length_flatMap_pread (cs : List Pread) :
    (cs.flatMap fun c => [c.op, c.op]).length = 2 * cs.length := by
  induction cs with
  | nil => rfl
  | cons c cs ih =>
    simp only [List.flatMap_cons, List.length_append, List.length_cons, List.length_nil, ih]
    omega

/-- **Exactly once.** The operations performed are those the application asked for, each once,
exactly when it calls neither `send` nor `read`; under the hook of `test.bpf.c`, exactly when it
never calls `pread`. -/
theorem performed_perm_iff (patchSize : BitVec 32) (cs : List Call) (preads : List Pread) :
    ((performed ((patched patchSize).trace started cs)).Perm (cs.map Call.op) ↔
        ∀ c ∈ cs, c.Doubled = false) ∧
      ((performed ((prefetched patchSize).trace (loaded true) preads)).Perm
          (preads.map Pread.op) ↔ preads = []) := by
  rw [performed_trace, performed_trace_pread]
  constructor
  · constructor
    · intro hperm
      have hlen := hperm.length_eq
      rw [length_flatMap_performs, List.length_map] at hlen
      have hcount : cs.countP Call.Doubled = 0 := by omega
      intro c hc
      rw [List.countP_eq_zero] at hcount
      simpa using hcount c hc
    · intro hall
      have heq : cs.flatMap Call.performs = cs.map Call.op := by
        rw [List.map_eq_flatMap]
        exact List.flatMap_congr fun c hc => performs_eq (hall c hc)
      rw [heq]
  · constructor
    · intro hperm
      have hlen := hperm.length_eq
      rw [length_flatMap_pread, List.length_map] at hlen
      rw [← List.length_eq_zero_iff]
      omega
    · rintro rfl
      rfl

/-- A single `send` goes out twice, with an fsync between; a single `pread` reads twice. -/
theorem not_performed_perm_send :
    ¬ (performed ((patched 100000000).trace started [.send 5 4096 8 0])).Perm
        [.send 5 4096 8 0] ∧
      ¬ (performed ((prefetched 100000000).trace (loaded true) [⟨3, 4096, 8, 0⟩])).Perm
        [.readAt 3 4096 8 0] := by
  rw [performed_trace, performed_trace_pread]
  exact ⟨fun h => absurd h.length_eq (by decide), fun h => absurd h.length_eq (by decide)⟩

end ClickhouseUring.Hotpatch
