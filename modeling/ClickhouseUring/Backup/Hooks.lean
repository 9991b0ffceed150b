import ClickhouseUring.Kit.HashMap
import ClickhouseUring.Kit.Ring
import ClickhouseUring.Kit.Run
import Mathlib.Data.Finset.Interval
import Mathlib.Order.Interval.Finset.Nat

/-!
# The batching probes of `IO_syscall_patch/backup.bpf.c`

`bpf_pread_patch`, `bpf_send_patch` and `bpf_recv_patch` intercept libc calls: they queue the
call on the process's ring through a helper, count it in `op_count` and tell the caller that it
succeeded.  `submit_if_batch_full` flushes the ring when 1024 calls are pending,
`handle_unbatched_ops` when the program ends its patched section.

The maps and the variable `global` are one per machine, so a `Maps` value is shared by all
processes; `rings` has one ring for each process.  A hook reads and writes `Maps` only and
returns the helper calls it makes, in order, as commands for the ring of the calling process.
`bpf_printk` is left out.
-/

namespace ClickhouseUring.Backup

open Uring

/-- `BATCH_SIZE`. -/
def batchSize : ℕ := 1024

/-- `struct uring_check_data`. -/
structure UringCheckData where
  pid : BitVec 32
  fd : Int
  iIno : BitVec 64
  seqNum : BitVec 32
  dependsOn : BitVec 32
  res : BitVec 32
deriving DecidableEq, Repr

/-- The BPF maps and the variable `global`. -/
structure Maps where
  global : Bool
  opCount : BitVec 32
  globalSeqNum : BitVec 32
  bpftimeInodeMap : HashMap (BitVec 32) UringCheckData 10000

/-- An intercepted call, which is also what the submit helpers queue. -/
inductive IoOp
  | pread (fd : Int) (buf n offset : BitVec 64)
  | send (fd : Int) (buf n : BitVec 64) (flags : Int)
  | recv (fd : Int) (buf n : BitVec 64) (flags : Int)
deriving DecidableEq, Repr

/-- What a probe does: the new maps, its helper calls, the value it overrides the caller's
return with, and its own return value. -/
structure Outcome where
  maps : Maps
  cmds : List (Cmd IoOp)
  override : Option (BitVec 64)
  ret : Int

/-! ## The functions of the source -/

/-- `handle_unbatched_ops`: submit, wait `*count` times, zero the counter. -/
def handleUnbatchedOps (m : Maps) : Maps × List (Cmd IoOp) :=
  ({ m with opCount := 0 }, .submit :: List.replicate m.opCount.toNat .wait)

/-- `submit_if_batch_full`: its return value and its helper calls.  The counter stays. -/
def submitIfBatchFull (m : Maps) : Bool × List (Cmd IoOp) :=
  if m.opCount.toNat < batchSize then (false, [])
  else (true, .submit :: List.replicate m.opCount.toNat .wait)

/-- The first half of `add_pending_op`: number the record, count it and store it under the new
count. -/
def Maps.record (m : Maps) (op : UringCheckData) : Maps :=
  let count := m.opCount + 1
  { m with
    globalSeqNum := m.globalSeqNum + 1
    opCount := count
    bpftimeInodeMap := m.bpftimeInodeMap.update count { op with seqNum := m.globalSeqNum } }

/-- `add_pending_op`: the new maps, the helper calls and the entry it returns, `none` for
`NULL`. -/
def addPendingOp (m : Maps) (op : UringCheckData) :
    Maps × List (Cmd IoOp) × Option UringCheckData :=
  let m := m.record op
  let (res, cmds) := submitIfBatchFull m
  match m.bpftimeInodeMap.lookup m.opCount with
  | none => (m, cmds, none)
  | some opStale => (if res then { m with opCount := 0 } else m, cmds, some opStale)

/-- The body that `bpf_pread_patch`, `bpf_send_patch` and `bpf_recv_patch` share.  `ret` is what
the submit helper returned, a `long` that the hook stores in an `int` and that is taken to fit
there, as 0 and the error numbers do: 0 exactly when it queued `op`.  `link` says whether the hook calls
`io_uring_set_linkflag`, `value` is what it overrides the return value with and `done` its own
return value after a queued call. -/
def patchCall (m : Maps) (pid : BitVec 32) (op : IoOp) (fd : Int) (buf : BitVec 64) (link : Bool)
    (value : BitVec 64) (done : Int) (ret : BitVec 32) : Outcome :=
  if m.global = false ∨ fd < 3 then ⟨m, [], none, 0⟩
  else if ret ≠ 0 then ⟨m, [.push op false], none, 0⟩
  else
    let r := addPendingOp m ⟨pid, fd, buf, 0, 0, 0⟩
    ⟨r.1, .push op true :: ((if link then [.link] else []) ++ r.2.1), some value, done⟩

/-- `bpf_pread_patch`. -/
def bpfPreadPatch (m : Maps) (pid : BitVec 32) (fd : Int) (buf n offset : BitVec 64)
    (ret : BitVec 32) : Outcome :=
  patchCall m pid (.pread fd buf n offset) fd buf true 22 1 ret

/-- `bpf_send_patch`. -/
def bpfSendPatch (m : Maps) (pid : BitVec 32) (fd : Int) (buf n : BitVec 64) (flags : Int)
    (ret : BitVec 32) : Outcome :=
  patchCall m pid (.send fd buf n flags) fd buf true n 0 ret

/-- `bpf_recv_patch`, where the call of `io_uring_set_linkflag` is commented out. -/
def bpfRecvPatch (m : Maps) (pid : BitVec 32) (fd : Int) (buf n : BitVec 64) (flags : Int)
    (ret : BitVec 32) : Outcome :=
  patchCall m pid (.recv fd buf n flags) fd buf false n 0 ret

/-- `bpf_end_patch`. -/
def bpfEndPatch (m : Maps) : Outcome :=
  ⟨(handleUnbatchedOps m).1, (handleUnbatchedOps m).2, none, 0⟩

/-- `bpf_start_patch`. -/
def bpfStartPatch (m : Maps) : Outcome :=
  ⟨{ m with global := true, opCount := 0, globalSeqNum := 0 }, [.init], none, 0⟩

/-! ## The machine -/

/-- A probe event.  `ret` is the submit helper's result, should the hook call it. -/
inductive Event
  | start
  | call (op : IoOp) (ret : BitVec 32)
  | finish
deriving DecidableEq, Repr

/-- The hook that handles an event of process `pid`. -/
def hook (m : Maps) (pid : BitVec 32) : Event → Outcome
  | .start => bpfStartPatch m
  | .call (.pread fd buf n offset) ret => bpfPreadPatch m pid fd buf n offset ret
  | .call (.send fd buf n flags) ret => bpfSendPatch m pid fd buf n flags ret
  | .call (.recv fd buf n flags) ret => bpfRecvPatch m pid fd buf n flags ret
  | .finish => bpfEndPatch m

/-- The shared maps, and for each process its ring and whether it has installed one. -/
structure Sys where
  maps : Maps
  rings : BitVec 32 → IoRing IoOp
  inited : BitVec 32 → Bool

/-- The state before the first probe runs. -/
def initial : Sys := ⟨⟨false, 0, 0, .empty⟩, fun _ => .empty, fun _ => false⟩

/-- The patched processes.  An event carries the pid of the process it happens in; its helper
calls act on that process's ring.  A hook that blocks forever leaves the ring as it was. -/
def patched : Machine Sys (BitVec 32 × Event) Outcome where
  step s e :=
    let o := hook s.maps e.1 e.2
    { maps := o.maps
      rings := Function.update s.rings e.1 (((s.rings e.1).run o.cmds).getD (s.rings e.1))
      inited := Function.update s.inited e.1 (s.inited e.1 || decide (e.2 = .start)) }
  out s e := [hook s.maps e.1 e.2]

/-! ## What a hook can do -/

namespace IoOp

def fd : IoOp → Int
  | pread fd _ _ _ => fd
  | send fd _ _ _ => fd
  | recv fd _ _ _ => fd

def buf : IoOp → BitVec 64
  | pread _ buf _ _ => buf
  | send _ buf _ _ => buf
  | recv _ buf _ _ => buf

/-- The length argument of the call. -/
def n : IoOp → BitVec 64
  | pread _ _ n _ => n
  | send _ _ n _ => n
  | recv _ _ n _ => n

/-- Whether the hook of the call links the entry it queued. -/
def linked : IoOp → Bool
  | pread .. => true
  | send .. => true
  | recv .. => false

/-- What the hook of the call overrides the return value with. -/
def overridden : IoOp → BitVec 64
  | pread .. => 22
  | send _ _ n _ => n
  | recv _ _ n _ => n

/-- What the hook of the call returns after queueing it. -/
def probeRet : IoOp → Int
  | pread .. => 1
  | send .. => 0
  | recv .. => 0

/-- The record the hook of the call hands to `add_pending_op`. -/
def toRecord (op : IoOp) (pid : BitVec 32) : UringCheckData := ⟨pid, op.fd, op.buf, 0, 0, 0⟩

/-- The helper calls that queue the call. -/
def pushCmds (op : IoOp) : List (Cmd IoOp) :=
  .push op true :: if op.linked then [.link] else []

end IoOp

theorem run_pushCmds (r : IoRing IoOp) (op : IoOp) (cs : List (Cmd IoOp)) :
    r.run (op.pushCmds ++ cs) = (r.add ⟨op, op.linked⟩).run cs := by
  cases op <;> simp [IoOp.pushCmds, IoOp.linked, IoRing.exec, IoRing.add]

theorem flushes_pushCmds (r : IoRing IoOp) (op : IoOp) (cs : List (Cmd IoOp)) :
    flushes r (op.pushCmds ++ cs) = flushes (r.add ⟨op, op.linked⟩) cs := by
  cases op <;> simp [IoOp.pushCmds, IoOp.linked, flushes, flushAt, IoRing.exec, IoRing.add]

theorem hook_call (m : Maps) (pid : BitVec 32) (op : IoOp) (ret : BitVec 32) :
    hook m pid (.call op ret) =
      patchCall m pid op op.fd op.buf op.linked op.overridden op.probeRet ret := by
  cases op <;> rfl

/-- The hook of a call takes part only after `bpf_start_patch` and for descriptors from 3 on. -/
def Intercepts (m : Maps) (op : IoOp) : Prop := m.global = true ∧ 3 ≤ op.fd

instance (m : Maps) (op : IoOp) : Decidable (Intercepts m op) := by
  unfold Intercepts; infer_instance

/-- The batch counter is below the batch size, and only the slots 1 to 1024 are in use. -/
structure Maps.Ok (m : Maps) : Prop where
  count_lt : m.opCount.toNat < batchSize
  slots : ∀ k ∈ m.bpftimeInodeMap.keys, 1 ≤ k.toNat ∧ k.toNat ≤ batchSize

/-- With only 1024 possible slots the map of 10000 entries never refuses one. -/
theorem Maps.Ok.accepts {m : Maps} (hm : m.Ok) (k : BitVec 32) :
    m.bpftimeInodeMap.Accepts k := by
  apply HashMap.accepts_of_card
  have hcard : m.bpftimeInodeMap.keys.card ≤ (Finset.Icc 1 batchSize).card := by
    apply Finset.card_le_card_of_injOn BitVec.toNat
    · intro j hj
      exact Finset.mem_coe.mpr (Finset.mem_Icc.mpr (hm.slots j hj))
    · intro i _ j _ hij
      exact BitVec.eq_of_toNat_eq hij
  rw [Nat.card_Icc] at hcard
  exact lt_of_le_of_lt hcard (by decide)

theorem toNat_opCount_record {m : Maps} (hm : m.Ok) (op : UringCheckData) :
    (m.record op).opCount.toNat = m.opCount.toNat + 1 := by
  have h := hm.count_lt
  unfold batchSize at h
  show (m.opCount + 1).toNat = _
  rw [BitVec.toNat_add, Nat.mod_eq_of_lt]
  · rfl
  · show m.opCount.toNat + 1 < _
    omega

/-- Recording a call keeps the used slots within 1 to 1024. -/
theorem slots_record {m : Maps} (hm : m.Ok) (op : UringCheckData) :
    ∀ k ∈ (m.record op).bpftimeInodeMap.keys, 1 ≤ k.toNat ∧ k.toNat ≤ batchSize := by
  intro k hk
  rcases Finset.mem_insert.mp (HashMap.keys_update_subset _ _ _ hk) with rfl | hk
  · have h := hm.count_lt
    have := toNat_opCount_record hm op
    change (m.opCount + 1).toNat = _ at this
    omega
  · exact hm.slots k hk

theorem lookup_record {m : Maps} (hm : m.Ok) (op : UringCheckData) :
    (m.record op).bpftimeInodeMap.lookup (m.record op).opCount =
      some { op with seqNum := m.globalSeqNum } :=
  HashMap.lookup_update_self (hm.accepts _) _

/-- `add_pending_op` on a batch with room. -/
theorem addPendingOp_of_lt {m : Maps} (hm : m.Ok) (op : UringCheckData)
    (h : m.opCount.toNat + 1 < batchSize) :
    addPendingOp m op = (m.record op, [], some { op with seqNum := m.globalSeqNum }) := by
  have hs : submitIfBatchFull (m.record op) = (false, []) := by
    unfold submitIfBatchFull
    rw [toNat_opCount_record hm, if_pos h]
  simp only [addPendingOp, hs, lookup_record hm, Bool.false_eq_true, if_false]

/-- `add_pending_op` on the call that fills the batch. -/
theorem addPendingOp_of_eq {m : Maps} (hm : m.Ok) (op : UringCheckData)
    (h : m.opCount.toNat + 1 = batchSize) :
    addPendingOp m op = ({ m.record op with opCount := 0 },
      .submit :: List.replicate batchSize .wait, some { op with seqNum := m.globalSeqNum }) := by
  have hs : submitIfBatchFull (m.record op) =
      (true, .submit :: List.replicate batchSize .wait) := by
    unfold submitIfBatchFull
    rw [toNat_opCount_record hm, h, if_neg (lt_irrefl _)]
  simp only [addPendingOp, hs, lookup_record hm, if_true]

theorem Maps.Ok.reset {m : Maps} (hm : m.Ok) (g : Bool) (seq : BitVec 32) :
    Maps.Ok ⟨g, 0, seq, m.bpftimeInodeMap⟩ :=
  ⟨(by decide : (0 : BitVec 32).toNat < batchSize), hm.slots⟩

theorem not_idle_of_intercepts {m : Maps} {op : IoOp} (h : Intercepts m op) :
    ¬ (m.global = false ∨ op.fd < 3) := by
  rintro (hg | hf)
  · exact Bool.noConfusion (hg.symm.trans h.1)
  · exact absurd h.2 (not_le.mpr hf)

/-- Everything a hook can do to maps within their bounds. -/
inductive Acts (m : Maps) (pid : BitVec 32) : Event → Outcome → Prop
  | start : Acts m pid .start ⟨{ m with global := true, opCount := 0, globalSeqNum := 0 },
      [.init], none, 0⟩
  /-- Outside the patched section, or on a standard descriptor, the call is left alone. -/
  | idle {op ret} (h : ¬ Intercepts m op) : Acts m pid (.call op ret) ⟨m, [], none, 0⟩
  /-- The submit helper fails and the call runs natively. -/
  | refused {op ret} (h : Intercepts m op) (hr : ret ≠ 0) :
      Acts m pid (.call op ret) ⟨m, [.push op false], none, 0⟩
  /-- The call joins a batch with room. -/
  | queued {op} (h : Intercepts m op) (hc : m.opCount.toNat + 1 < batchSize) :
      Acts m pid (.call op 0)
        ⟨m.record (op.toRecord pid), op.pushCmds, some op.overridden, op.probeRet⟩
  /-- The call fills the batch, which its hook flushes. -/
  | filled {op} (h : Intercepts m op) (hc : m.opCount.toNat + 1 = batchSize) :
      Acts m pid (.call op 0)
        ⟨{ m.record (op.toRecord pid) with opCount := 0 },
          op.pushCmds ++ .submit :: List.replicate batchSize .wait, some op.overridden,
          op.probeRet⟩
  | finish : Acts m pid .finish
      ⟨{ m with opCount := 0 }, .submit :: List.replicate m.opCount.toNat .wait, none, 0⟩

theorem hook_acts {m : Maps} (hm : m.Ok) (pid : BitVec 32) (e : Event) :
    Acts m pid e (hook m pid e) := by
  cases e with
  | start => exact .start
  | finish => exact .finish
  | call op ret =>
    by_cases h : Intercepts m op
    · by_cases hr : ret = 0
      · subst hr
        have hlt := hm.count_lt
        rcases Nat.lt_or_ge (m.opCount.toNat + 1) batchSize with hc | hc
        · have ho : hook m pid (.call op 0) = ⟨m.record (op.toRecord pid), op.pushCmds,
              some op.overridden, op.probeRet⟩ := by
            rw [hook_call]; unfold patchCall
            rw [if_neg (not_idle_of_intercepts h), if_neg (not_not.mpr rfl)]
            simp only [IoOp.toRecord, addPendingOp_of_lt hm _ hc, IoOp.pushCmds, List.append_nil]
          rw [ho]; exact .queued h hc
        · have hc : m.opCount.toNat + 1 = batchSize := by omega
          have ho : hook m pid (.call op 0) = ⟨{ m.record (op.toRecord pid) with opCount := 0 },
              op.pushCmds ++ .submit :: List.replicate batchSize .wait, some op.overridden,
              op.probeRet⟩ := by
            rw [hook_call]; unfold patchCall
            rw [if_neg (not_idle_of_intercepts h), if_neg (not_not.mpr rfl)]
            simp only [IoOp.toRecord, addPendingOp_of_eq hm _ hc, IoOp.pushCmds,
              List.cons_append]
          rw [ho]; exact .filled h hc
      · have ho : hook m pid (.call op ret) = ⟨m, [.push op false], none, 0⟩ := by
          rw [hook_call]; unfold patchCall
          rw [if_neg (not_idle_of_intercepts h), if_pos hr]
        rw [ho]; exact .refused h hr
    · have h' : m.global = false ∨ op.fd < 3 := by
        by_cases hg : m.global = true
        · exact Or.inr (not_le.mp fun hf => h ⟨hg, hf⟩)
        · exact Or.inl (Bool.eq_false_iff.mpr hg)
      have ho : hook m pid (.call op ret) = ⟨m, [], none, 0⟩ := by
        rw [hook_call]; unfold patchCall; rw [if_pos h']
      rw [ho]; exact .idle h

/-- Every hook keeps the counter and the slots within their bounds. -/
theorem hook_ok {m : Maps} (hm : m.Ok) (pid : BitVec 32) (e : Event) :
    (hook m pid e).maps.Ok := by
  have h := hook_acts hm pid e
  generalize hook m pid e = o at h ⊢
  cases h with
  | start => exact hm.reset _ _
  | idle h => exact hm
  | refused h hr => exact hm
  | queued h hc => exact ⟨by rw [toNat_opCount_record hm]; exact hc, slots_record hm _⟩
  | filled h hc =>
    exact ⟨(by decide : (0 : BitVec 32).toNat < batchSize), slots_record hm _⟩
  | finish => exact hm.reset _ _

/-- The state after a step whose helper calls return. -/
theorem step_of_run {s : Sys} {pid : BitVec 32} {e : Event} {r : IoRing IoOp}
    (h : (s.rings pid).run (hook s.maps pid e).cmds = some r) :
    (patched.step s (pid, e)).maps = (hook s.maps pid e).maps ∧
      (patched.step s (pid, e)).rings = Function.update s.rings pid r := by
  simp [patched, h]

end ClickhouseUring.Backup
