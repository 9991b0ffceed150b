import ClickhouseUring.Backup.Hooks

/-!
# The slots of the pending calls

`bpftime_inode_map` keeps the record of the `j`-th pending call in slot `j`, whatever process made
it, and the sequence numbers of the pending calls are the last ones handed out.  Slots are used
again by the next batch and never deleted.  Every slot is written before `add_pending_op` reads it
back, so the entry it returns is never `NULL`.
-/

namespace ClickhouseUring.Backup

open Uring

/-- The records of the calls that the helper calls of a process queue. -/
def accepted (pid : BitVec 32) (cmds : List (Cmd IoOp)) : List UringCheckData :=
  cmds.filterMap fun
    | .push op true => some (op.toRecord pid)
    | _ => none

/-- The records of the calls queued since the last flush or start. -/
def pendingAfter (m : Maps) (pending : List UringCheckData) (e : BitVec 32 × Event) :
    List UringCheckData :=
  let cmds := (hook m e.1 e.2).cmds
  if .init ∈ cmds ∨ .submit ∈ cmds then [] else pending ++ accepted e.1 cmds

/-- The patched processes and the records of their pending calls. -/
def tracked : Machine (Sys × List UringCheckData) (BitVec 32 × Event) Outcome where
  step p e := (patched.step p.1 e, pendingAfter p.1.maps p.2 e)
  out p e := patched.out p.1 e

/-- Every pending call has its record in its slot, and the last numbers handed out are theirs. -/
structure Slotted (m : Maps) (pending : List UringCheckData) : Prop where
  length_eq : m.opCount.toNat = pending.length
  lookup_slot : ∀ j, 1 ≤ j → j ≤ m.opCount.toNat →
    m.bpftimeInodeMap.lookup (BitVec.ofNat 32 j) = pending[j - 1]?.map fun op =>
      { op with seqNum := m.globalSeqNum - m.opCount + BitVec.ofNat 32 j - 1 }
  slots : ∀ k ∈ m.bpftimeInodeMap.keys, 1 ≤ k.toNat ∧ k.toNat ≤ 1024

/-- `add_pending_op` returns the record it was given under the number it was assigned. -/
def Maps.ReturnsEntry (m : Maps) : Prop :=
  ∀ op, (addPendingOp m op).2.2 = some { op with seqNum := m.globalSeqNum }

theorem returnsEntry {m : Maps} (hm : m.Ok) : m.ReturnsEntry := by
  intro op
  have hlt := hm.count_lt
  rcases Nat.lt_or_ge (m.opCount.toNat + 1) batchSize with h | h
  · rw [addPendingOp_of_lt hm op h]
  · rw [addPendingOp_of_eq hm op (by omega)]

/-- After a flush or a start no slot is pending. -/
theorem slotted_reset {m : Maps} (hm : m.Ok) (hcount : m.opCount = 0) : Slotted m [] := by
  have hzero : m.opCount.toNat = 0 := by rw [hcount]; rfl
  refine ⟨hzero, fun j h1 hj => ?_, hm.slots⟩
  omega

/-- A call that is queued takes the next slot and the next number. -/
theorem slotted_record {m : Maps} (hm : m.Ok) {pending : List UringCheckData}
    (h : Slotted m pending) (op : UringCheckData) : Slotted (m.record op) (pending ++ [op]) := by
  have hcount := toNat_opCount_record hm op
  have hlen := h.length_eq
  have hlt := hm.count_lt
  unfold batchSize at hlt
  refine ⟨by rw [hcount, hlen, List.length_append]; rfl, fun j h1 hj => ?_, slots_record hm op⟩
  rw [hcount] at hj
  have hseq : (m.record op).globalSeqNum - (m.record op).opCount = m.globalSeqNum - m.opCount := by
    show m.globalSeqNum + 1 - (m.opCount + 1) = _
    bv_omega
  rw [hseq]
  rcases Nat.lt_or_ge m.opCount.toNat j with hnew | hold
  · obtain rfl : j = m.opCount.toNat + 1 := by omega
    have hslot : BitVec.ofNat 32 (m.opCount.toNat + 1) = (m.record op).opCount := by
      rw [← hcount, BitVec.ofNat_toNat, BitVec.setWidth_eq]
    have hnumber : m.globalSeqNum - m.opCount + (m.opCount + 1) - 1 = m.globalSeqNum := by
      bv_omega
    rw [hslot, lookup_record hm, Nat.add_sub_cancel, hlen, List.getElem?_concat_length]
    show _ = some { op with seqNum := m.globalSeqNum - m.opCount + (m.opCount + 1) - 1 }
    rw [hnumber]
  · have hne : BitVec.ofNat 32 j ≠ m.opCount + 1 := by
      intro heq
      have hnat := congrArg BitVec.toNat heq
      rw [BitVec.toNat_ofNat, show (m.opCount + 1).toNat = _ from hcount] at hnat
      omega
    rw [List.getElem?_append_left (by omega)]
    show (m.bpftimeInodeMap.update _ _).lookup _ = _
    rw [HashMap.lookup_update_of_ne _ hne]
    exact h.lookup_slot j h1 hold

theorem init_not_mem_pushCmds (op : IoOp) : Cmd.init ∉ op.pushCmds := by
  cases op <;> simp [IoOp.pushCmds, IoOp.linked]

theorem submit_not_mem_pushCmds (op : IoOp) : Cmd.submit ∉ op.pushCmds := by
  cases op <;> simp [IoOp.pushCmds, IoOp.linked]

theorem accepted_pushCmds (pid : BitVec 32) (op : IoOp) :
    accepted pid op.pushCmds = [op.toRecord pid] := by
  cases op <;> simp [accepted, IoOp.pushCmds, IoOp.linked]

/-- **One event.** -/
theorem slotted_step {m : Maps} (hm : m.Ok) {pending : List UringCheckData}
    (h : Slotted m pending) (pid : BitVec 32) (e : Event) :
    Slotted (hook m pid e).maps (pendingAfter m pending (pid, e)) := by
  have hacts := hook_acts hm pid e
  have hok := hook_ok hm pid e
  unfold pendingAfter
  dsimp only
  generalize hook m pid e = o at hacts hok ⊢
  cases hacts with
  | start =>
    rw [if_pos (Or.inl List.mem_cons_self)]
    exact slotted_reset hok rfl
  | idle hi =>
    rw [if_neg (by simp)]
    simpa [accepted] using h
  | refused hi hr =>
    rw [if_neg (by simp)]
    simpa [accepted] using h
  | @queued op hi hc =>
    rw [if_neg (not_or.mpr ⟨init_not_mem_pushCmds op, submit_not_mem_pushCmds op⟩),
      accepted_pushCmds]
    exact slotted_record hm h _
  | filled hi hc =>
    rw [if_pos (Or.inr (List.mem_append_right _ List.mem_cons_self))]
    exact slotted_reset hok rfl
  | finish =>
    rw [if_pos (Or.inr List.mem_cons_self)]
    exact slotted_reset hok rfl

/-- **Pending slots.** In every state that a run of any processes reaches, the slots 1 to
`op_count` hold the records of the calls queued since the last flush or start under the last
numbers handed out, no other slot than 1 to 1024 is used, and `add_pending_op` returns the entry
that it stores. -/
theorem pending_slots (evs : List (BitVec 32 × Event)) :
    let s := tracked.after (initial, []) evs
    Slotted s.1.maps s.2 ∧ s.1.maps.ReturnsEntry := by
  have hinv : ∀ s : Sys × List UringCheckData, s.1.maps.Ok ∧ Slotted s.1.maps s.2 →
      ∀ e, (tracked.step s e).1.maps.Ok ∧ Slotted (tracked.step s e).1.maps (tracked.step s e).2 :=
    fun s hs e => ⟨hook_ok hs.1 e.1 e.2, slotted_step hs.1 hs.2 e.1 e.2⟩
  have hstart : Maps.Ok initial.maps :=
    ⟨(by decide : (0 : BitVec 32).toNat < batchSize), fun _ hk => by simp [initial] at hk⟩
  have hrun := tracked.invariant_trace (s := (initial, []))
    (I := fun _ s => s.1.maps.Ok ∧ Slotted s.1.maps s.2)
    ⟨hstart, slotted_reset hstart rfl⟩ (fun _ s e hs => hinv s hs e) evs
  exact ⟨hrun.2, returnsEntry hrun.1⟩

end ClickhouseUring.Backup
