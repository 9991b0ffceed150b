import ClickhouseUring.Backup.Hooks
import ClickhouseUring.Kit.Memory

/-!
# What the intercepted calls do

A `World` is the program's memory together with the byte streams of its descriptors: what has
been sent on each, and how much of what arrives on it has been consumed.  `perform` is a call
that succeeds with its full length.  Two calls on disjoint buffers commute unless both send, or
both receive, at least a byte on one descriptor (`perform_comm`).
-/

namespace ClickhouseUring.Backup

open Memory

/-- What is in the files, and what arrives on the sockets. -/
structure Env where
  file : Int → ℕ → UInt8
  incoming : Int → ℕ → UInt8

@[ext]
structure World where
  mem : ℕ → UInt8
  sent : Int → List UInt8
  consumed : Int → ℕ

/-- The addresses of the call's buffer. -/
def IoOp.region (op : IoOp) : Set ℕ := Set.Ico op.buf.toNat (op.buf.toNat + op.n.toNat)

/-- The call, executed with its full length.  The flags of a `recv` that leave the bytes in the
stream, such as `MSG_PEEK`, are not looked at. -/
def perform (env : Env) (op : IoOp) (w : World) : World :=
  match op with
  | .pread fd buf n offset =>
    { w with mem := fill w.mem buf.toNat n.toNat fun i => env.file fd (offset.toNat + i) }
  | .send fd buf n _ =>
    { w with sent := Function.update w.sent fd (w.sent fd ++ bytesAt w.mem buf.toNat n.toNat) }
  | .recv fd buf n _ =>
    { w with
      mem := fill w.mem buf.toNat n.toNat fun i => env.incoming fd (w.consumed fd + i)
      consumed := Function.update w.consumed fd (w.consumed fd + n.toNat) }

/-- Both calls send, or both receive, at least a byte on the same descriptor. -/
def Conflict : IoOp → IoOp → Prop
  | .send fd _ n _, .send fd' _ n' _ => fd = fd' ∧ n ≠ 0 ∧ n' ≠ 0
  | .recv fd _ n _, .recv fd' _ n' _ => fd = fd' ∧ n ≠ 0 ∧ n' ≠ 0
  | _, _ => False

/-! ## The calls, field by field -/

section Fields

variable (env : Env) (w : World) (fd : Int) (buf n offset : BitVec 64) (flags : Int)

@[simp] theorem region_pread : (IoOp.pread fd buf n offset).region =
    Set.Ico buf.toNat (buf.toNat + n.toNat) := rfl

@[simp] theorem region_send : (IoOp.send fd buf n flags).region =
    Set.Ico buf.toNat (buf.toNat + n.toNat) := rfl

@[simp] theorem region_recv : (IoOp.recv fd buf n flags).region =
    Set.Ico buf.toNat (buf.toNat + n.toNat) := rfl

@[simp] theorem mem_pread : (perform env (.pread fd buf n offset) w).mem =
    fill w.mem buf.toNat n.toNat fun i => env.file fd (offset.toNat + i) := rfl

@[simp] theorem sent_pread : (perform env (.pread fd buf n offset) w).sent = w.sent := rfl

@[simp] theorem consumed_pread :
    (perform env (.pread fd buf n offset) w).consumed = w.consumed := rfl

@[simp] theorem mem_send : (perform env (.send fd buf n flags) w).mem = w.mem := rfl

@[simp] theorem sent_send : (perform env (.send fd buf n flags) w).sent =
    Function.update w.sent fd (w.sent fd ++ bytesAt w.mem buf.toNat n.toNat) := rfl

@[simp] theorem mem_recv : (perform env (.recv fd buf n flags) w).mem =
    fill w.mem buf.toNat n.toNat fun i => env.incoming fd (w.consumed fd + i) := rfl

@[simp] theorem sent_recv : (perform env (.recv fd buf n flags) w).sent = w.sent := rfl

@[simp] theorem consumed_recv : (perform env (.recv fd buf n flags) w).consumed =
    Function.update w.consumed fd (w.consumed fd + n.toNat) := rfl

end Fields

/-- A call changes memory only inside its buffer. -/
theorem mem_perform {env : Env} {op : IoOp} {w : World} {x : ℕ} (hx : x ∉ op.region) :
    (perform env op w).mem x = w.mem x := by
  cases op with
  | pread fd buf n offset => rw [mem_pread]; exact fill_of_notMem _ hx
  | send fd buf n flags => rfl
  | recv fd buf n flags => rw [mem_recv]; exact fill_of_notMem _ hx

/-! ## Calls that commute -/

theorem Conflict.symm {p q : IoOp} (h : Conflict p q) : Conflict q p := by
  cases p <;> cases q <;> simp only [Conflict] at h ⊢
  all_goals exact ⟨h.1.symm, h.2.2, h.2.1⟩

section Comm

variable (env : Env) {fd fd' : Int} {buf n offset buf' n' offset' : BitVec 64}
  {flags flags' : Int}

/-- A send of no bytes does nothing. -/
theorem perform_send_zero (w : World) : perform env (.send fd buf 0 flags) w = w := by
  ext1
  · rfl
  · show Function.update w.sent fd (w.sent fd ++ []) = w.sent
    rw [List.append_nil, Function.update_eq_self]
  · rfl

/-- A receive of no bytes does nothing. -/
theorem perform_recv_zero (w : World) : perform env (.recv fd buf 0 flags) w = w := by
  ext1
  · rw [mem_recv]; exact fill_zero _ _ _
  · rfl
  · show Function.update w.consumed fd (w.consumed fd + 0) = w.consumed
    rw [Nat.add_zero, Function.update_eq_self]

theorem send_comm_pread
    (h : Disjoint (IoOp.send fd buf n flags).region (IoOp.pread fd' buf' n' offset').region) :
    Function.Commute (perform env (.send fd buf n flags))
      (perform env (.pread fd' buf' n' offset')) := by
  intro w
  ext1
  · rfl
  · rw [region_send, region_pread] at h
    rw [sent_send, sent_pread, sent_pread, sent_send, mem_pread, bytesAt_fill _ h.symm]
  · rfl

theorem send_comm_recv
    (h : Disjoint (IoOp.send fd buf n flags).region (IoOp.recv fd' buf' n' flags').region) :
    Function.Commute (perform env (.send fd buf n flags))
      (perform env (.recv fd' buf' n' flags')) := by
  intro w
  ext1
  · rfl
  · rw [region_send, region_recv] at h
    rw [sent_send, sent_recv, sent_recv, sent_send, mem_recv, bytesAt_fill _ h.symm]
  · rfl

theorem pread_comm_recv
    (h : Disjoint (IoOp.pread fd buf n offset).region (IoOp.recv fd' buf' n' flags').region) :
    Function.Commute (perform env (.pread fd buf n offset))
      (perform env (.recv fd' buf' n' flags')) := by
  intro w
  ext1
  · rw [mem_pread, mem_recv, mem_recv, mem_pread, consumed_pread]
    exact fill_comm _ _ h
  · rfl
  · rfl

theorem pread_comm_pread
    (h : Disjoint (IoOp.pread fd buf n offset).region
      (IoOp.pread fd' buf' n' offset').region) :
    Function.Commute (perform env (.pread fd buf n offset))
      (perform env (.pread fd' buf' n' offset')) := by
  intro w
  ext1
  · rw [mem_pread, mem_pread, mem_pread, mem_pread]
    exact fill_comm _ _ h
  · rfl
  · rfl

theorem send_comm_send (h : ¬ Conflict (.send fd buf n flags) (.send fd' buf' n' flags')) :
    Function.Commute (perform env (.send fd buf n flags))
      (perform env (.send fd' buf' n' flags')) := by
  intro w
  by_cases hn : n = 0
  · subst hn; rw [perform_send_zero, perform_send_zero]
  by_cases hn' : n' = 0
  · subst hn'; rw [perform_send_zero, perform_send_zero]
  have hfd : fd ≠ fd' := fun hfd => h ⟨hfd, hn, hn'⟩
  ext1
  · rfl
  · rw [sent_send, sent_send, sent_send, sent_send, mem_send, mem_send,
      Function.update_of_ne hfd, Function.update_of_ne hfd.symm, Function.update_comm hfd]
  · rfl

theorem recv_comm_recv
    (hd : Disjoint (IoOp.recv fd buf n flags).region (IoOp.recv fd' buf' n' flags').region)
    (h : ¬ Conflict (.recv fd buf n flags) (.recv fd' buf' n' flags')) :
    Function.Commute (perform env (.recv fd buf n flags))
      (perform env (.recv fd' buf' n' flags')) := by
  intro w
  by_cases hn : n = 0
  · subst hn; rw [perform_recv_zero, perform_recv_zero]
  by_cases hn' : n' = 0
  · subst hn'; rw [perform_recv_zero, perform_recv_zero]
  have hfd : fd ≠ fd' := fun hfd => h ⟨hfd, hn, hn'⟩
  ext1
  · rw [mem_recv, mem_recv, mem_recv, mem_recv, consumed_recv, consumed_recv,
      Function.update_of_ne hfd, Function.update_of_ne hfd.symm]
    exact fill_comm _ _ hd
  · rfl
  · rw [consumed_recv, consumed_recv, consumed_recv, consumed_recv,
      Function.update_of_ne hfd, Function.update_of_ne hfd.symm, Function.update_comm hfd]

end Comm

/-- **Independent calls.** Calls on disjoint buffers commute unless they conflict. -/
theorem perform_comm (env : Env) {p q : IoOp} (hd : Disjoint p.region q.region)
    (hc : ¬ Conflict p q) : Function.Commute (perform env p) (perform env q) := by
  cases p with
  | pread => cases q with
    | pread => exact pread_comm_pread env hd
    | send => exact (send_comm_pread env hd.symm).symm
    | recv => exact pread_comm_recv env hd
  | send => cases q with
    | pread => exact send_comm_pread env hd
    | send => exact send_comm_send env hc
    | recv => exact send_comm_recv env hd
  | recv => cases q with
    | pread => exact (pread_comm_recv env hd.symm).symm
    | send => exact (send_comm_recv env hd.symm).symm
    | recv => exact recv_comm_recv env hd hc

end ClickhouseUring.Backup
