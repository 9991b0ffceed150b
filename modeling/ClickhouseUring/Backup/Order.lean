import ClickhouseUring.Backup.World
import ClickhouseUring.Kit.Reorder

/-!
# Batched and direct execution

The same program runs twice: batched, where the hooks queue its calls and the kernel executes
each submission in some order the link flags permit, and direct, where every call is executed at
once.  Between flushes the direct world is the batched one with the pending calls executed in
program order (`Lag`), so the two agree after a flush as soon as the order of the flush does not
matter.

It matters in one way only: `bpf_recv_patch` does not link its entry, so a receive lets the
kernel start what comes after it first.  A batch is safe when no two conflicting calls have a
receive between them, the first of the two included (`LinkedConflicts`); for any other batch
there are contents and an order for which the two runs differ (`serve_eq_execAll_iff`).
-/

namespace ClickhouseUring.Backup

open Uring Memory

/-- The batched run, and the world of the direct run of the same program. -/
structure Twin where
  maps : Maps
  ring : IoRing IoOp
  batched : World
  direct : World

/-- What the program does.  `ord` is the order in which the kernel executes the submission that
the event makes, should it make one. -/
inductive Deed
  | call (op : IoOp) (ord : List ℕ)
  | finish (ord : List ℕ)
  | store (addr : ℕ) (val : UInt8)

/-- A store of the program. -/
def World.store (w : World) (addr : ℕ) (val : UInt8) : World :=
  { w with mem := Function.update w.mem addr val }

/-- The helper calls of a hook, with a submission executed in the order `ord`. -/
def World.react (env : Env) (ord : List ℕ) (r : IoRing IoOp) (o : Outcome) (w : World) : World :=
  kernel (fun b => serve (perform env) b ord) r o.cmds w

/-- A call whose return value is not overridden is executed natively after its hook. -/
def native (env : Env) (o : Outcome) (op : IoOp) (w : World) : World :=
  if o.override = none then perform env op w else w

/-- The two runs side by side.  The submit helpers queue every call, as they return 0. -/
def twin (env : Env) (pid : BitVec 32) : Machine Twin Deed (Option (BitVec 64)) where
  step s
    | .call op ord =>
      let o := hook s.maps pid (.call op 0)
      ⟨o.maps, (s.ring.run o.cmds).getD s.ring,
        native env o op (s.batched.react env ord s.ring o), perform env op s.direct⟩
    | .finish ord =>
      let o := hook s.maps pid .finish
      ⟨o.maps, (s.ring.run o.cmds).getD s.ring, s.batched.react env ord s.ring o, s.direct⟩
    | .store addr val =>
      { s with batched := s.batched.store addr val, direct := s.direct.store addr val }
  out s
    | .call op _ => [(hook s.maps pid (.call op 0)).override]
    | _ => []

/-- The state after `bpf_start_patch`. -/
def Twin.started (m : Maps) (w : World) : Twin := ⟨(bpfStartPatch m).maps, .empty, w, w⟩

/-- The queue after `op` has joined it. -/
def Twin.with (s : Twin) (op : IoOp) : List (Sqe IoOp) := (s.ring.add ⟨op, op.linked⟩).queued

/-- What the program and the kernel promise: calls on descriptors from 3 on with buffers apart
from those of the pending calls, no store into a pending buffer, and orders that the link flags
permit. -/
def Promise (s : Twin) : Deed → Prop
  | .call op ord => 3 ≤ op.fd ∧ (∀ q ∈ s.ring.queued, Disjoint q.op.region op.region) ∧
      (s.maps.opCount.toNat + 1 = batchSize → Permitted (s.with op) ord)
  | .finish ord => Permitted s.ring.queued ord
  | .store addr _ => ∀ q ∈ s.ring.queued, addr ∉ q.op.region

/-- The batched run has shown the program what the direct run shows it: a call returned its full
length, and the worlds are equal when no call is pending. -/
structure Agrees (env : Env) (pid : BitVec 32) (s : Twin) (d : Deed) : Prop where
  value : ∀ op ord, d = .call op ord →
    (hook s.maps pid (.call op 0)).override = some op.n
  world : ((twin env pid).step s d).ring.queued = [] →
    ((twin env pid).step s d).batched = ((twin env pid).step s d).direct

/-- A positioned read asks for 22 bytes. -/
def IoOp.Reads22 : IoOp → Prop
  | .pread _ _ n _ => n = 22
  | _ => True

/-- In a queue no entry from position `i` up to position `j` is unlinked. -/
def LinkedFrom (b : List (Sqe IoOp)) (i j : ℕ) : Prop :=
  ∀ k, i ≤ k → k < j → b[k]?.map Sqe.link = some true

/-- Conflicting entries of a batch are connected by links. -/
def LinkedConflicts (b : List (Sqe IoOp)) : Prop :=
  ∀ i j p q, i < j → b[i]? = some p → b[j]? = some q → Conflict p.op q.op → LinkedFrom b i j

/-- What the event submits, if it submits, has its conflicts linked. -/
def SubmitsLinked (s : Twin) : Deed → Prop
  | .call op _ => s.maps.opCount.toNat + 1 = batchSize → LinkedConflicts (s.with op)
  | .finish _ => LinkedConflicts s.ring.queued
  | .store _ _ => True

/-- A positioned read asks for 22 bytes, and submissions have their conflicts linked. -/
def Orderly (s : Twin) (d : Deed) : Prop :=
  (∀ op ord, d = .call op ord → op.Reads22) ∧ SubmitsLinked s d

/-! ## One submission -/

/-- The buffers of a batch are pairwise disjoint. -/
def Apart (b : List (Sqe IoOp)) : Prop :=
  b.Pairwise fun p q => Disjoint p.op.region q.op.region

/-- A submission with connected conflicts has the effect of its calls in program order. -/
theorem serve_eq_execAll {env : Env} {b : List (Sqe IoOp)} {ord : List ℕ}
    (ha : Apart b) (hl : LinkedConflicts b) (hp : Permitted b ord) (w : World) :
    serve (perform env) b ord w = execAll (perform env) (b.map Sqe.op) w := by
  refine serve_of_permitted hp ?_ w
  rintro i j p q hij hi hj ⟨k, hik, hkj, hk⟩
  refine perform_comm env ?_ fun hc => ?_
  · obtain ⟨hi', rfl⟩ := List.getElem?_eq_some_iff.mp hi
    obtain ⟨hj', rfl⟩ := List.getElem?_eq_some_iff.mp hj
    exact List.pairwise_iff_getElem.mp ha i j hi' hj' hij
  · have := hl i j p q hij hi hj hc k hik hkj
    rw [hk] at this
    exact Bool.noConfusion (Option.some.inj this)

theorem apart_concat {b : List (Sqe IoOp)} {q : Sqe IoOp} (hb : Apart b)
    (h : ∀ p ∈ b, Disjoint p.op.region q.op.region) : Apart (b ++ [q]) := by
  refine List.pairwise_append.mpr ⟨hb, List.pairwise_singleton _ _, fun p hp r hr => ?_⟩
  rw [List.mem_singleton.mp hr]
  exact h p hp

/-! ## Runs -/

theorem kernel_pushCmds {σ : Type*} (batch : List (Sqe IoOp) → σ → σ) (r : IoRing IoOp)
    (op : IoOp) (cs : List (Cmd IoOp)) (w : σ) :
    kernel batch r (op.pushCmds ++ cs) w = kernel batch (r.add ⟨op, op.linked⟩) cs w := by
  cases op <;> simp [IoOp.pushCmds, IoOp.linked, kernel, IoRing.exec, IoRing.add]

theorem perform_store {env : Env} {op : IoOp} {a : ℕ} (h : a ∉ op.region) (w : World)
    (v : UInt8) : perform env op (w.store a v) = (perform env op w).store a v := by
  cases op with
  | pread fd buf n offset =>
    rw [region_pread] at h
    ext1
    · rw [mem_pread]; exact fill_update _ _ h
    · rfl
    · rfl
  | send fd buf n flags =>
    rw [region_send] at h
    have hb : bytesAt (w.store a v).mem buf.toNat n.toNat = bytesAt w.mem buf.toNat n.toNat :=
      bytesAt_update v h
    ext1
    · rfl
    · rw [sent_send, hb]; rfl
    · rfl
  | recv fd buf n flags =>
    rw [region_recv] at h
    ext1
    · rw [mem_recv]; exact fill_update _ _ h
    · rfl
    · rfl

theorem execAll_store {env : Env} {ops : List IoOp} {a : ℕ} (h : ∀ op ∈ ops, a ∉ op.region)
    (w : World) (v : UInt8) :
    execAll (perform env) ops (w.store a v) = (execAll (perform env) ops w).store a v := by
  induction ops generalizing w with
  | nil => rfl
  | cons op ops ih =>
    obtain ⟨hop, hops⟩ := List.forall_mem_cons.mp h
    show execAll (perform env) ops (perform env op (w.store a v)) = _
    rw [perform_store hop]
    exact ih hops (perform env op w)

theorem overridden_eq_iff {op : IoOp} : op.overridden = op.n ↔ op.Reads22 := by
  cases op with
  | pread fd buf n offset => exact eq_comm
  | send => exact iff_of_true rfl trivial
  | recv => exact iff_of_true rfl trivial

/-- Between events the direct world is the batched one with the pending calls executed. -/
structure Lag (env : Env) (s : Twin) : Prop where
  ok : s.maps.Ok
  global : s.maps.global = true
  reaped : s.ring.inflight = 0
  count_eq : s.maps.opCount.toNat = s.ring.outstanding
  apart : Apart s.ring.queued
  direct_eq : s.direct = execAll (perform env) (s.ring.queued.map Sqe.op) s.batched

theorem lag_started (env : Env) {m : Maps} (hm : m.Ok) (w : World) : Lag env (.started m w) where
  ok := hm.reset _ _
  global := rfl
  reaped := rfl
  count_eq := rfl
  apart := List.Pairwise.nil
  direct_eq := rfl

namespace Lag

variable {env : Env} {pid : BitVec 32} {s : Twin} {op : IoOp}

theorem apart_with (hs : Lag env s) (h : ∀ q ∈ s.ring.queued, Disjoint q.op.region op.region) :
    Apart (s.with op) :=
  apart_concat hs.apart h

/-- Executing the pending calls together with `op` is executing `op` in the direct world. -/
theorem execAll_with (hs : Lag env s) (op : IoOp) :
    execAll (perform env) ((s.with op).map Sqe.op) s.batched = perform env op s.direct := by
  show execAll (perform env) ((s.ring.queued ++ [_]).map Sqe.op) s.batched = _
  rw [List.map_append, execAll_append, ← hs.direct_eq]
  rfl

/-- A call that the ring takes is recorded, and the batch is flushed if that fills it. -/
theorem hook_taken (hs : Lag env s) (pid : BitVec 32) (hfd : 3 ≤ op.fd) :
    (s.maps.opCount.toNat + 1 < batchSize →
      hook s.maps pid (.call op 0) = ⟨s.maps.record (op.toRecord pid), op.pushCmds,
        some op.overridden, op.probeRet⟩) ∧
    (s.maps.opCount.toNat + 1 = batchSize →
      hook s.maps pid (.call op 0) = ⟨{ s.maps.record (op.toRecord pid) with opCount := 0 },
        op.pushCmds ++ .submit :: List.replicate batchSize .wait, some op.overridden,
        op.probeRet⟩) := by
  have ha := hook_acts hs.ok pid (.call op 0)
  generalize hook s.maps pid (.call op 0) = o at ha
  cases ha with
  | idle h => exact absurd ⟨hs.global, hfd⟩ h
  | refused h hr => exact absurd rfl hr
  | queued h hc => exact ⟨fun _ => rfl, fun hfull => absurd hfull (by omega)⟩
  | filled h hc => exact ⟨fun hroom => absurd hroom (by omega), fun _ => rfl⟩

/-- A call that joins the batch is only queued. -/
theorem step_queued (hs : Lag env s) (pid : BitVec 32) (ord : List ℕ) (hfd : 3 ≤ op.fd)
    (hc : s.maps.opCount.toNat + 1 < batchSize) :
    hook s.maps pid (.call op 0) = ⟨s.maps.record (op.toRecord pid), op.pushCmds,
        some op.overridden, op.probeRet⟩ ∧
      (twin env pid).step s (.call op ord) =
        ⟨s.maps.record (op.toRecord pid), s.ring.add ⟨op, op.linked⟩, s.batched,
          perform env op s.direct⟩ := by
  have ho := (hook_taken hs pid hfd).1 hc
  have hrun := run_pushCmds s.ring op []
  have hker := kernel_pushCmds (fun b => serve (perform env) b ord) s.ring op [] s.batched
  rw [List.append_nil] at hrun hker
  refine ⟨ho, ?_⟩
  simp only [twin, World.react, ho, hrun, hker, native, kernel, Option.getD_some, IoRing.run_nil,
    reduceCtorEq, if_false]

/-- The call that fills the batch is queued, and then the batch is executed. -/
theorem step_filled (hs : Lag env s) (pid : BitVec 32) (ord : List ℕ) (hfd : 3 ≤ op.fd)
    (hc : s.maps.opCount.toNat + 1 = batchSize) :
    hook s.maps pid (.call op 0) = ⟨{ s.maps.record (op.toRecord pid) with opCount := 0 },
        op.pushCmds ++ .submit :: List.replicate batchSize .wait, some op.overridden,
        op.probeRet⟩ ∧
      (twin env pid).step s (.call op ord) =
        ⟨{ s.maps.record (op.toRecord pid) with opCount := 0 }, .empty,
          serve (perform env) (s.with op) ord s.batched, perform env op s.direct⟩ := by
  have ho := (hook_taken hs pid hfd).2 hc
  have hall : (s.ring.add ⟨op, op.linked⟩).outstanding = batchSize := by
    rw [IoRing.outstanding_add, ← hs.count_eq, hc]
  have hrun : s.ring.run (op.pushCmds ++ .submit :: List.replicate batchSize .wait) =
      some .empty := by
    rw [run_pushCmds, ← hall, IoRing.run_flush]
  have hker : kernel (fun b => serve (perform env) b ord) s.ring
      (op.pushCmds ++ .submit :: List.replicate batchSize .wait) s.batched =
      serve (perform env) (s.with op) ord s.batched := by
    rw [kernel_pushCmds, kernel_flush]; rfl
  refine ⟨ho, ?_⟩
  simp only [twin, World.react, ho, hrun, hker, native, Option.getD_some, reduceCtorEq, if_false]

theorem step_finish (hs : Lag env s) (pid : BitVec 32) (ord : List ℕ) :
    (twin env pid).step s (.finish ord) =
      ⟨{ s.maps with opCount := 0 }, .empty, serve (perform env) s.ring.queued ord s.batched,
        s.direct⟩ := by
  have hrun : s.ring.run (.submit :: List.replicate s.maps.opCount.toNat .wait) =
      some .empty := by
    rw [hs.count_eq, IoRing.run_flush]
  have hker := kernel_flush (fun b => serve (perform env) b ord) s.ring s.maps.opCount.toNat
    s.batched
  simp only [twin, World.react, hook, bpfEndPatch, handleUnbatchedOps, hrun, hker, Option.getD_some]

/-- A queued call is acknowledged with 22 bytes or with its length. -/
theorem override_eq (hs : Lag env s) (pid : BitVec 32) (hfd : 3 ≤ op.fd) :
    (hook s.maps pid (.call op 0)).override = some op.overridden := by
  have hlt := hs.ok.count_lt
  rcases Nat.lt_or_ge (s.maps.opCount.toNat + 1) batchSize with hc | hc
  · rw [(hs.step_queued pid [] hfd hc).1]
  · rw [(hs.step_filled pid [] hfd (by omega)).1]

/-- **One event.** What is submitted with its conflicts linked leaves both worlds equal. -/
theorem step {d : Deed} (hs : Lag env s) (hp : Promise s d) (hl : SubmitsLinked s d) :
    Lag env ((twin env pid).step s d) := by
  cases d with
  | call op ord =>
    obtain ⟨hfd, hdisj, hord⟩ := hp
    have hlt := hs.ok.count_lt
    have hok := hook_ok hs.ok pid (.call op 0)
    rcases Nat.lt_or_ge (s.maps.opCount.toNat + 1) batchSize with hc | hc
    · obtain ⟨ho, hstep⟩ := hs.step_queued pid ord hfd hc
      rw [ho] at hok
      rw [hstep]
      refine ⟨hok, hs.global, hs.reaped, ?_, hs.apart_with hdisj, (hs.execAll_with op).symm⟩
      rw [IoRing.outstanding_add, toNat_opCount_record hs.ok, hs.count_eq]
    · have hc : s.maps.opCount.toNat + 1 = batchSize := by omega
      obtain ⟨ho, hstep⟩ := hs.step_filled pid ord hfd hc
      rw [ho] at hok
      rw [hstep, serve_eq_execAll (hs.apart_with hdisj) (hl hc) (hord hc), hs.execAll_with]
      exact ⟨hok, hs.global, rfl, rfl, List.Pairwise.nil, rfl⟩
  | finish ord =>
    rw [hs.step_finish, serve_eq_execAll hs.apart hl hp, ← hs.direct_eq]
    exact ⟨hs.ok.reset _ _, hs.global, rfl, rfl, List.Pairwise.nil, rfl⟩
  | store addr val =>
    refine ⟨hs.ok, hs.global, hs.reaped, hs.count_eq, hs.apart, ?_⟩
    show s.direct.store addr val =
      execAll (perform env) (s.ring.queued.map Sqe.op) (s.batched.store addr val)
    rw [execAll_store, ← hs.direct_eq]
    intro op hop
    obtain ⟨q, hq, rfl⟩ := List.mem_map.mp hop
    exact hp q hq

/-- With nothing pending the two worlds are equal. -/
theorem batched_eq_direct (hs : Lag env s) (h : s.ring.queued = []) : s.batched = s.direct := by
  rw [hs.direct_eq, h]
  rfl

theorem agrees {d : Deed} (hs : Lag env s) (hp : Promise s d) (ho : Orderly s d) :
    Agrees env pid s d where
  value := by
    rintro op ord rfl
    rw [hs.override_eq pid hp.1, overridden_eq_iff.mpr (ho.1 op ord rfl)]
  world := (hs.step hp ho.2).batched_eq_direct

end Lag

/-- Runs whose events are all orderly agree with the direct run at every flush. -/
theorem agrees_of_orderly {env : Env} {pid : BitVec 32} {s : Twin} {ds : List Deed}
    (hs : Lag env s)
    (h : (twin env pid).Steps (fun t d => Promise t d ∧ Orderly t d) s ds) :
    (twin env pid).Steps (Agrees env pid) s ds := by
  apply (twin env pid).steps_of_invariant _ _ hs h
  · rintro t d ht ⟨hp, ho⟩
    exact ht.agrees hp ho
  · rintro t d ht ⟨hp, ho⟩
    exact ht.step hp ho.2

end ClickhouseUring.Backup
