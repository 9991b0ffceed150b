import ClickhouseUring.Backup.Hooks
import Mathlib.Algebra.BigOperators.Group.Finset.Basic
import Mathlib.Algebra.Order.BigOperators.Group.Finset

/-!
# Several patched processes

Every process has a ring of its own, but `op_count` and `global` are one cell for all of them.
A step is `Undisturbed` when its helpers find a ring, its flush waits as often as the caller has
entries outstanding, and no entry of any process drops out of the count.  That holds throughout
a run exactly when every step is `Separate`: a process resets or flushes the shared counter only
while no other process has calls pending, and patches calls only after its own start.
-/

namespace ClickhouseUring.Backup

open Uring

/-- The processes of a run. -/
def pids (evs : List (BitVec 32 × Event)) : Finset (BitVec 32) := (evs.map Prod.fst).toFinset

/-- All entries outstanding on the rings of `procs`. -/
def total (procs : Finset (BitVec 32)) (rings : BitVec 32 → IoRing IoOp) : ℕ :=
  ∑ p ∈ procs, (rings p).outstanding

/-- The step disturbs no process. -/
structure Undisturbed (procs : Finset (BitVec 32)) (s : Sys) (e : BitVec 32 × Event) : Prop where
  /-- Apart from the one that installs the ring, no helper is called before it. -/
  has_ring : ∀ c ∈ (hook s.maps e.1 e.2).cmds, c = .init ∨ s.inited e.1 = true
  /-- A flush waits once for each entry outstanding on the caller's own ring. -/
  exact_waits : ∀ f ∈ flushes (s.rings e.1) (hook s.maps e.1 e.2).cmds,
    f.waits = f.submitted + f.leftover
  /-- Every outstanding entry is still counted. -/
  counted : total procs (patched.step s e).rings ≤ (patched.step s e).maps.opCount.toNat

/-- No process other than `pid` has an entry outstanding. -/
def Alone (procs : Finset (BitVec 32)) (s : Sys) (pid : BitVec 32) : Prop :=
  ∀ q ∈ procs, q ≠ pid → (s.rings q).outstanding = 0

/-- A process starts, fills a batch or ends only while it is alone, and uses the helpers only
after its own start. -/
def Separate (procs : Finset (BitVec 32)) (s : Sys) : BitVec 32 × Event → Prop
  | (pid, .start) => Alone procs s pid
  | (pid, .call op ret) => Intercepts s.maps op → s.inited pid = true ∧
      (ret = 0 → s.maps.opCount.toNat + 1 = batchSize → Alone procs s pid)
  | (pid, .finish) => s.inited pid = true ∧ Alone procs s pid

/-- The counter is the total of all rings, and nothing is in flight. -/
structure Tallied (procs : Finset (BitVec 32)) (s : Sys) : Prop where
  ok : s.maps.Ok
  reaped : ∀ p, (s.rings p).inflight = 0
  count_eq : s.maps.opCount.toNat = total procs s.rings

theorem tallied_initial (procs : Finset (BitVec 32)) : Tallied procs initial := by
  refine ⟨⟨(by decide : (0 : BitVec 32).toNat < batchSize), fun _ hk => ?_⟩, fun _ => rfl, ?_⟩
  · simp [initial] at hk
  · exact (Finset.sum_eq_zero fun _ _ => rfl).symm

section Total

variable {procs : Finset (BitVec 32)} {s : Sys} {pid : BitVec 32}

theorem total_eq_add (rings : BitVec 32 → IoRing IoOp) (hp : pid ∈ procs) :
    total procs rings = (rings pid).outstanding + total (procs.erase pid) rings :=
  (Finset.add_sum_erase procs (fun p => (rings p).outstanding) hp).symm

/-- A new ring for `pid` leaves the entries of the others alone. -/
theorem total_update (rings : BitVec 32 → IoRing IoOp) (hp : pid ∈ procs) (r : IoRing IoOp) :
    total procs (Function.update rings pid r) =
      r.outstanding + total (procs.erase pid) rings := by
  rw [total_eq_add _ hp, Function.update_self]
  congr 1
  refine Finset.sum_congr rfl fun q hq => ?_
  rw [Function.update_of_ne (Finset.ne_of_mem_erase hq)]

theorem alone_iff : Alone procs s pid ↔ total (procs.erase pid) s.rings = 0 := by
  unfold Alone total
  rw [Finset.sum_eq_zero_iff]
  constructor
  · intro h q hq
    exact h q (Finset.mem_of_mem_erase hq) (Finset.ne_of_mem_erase hq)
  · intro h q hq hne
    exact h q (Finset.mem_erase.mpr ⟨hne, hq⟩)

end Total

section Step

variable {procs : Finset (BitVec 32)} {s : Sys} {pid : BitVec 32}

/-- A step whose helper calls return with ring `r`, nothing in flight, keeps the tally when the
new counter is the length of `r` together with the entries of the others. -/
theorem Tallied.step (hs : Tallied procs s) (hp : pid ∈ procs) {e : Event} {r : IoRing IoOp}
    (hrun : (s.rings pid).run (hook s.maps pid e).cmds = some r) (hr : r.inflight = 0)
    (hc : (hook s.maps pid e).maps.opCount.toNat =
      r.outstanding + total (procs.erase pid) s.rings) :
    Tallied procs (patched.step s (pid, e)) := by
  obtain ⟨hmaps, hrings⟩ := step_of_run hrun
  refine ⟨hmaps ▸ hook_ok hs.ok pid e, fun p => ?_, ?_⟩
  · rw [hrings]
    by_cases h : p = pid
    · subst h; rw [Function.update_self]; exact hr
    · rw [Function.update_of_ne h]; exact hs.reaped p
  · rw [hmaps, hrings, total_update _ hp, hc]

/-- The counter splits into the entries of `pid` and those of the others. -/
theorem Tallied.count_split (hs : Tallied procs s) (hp : pid ∈ procs) :
    s.maps.opCount.toNat = (s.rings pid).outstanding + total (procs.erase pid) s.rings := by
  rw [hs.count_eq, total_eq_add _ hp]

/-- The single flush of a hook that submits ring `r` and then waits `n` times. -/
theorem exact_flush {r : IoRing IoOp} {n : ℕ} :
    (∀ f ∈ flushes r (.submit :: List.replicate n .wait), f.waits = f.submitted + f.leftover) ↔
      n = r.outstanding := by
  rw [flushes_flush]
  simp [IoRing.outstanding]

/-- What an undisturbed step says about the other processes. -/
theorem Undisturbed.separate (hs : Tallied procs s) (hp : pid ∈ procs) {e : Event}
    (h : Undisturbed procs s (pid, e)) : Separate procs s (pid, e) := by
  have hsplit := hs.count_split hp
  have ha := hook_acts hs.ok pid e
  have hring := h.has_ring
  have hexact := h.exact_waits
  have hcounted := h.counted
  have hstart : e = .start → total (procs.erase pid) s.rings ≤
      (patched.step s (pid, e)).maps.opCount.toNat := by
    rintro rfl
    obtain ⟨-, hrings⟩ := @step_of_run s pid .start .empty rfl
    rw [hrings, total_update _ hp] at hcounted
    exact (Nat.le_add_left _ _).trans hcounted
  rw [(show (patched.step s (pid, e)).maps = (hook s.maps pid e).maps from rfl)] at hstart
  simp only at hring hexact
  generalize hook s.maps pid e = o at ha hring hexact hstart
  cases ha with
  | start => exact alone_iff.mpr (Nat.le_zero.mp (hstart rfl))
  | idle hi => exact fun hi' => absurd hi' hi
  | refused hi hr =>
    intro _
    have := hring _ (List.mem_singleton.mpr rfl)
    exact ⟨by simpa using this, fun h0 => absurd h0 hr⟩
  | @queued op hi hc =>
    intro _
    have := hring (.push op true) (by simp [IoOp.pushCmds])
    exact ⟨by simpa using this, fun _ h0 => absurd h0 (by omega)⟩
  | @filled op hi hc =>
    intro _
    have := hring (.push op true) (by simp [IoOp.pushCmds])
    refine ⟨by simpa using this, fun _ _ => ?_⟩
    simp only [flushes_pushCmds] at hexact
    have hn := exact_flush.mp hexact
    rw [IoRing.outstanding_add] at hn
    exact alone_iff.mpr (by omega)
  | finish =>
    have := hring .submit (by simp)
    exact ⟨by simpa using this, alone_iff.mpr (by have := exact_flush.mp hexact; omega)⟩

/-- A separate step disturbs no process and keeps the tally. -/
theorem Separate.undisturbed (hs : Tallied procs s) (hp : pid ∈ procs) {e : Event}
    (h : Separate procs s (pid, e)) :
    Undisturbed procs s (pid, e) ∧ Tallied procs (patched.step s (pid, e)) := by
  have hm := hs.ok
  have hsplit := hs.count_split hp
  -- one goal for each hook: where its helper calls lead, and which flushes they make
  have key : ∀ r, (s.rings pid).run (hook s.maps pid e).cmds = some r → r.inflight = 0 →
      (hook s.maps pid e).maps.opCount.toNat =
        r.outstanding + total (procs.erase pid) s.rings →
      (∀ c ∈ (hook s.maps pid e).cmds, c = .init ∨ s.inited pid = true) →
      (∀ f ∈ flushes (s.rings pid) (hook s.maps pid e).cmds,
        f.waits = f.submitted + f.leftover) →
      Undisturbed procs s (pid, e) ∧ Tallied procs (patched.step s (pid, e)) := by
    intro r hrun hr hc hring hexact
    have ht := hs.step hp hrun hr hc
    exact ⟨⟨hring, hexact, ht.count_eq.ge⟩, ht⟩
  have ha := hook_acts hm pid e
  generalize hook s.maps pid e = o at ha key
  cases ha with
  | start =>
    refine key .empty rfl rfl ?_ (by simp) (by simp [flushes, flushAt, IoRing.exec])
    rw [alone_iff.mp h]; rfl
  | idle hi => exact key _ rfl (hs.reaped pid) hsplit (by simp) (by simp [flushes])
  | refused hi hr =>
    have hini := (h hi).1
    exact key (s.rings pid) rfl (hs.reaped pid) hsplit (by simp [hini])
      (by simp [flushes, flushAt, IoRing.exec])
  | @queued op hi hc =>
    have hini := (h hi).1
    refine key ((s.rings pid).add ⟨op, op.linked⟩) ?_ (hs.reaped pid) ?_ (by simp [hini]) ?_
    · simpa using run_pushCmds (s.rings pid) op []
    · rw [IoRing.outstanding_add, toNat_opCount_record hm]; omega
    · rw [← List.append_nil op.pushCmds, flushes_pushCmds]; simp [flushes]
  | @filled op hi hc =>
    obtain ⟨hini, halone⟩ := h hi
    have hothers := alone_iff.mp (halone rfl hc)
    have hfull : ((s.rings pid).add ⟨op, op.linked⟩).outstanding = batchSize := by
      rw [IoRing.outstanding_add]; omega
    refine key .empty ?_ rfl ?_ (by simp [hini]) ?_
    · rw [run_pushCmds, ← hfull, IoRing.run_flush]
    · rw [hothers]; rfl
    · rw [flushes_pushCmds]; exact exact_flush.mpr hfull.symm
  | finish =>
    obtain ⟨hini, halone⟩ := h
    have hothers := alone_iff.mp halone
    have hcount : s.maps.opCount.toNat = (s.rings pid).outstanding := by omega
    refine key .empty ?_ rfl ?_ (by simp [hini]) (exact_flush.mpr hcount)
    · rw [hcount, IoRing.run_flush]
    · rw [hothers]; rfl

end Step

/-- **Shared counter.** A run of any number of processes disturbs none of them exactly when every
step is separate. -/
theorem undisturbed_iff_separate (evs : List (BitVec 32 × Event)) :
    patched.Steps (Undisturbed (pids evs)) initial evs ↔
      patched.Steps (Separate (pids evs)) initial evs := by
  refine patched.steps_iff (I := Tallied (pids evs)) (E := fun _ e => e.1 ∈ pids evs) ?_ ?_
    (tallied_initial _) (patched.steps_of_forall_mem ?_)
  · rintro s ⟨pid, e⟩ hs hp
    exact ⟨Undisturbed.separate hs hp, fun h => (Separate.undisturbed hs hp h).1⟩
  · rintro s ⟨pid, e⟩ hs hp h
    exact (Separate.undisturbed hs hp h).2
  · intro e he
    exact List.mem_toFinset.mpr (List.mem_map_of_mem he)

/-- Process 1 starts and sends, then process 2 starts and ends: the flush of process 2 waits for
a completion although nothing is on its ring. -/
theorem not_undisturbed_two :
    let evs : List (BitVec 32 × Event) :=
      [(1, .start), (2, .start), (1, .call (.send 3 0 5 0) 0), (2, .finish)]
    ¬ patched.Steps (Undisturbed (pids evs)) initial evs := by
  intro evs h
  have hf := h.2.2.2.1.exact_waits ⟨0, 0, 1⟩ (by decide)
  exact absurd hf (by decide)

end ClickhouseUring.Backup
