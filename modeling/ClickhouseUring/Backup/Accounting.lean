import ClickhouseUring.Backup.Hooks

/-!
# Batch accounting in one process

In every run of the probes of one process `op_count` is the number of entries on its ring, and
every flush waits exactly once for each entry it submits.  `Settled` is the invariant: between
events nothing is in flight and the counter is the length of the queue.
-/

namespace ClickhouseUring.Backup

open Uring

/-- One event leaves the batch of process `e.1` accounted for. -/
structure Accounted (s : Sys) (e : BitVec 32 × Event) : Prop where
  /-- Every wait of the hook returns. -/
  returns : ((s.rings e.1).run (hook s.maps e.1 e.2).cmds).isSome
  /-- Every flush of the hook reaps what it submitted, and no more. -/
  balanced : ∀ f ∈ flushes (s.rings e.1) (hook s.maps e.1 e.2).cmds, f.Balanced
  reaped : ((patched.step s e).rings e.1).inflight = 0
  count_eq : (patched.step s e).maps.opCount.toNat = ((patched.step s e).rings e.1).outstanding
  count_lt : (patched.step s e).maps.opCount.toNat < batchSize

/-- Between events the counter is the length of the queue of `pid`, and nothing is in flight. -/
structure Settled (pid : BitVec 32) (s : Sys) : Prop where
  ok : s.maps.Ok
  reaped : (s.rings pid).inflight = 0
  count_eq : s.maps.opCount.toNat = (s.rings pid).outstanding

theorem settled_initial (pid : BitVec 32) : Settled pid initial :=
  ⟨⟨(by decide : (0 : BitVec 32).toNat < batchSize), fun _ hk => by simp [initial] at hk⟩, rfl,
    rfl⟩

/-- A hook whose helper calls lead to ring `r`, with nothing in flight and the counter equal to
its length, is accounted for once its flushes are. -/
theorem accounted_of_run {s : Sys} {pid : BitVec 32} {e : Event} {r : IoRing IoOp}
    (hm : s.maps.Ok) (hrun : (s.rings pid).run (hook s.maps pid e).cmds = some r)
    (hf : ∀ f ∈ flushes (s.rings pid) (hook s.maps pid e).cmds, f.Balanced)
    (hr : r.inflight = 0) (hc : (hook s.maps pid e).maps.opCount.toNat = r.outstanding) :
    Accounted s (pid, e) := by
  obtain ⟨hmaps, hrings⟩ := step_of_run hrun
  refine ⟨by rw [hrun]; rfl, hf, ?_, ?_, ?_⟩
  · rw [hrings, Function.update_self]; exact hr
  · rw [hmaps, hrings, Function.update_self]; exact hc
  · rw [hmaps]; exact (hook_ok hm pid e).count_lt

/-- **One event.** The hooks keep the batch of a settled process accounted for. -/
theorem accounted_of_settled {s : Sys} {pid : BitVec 32} (hs : Settled pid s) (e : Event) :
    Accounted s (pid, e) := by
  have hm := hs.ok
  have hin := hs.reaped
  have hcount := hs.count_eq
  -- a flush of everything outstanding empties the ring
  have flush_balanced : ∀ (r : IoRing IoOp) (n : ℕ), r.inflight = 0 → n = r.outstanding →
      ∀ f ∈ flushes r (.submit :: List.replicate n .wait), f.Balanced := by
    intro r n h0 hn f hf
    rw [flushes_flush, List.mem_singleton] at hf
    subst hf
    refine ⟨h0, ?_⟩
    rw [hn]; unfold IoRing.outstanding; rw [h0]; rfl
  have h := hook_acts hm pid e
  have hacc : ∀ r, (s.rings pid).run (hook s.maps pid e).cmds = some r → _ :=
    fun r => accounted_of_run (r := r) hm
  generalize hook s.maps pid e = o at h hacc
  cases h with
  | start => exact hacc .empty rfl (by simp [flushes, flushAt, IoRing.exec]) rfl rfl
  | idle h => exact hacc _ rfl (by simp [flushes]) hin hcount
  | refused h hr =>
    exact hacc (s.rings pid) rfl (by simp [flushes, flushAt, IoRing.exec]) hin hcount
  | @queued op h hc =>
    refine hacc ((s.rings pid).add ⟨op, op.linked⟩) ?_ ?_ hin ?_
    · simpa using run_pushCmds (s.rings pid) op []
    · rw [← List.append_nil op.pushCmds, flushes_pushCmds]; simp [flushes]
    · rw [IoRing.outstanding_add, toNat_opCount_record hm, hcount]
  | @filled op h hc =>
    have hfull : ((s.rings pid).add ⟨op, op.linked⟩).outstanding = batchSize := by
      rw [IoRing.outstanding_add, ← hcount, hc]
    refine hacc .empty ?_ ?_ rfl rfl
    · rw [run_pushCmds, ← hfull, IoRing.run_flush]
    · rw [flushes_pushCmds]
      exact flush_balanced _ _ hin hfull.symm
  | finish =>
    refine hacc .empty ?_ (flush_balanced _ _ hin hcount) rfl rfl
    rw [hcount, IoRing.run_flush]

theorem settled_step {s : Sys} {pid : BitVec 32} (hs : Settled pid s) (e : Event) :
    Settled pid (patched.step s (pid, e)) := by
  have h := accounted_of_settled hs e
  exact ⟨hook_ok hs.ok pid e, h.reaped, h.count_eq⟩

/-- **Batch accounting.** In every run of one process, after each event `op_count` is the number
of queued and unreaped entries and below 1024, and every flush waits once for each entry it
submitted. -/
theorem batch_accounting (pid : BitVec 32) (evs : List Event) :
    patched.Steps Accounted initial (evs.map fun e => (pid, e)) := by
  apply patched.steps_of_invariant (I := Settled pid) (E := fun _ e => e.1 = pid) _ _
    (settled_initial pid)
  · apply patched.steps_of_forall_mem
    intro e he
    obtain ⟨_, -, rfl⟩ := List.mem_map.mp he
    rfl
  · rintro s ⟨_, e⟩ hs rfl
    exact accounted_of_settled hs e
  · rintro s ⟨_, e⟩ hs rfl
    exact settled_step hs e

end ClickhouseUring.Backup
