import ClickhouseUring.WriteBatcher.Hooks

/-!
# Accounting of the write and fsync probes

On a ring with room for 49 entries `current_count` is always the number of entries queued and not
yet reaped, the probes flush exactly at the 49th call since the last flush, and the calls they
acknowledge are the calls they queue, in order.
-/

namespace ClickhouseUring.WriteBatcher

open Uring

/-! ## Reading a run -/

/-- The calls queued in a run, in order. -/
def queuedIn (tr : List Report) : List Call := tr.flatMap fun r => pushed r.cmds

/-- The calls that were told a result without being executed, in order. -/
def acknowledged (tr : List Report) : List Call :=
  tr.filterMap fun r => r.override.map fun _ => r.call

/-- How many completions a run has reaped. -/
def reaped (tr : List Report) : ℕ := (tr.map fun r => waits r.cmds).sum

/-- How many calls a run has queued since its last flush. -/
def sinceFlush (tr : List Report) : ℕ :=
  tr.foldl (fun n r => if .submit ∈ r.cmds then 0 else n + (pushed r.cmds).length) 0

/-- What holds between two calls, after the run `tr`. -/
structure Accounted (tr : List Report) (s : Sys) : Prop where
  /-- The counter is the number of queued and unreaped entries. -/
  count_eq : s.currentCount = s.ring.outstanding
  count_nonneg : 0 ≤ s.currentCount
  count_le : s.currentCount ≤ patchSize
  /-- Every acknowledged call was queued, once and in call order, and no other call was. -/
  acknowledged_queued : queuedIn tr = acknowledged tr
  /-- The acknowledged calls that are not completed are the outstanding ones. -/
  incomplete : (acknowledged tr).length = reaped tr + s.ring.outstanding

/-- What the next call does to the ring, after the run `tr`. -/
structure FlushesAt49 (entries : ℕ) (tr : List Report) (s : Sys) (c : Call) : Prop where
  /-- Every wait of the hook returns. -/
  returns : (s.ring.run (issued entries s c)).isSome
  /-- A hook flushes exactly when it queues the 49th call since the last flush. -/
  flush_iff : flushes s.ring (issued entries s c) ≠ [] ↔
    (hook s.currentCount c).override.isSome ∧ sinceFlush tr + 1 = 49
  /-- A flush waits once for each outstanding entry, and none is left. -/
  exact : ∀ f ∈ flushes s.ring (issued entries s c),
    f.submitted + f.leftover = 49 ∧ f.waits = 49 ∧ ((batcher entries).step s c).ring = .empty

/-! ## One call -/

/-- Nothing is in flight, and the counter is the length of the queue. -/
structure Settled (s : Sys) : Prop where
  reaped : s.ring.inflight = 0
  count_eq : s.currentCount = s.ring.queued.length
  count_le : s.currentCount ≤ patchSize

theorem Settled.outstanding_eq {s : Sys} (hs : Settled s) :
    s.ring.outstanding = s.ring.queued.length := by
  unfold IoRing.outstanding
  rw [hs.reaped, Nat.add_zero]

section Step

variable {entries : ℕ} {s : Sys}

/-- **One call.** A call is left alone, or joins the queue, or as the 49th flushes it. -/
inductive Reacts (entries : ℕ) (s : Sys) (c : Call) : Sys → Report → Prop
  | native (hc : ¬ c.Deferred) : Reacts entries s c s ⟨c, [], none⟩
  | queued (hc : c.Deferred) (h : s.ring.queued.length < 48) :
      Reacts entries s c ⟨s.currentCount + 1, s.ring.add ⟨c, false⟩⟩
        ⟨c, [.push c true], some c.result⟩
  | filled (hc : c.Deferred) (h : s.ring.queued.length = 48) :
      Reacts entries s c ⟨0, .empty⟩
        ⟨c, .push c true :: .submit :: List.replicate 49 .wait, some c.result⟩

/-- A settled batch of 48 and one more call make 49 entries, which a flush reaps. -/
theorem run_filled (hs : Settled s) (hlen : s.ring.queued.length = 48) (c : Call) :
    s.ring.run (.push c true :: .submit :: List.replicate 49 .wait) = some .empty := by
  have hall : (s.ring.add ⟨c, false⟩).outstanding = 49 := by
    rw [IoRing.outstanding_add, hs.outstanding_eq, hlen]
  have hpush : s.ring.exec (.push c true) = some (s.ring.add ⟨c, false⟩) := rfl
  rw [IoRing.run_cons, hpush, Option.bind_some, ← hall, IoRing.run_flush]

theorem resolve_filled (h : 49 ≤ entries) (hs : Settled s) (hlen : s.ring.queued.length = 48)
    (c : Call) : resolve entries s.ring (.push c true :: .submit :: List.replicate 49 .wait) =
      .push c true :: .submit :: List.replicate 49 .wait := by
  have hall : (s.ring.add ⟨c, false⟩).outstanding = 49 := by
    rw [IoRing.outstanding_add, hs.outstanding_eq, hlen]
  rw [resolve_push (by omega), ← hall, resolve_flush]

theorem reacts (h : 49 ≤ entries) (hs : Settled s) (c : Call) :
    ∃ r, (batcher entries).out s c = [r] ∧
      Reacts entries s c ((batcher entries).step s c) r := by
  have hcount := hs.count_eq
  have hle := hs.count_le
  unfold patchSize at hle
  have hroom : s.ring.queued.length < entries := by omega
  refine ⟨_, rfl, ?_⟩
  have ha := hook_acts s.currentCount c
  unfold batcher issued
  dsimp only
  generalize hook s.currentCount c = o at ha
  cases ha with
  | native hc => exact .native hc
  | queued hc hlt =>
    unfold patchSize at hlt
    rw [resolve_push hroom]
    exact .queued hc (by omega)
  | filled hc hge =>
    unfold patchSize at hge
    have hlen : s.ring.queued.length = 48 := by omega
    have hn : (s.currentCount + 1).toNat = 49 := by omega
    rw [hn, resolve_filled h hs hlen, run_filled hs hlen]
    exact .filled hc hlen

theorem settled_step (h : 49 ≤ entries) (hs : Settled s) (c : Call) :
    Settled ((batcher entries).step s c) := by
  obtain ⟨r, -, hr⟩ := reacts h hs c
  generalize (batcher entries).step s c = t at hr
  cases hr with
  | native hc => exact hs
  | queued hc hlt =>
    have hcount := hs.count_eq
    refine ⟨hs.reaped, ?_, ?_⟩
    · rw [hcount, IoRing.add, List.length_append, List.length_singleton]
      rfl
    · unfold patchSize
      show s.currentCount + 1 ≤ 48
      omega
  | filled hc hlen => exact ⟨rfl, rfl, by decide⟩

end Step

theorem settled_started : Settled started := ⟨rfl, rfl, by decide⟩

/-! ## Runs -/

/-- What a run and the state it leads to have in common. -/
structure Tally (tr : List Report) (s : Sys) : Prop where
  settled : Settled s
  acknowledged_queued : queuedIn tr = acknowledged tr
  incomplete : (acknowledged tr).length = reaped tr + s.ring.queued.length
  since : sinceFlush tr = s.ring.queued.length

/-- What one more report adds to a run. -/
theorem reading_concat (tr : List Report) (r : Report) :
    queuedIn (tr ++ [r]) = queuedIn tr ++ pushed r.cmds ∧
      acknowledged (tr ++ [r]) = acknowledged tr ++ (r.override.map fun _ => r.call).toList ∧
      reaped (tr ++ [r]) = reaped tr + waits r.cmds ∧
      sinceFlush (tr ++ [r]) =
        if .submit ∈ r.cmds then 0 else sinceFlush tr + (pushed r.cmds).length := by
  refine ⟨?_, ?_, ?_, ?_⟩
  · simp [queuedIn]
  · cases ho : r.override <;> simp [acknowledged, ho]
  · simp [reaped]
  · simp [sinceFlush]

theorem pushed_filled (c : Call) (n : ℕ) :
    pushed (.push c true :: .submit :: List.replicate n .wait) = [c] := by
  rw [pushed, if_pos rfl, pushed, pushed_replicate_wait]
  · rintro _ _ ⟨⟩

theorem waits_filled (c : Call) (n : ℕ) :
    waits (.push c true :: .submit :: List.replicate n .wait) = n := by
  have h := waits_replicate (α := Call) n
  unfold waits at h ⊢
  rw [List.countP_cons_of_neg (by simp), List.countP_cons_of_neg (by simp), h]

theorem tally_step {entries : ℕ} {tr : List Report} {s : Sys} (h : 49 ≤ entries)
    (ht : Tally tr s) (c : Call) :
    Tally (tr ++ (batcher entries).out s c) ((batcher entries).step s c) := by
  have hsettled := settled_step h ht.settled c
  obtain ⟨r, hout, hr⟩ := reacts h ht.settled c
  obtain ⟨hq, ha, hw, hf⟩ := reading_concat tr r
  have hqueued := ht.acknowledged_queued
  have hinc := ht.incomplete
  have hsince := ht.since
  rw [hout]
  generalize (batcher entries).step s c = t at hr hsettled
  cases hr with
  | native hc =>
    refine ⟨hsettled, ?_, ?_, ?_⟩
    · rw [hq, ha, hqueued]
      rfl
    · rw [ha, hw]
      simpa [waits] using hinc
    · rw [hf]
      simpa [pushed] using hsince
  | queued hc hlt =>
    refine ⟨hsettled, ?_, ?_, ?_⟩
    · rw [hq, ha, hqueued]
      rfl
    · rw [ha, hw]
      simp [waits, IoRing.add, hinc, Nat.add_assoc]
    · rw [hf]
      simp [pushed, IoRing.add, hsince]
  | filled hc hlen =>
    refine ⟨hsettled, ?_, ?_, ?_⟩
    · rw [hq, ha, hqueued, pushed_filled]
      rfl
    · rw [ha, hw, waits_filled, List.length_append, hinc, hlen]
      rfl
    · rw [hf, if_pos (List.mem_cons_of_mem _ List.mem_cons_self)]
      rfl

theorem tally_run {entries : ℕ} (h : 49 ≤ entries) (calls : List Call) :
    Tally ((batcher entries).trace started calls) ((batcher entries).after started calls) := by
  apply (batcher entries).invariant_trace
  · exact ⟨settled_started, rfl, rfl, rfl⟩
  · intro tr s c ht
    exact tally_step h ht c

theorem Tally.accounted {tr : List Report} {s : Sys} (ht : Tally tr s) : Accounted tr s := by
  have hs := ht.settled
  have hcount := hs.count_eq
  refine ⟨?_, by omega, hs.count_le, ht.acknowledged_queued, ?_⟩
  · rw [hs.outstanding_eq, hcount]
  · rw [hs.outstanding_eq, ht.incomplete]

theorem Tally.flushesAt49 {entries : ℕ} {tr : List Report} {s : Sys} (h : 49 ≤ entries)
    (ht : Tally tr s) (c : Call) : FlushesAt49 entries tr s c := by
  have hs := ht.settled
  have hsince := ht.since
  obtain ⟨r, hout, hr⟩ := reacts h hs c
  have hcmds : issued entries s c = r.cmds := congrArg Report.cmds (List.singleton_inj.mp hout)
  have hover : (hook s.currentCount c).override = r.override :=
    congrArg Report.override (List.singleton_inj.mp hout)
  generalize hstep : (batcher entries).step s c = t at hr
  cases hr with
  | native hc =>
    have hnone : flushes s.ring (issued entries s c) = [] := by rw [hcmds]; rfl
    refine ⟨by rw [hcmds]; rfl, ?_, ?_⟩
    · rw [hnone, hover]
      simp
    · rw [hnone]
      exact List.forall_mem_nil _
  | queued hc hlt =>
    have hnone : flushes s.ring (issued entries s c) = [] := by rw [hcmds]; rfl
    refine ⟨by rw [hcmds]; rfl, ?_, ?_⟩
    · rw [hnone, hsince]
      exact iff_of_false (fun h => h rfl) fun h => by omega
    · rw [hnone]
      exact List.forall_mem_nil _
  | filled hc hlen =>
    have hone : flushes s.ring (issued entries s c) = [⟨49, 0, 49⟩] := by
      rw [hcmds, flushes_push, flushes_flush]
      have hlen' : (s.ring.add ⟨c, false⟩).queued.length = 49 := by
        rw [IoRing.add, List.length_append, hlen]
        rfl
      have hin : (s.ring.add ⟨c, false⟩).inflight = 0 := hs.reaped
      rw [hlen', hin]
    refine ⟨by rw [hcmds, run_filled hs hlen]; rfl, ?_, ?_⟩
    · rw [hone, hover, hsince, hlen]
      exact iff_of_true (List.cons_ne_nil _ _) ⟨rfl, rfl⟩
    · rw [hone, hstep]
      intro f hf
      obtain rfl := List.mem_singleton.mp hf
      exact ⟨rfl, rfl, rfl⟩

/-- **Accounting.** On a ring with room for 49 entries, after every run of the `write` and
`fsync` probes the calls are accounted for, and the next call flushes exactly when it is the
49th. -/
theorem write_fsync_accounting {entries : ℕ} (h : 49 ≤ entries) (calls : List Call) :
    Accounted ((batcher entries).trace started calls) ((batcher entries).after started calls) ∧
      ∀ c, FlushesAt49 entries ((batcher entries).trace started calls)
        ((batcher entries).after started calls) c :=
  ⟨(tally_run h calls).accounted, (tally_run h calls).flushesAt49 h⟩

/-- A ring with exactly 49 slots, after a deferred write, a native one and an fsync. -/
theorem write_fsync_accounting_49 :
    let calls : List Call := [.write 3 0 5, .write 3 8 6, .fsync 3]
    Accounted ((batcher 49).trace started calls) ((batcher 49).after started calls) ∧
      ∀ c, FlushesAt49 49 ((batcher 49).trace started calls)
        ((batcher 49).after started calls) c :=
  write_fsync_accounting (by decide) _

end ClickhouseUring.WriteBatcher
