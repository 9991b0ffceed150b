import ClickhouseUring.Batch.Waits

/-!
# The probes as `batch.c` attaches them

`batch.c` attaches `main_entry` to the probe `batchSubmit` of ClickHouse and to no other, next to
the program `batchSubmit` itself.  There is no ring before the first batch, and it is made anew at
every batch, before the program that flushes it or after it, whichever of the two runs first.

`deployed_iff` says in which runs of one process every probe returns.  A read that is accepted
before the first batch calls a helper on a ring that nobody has made.  With the ring made first no
read is ever handed to the kernel, and the first batch after a read blocks for good.
-/

namespace ClickhouseUring.Batch

open Uring

/-- Which of the two programs at `batchSubmit` runs first. -/
inductive Order
  | submitFirst
  | initFirst
  deriving DecidableEq, Repr

/-- The programs that run when a process comes to a probe. -/
def fire (o : Order) (g : Globals) (pid : BitVec 32) : Event → Globals × List Output
  | .mainEntry => (g, [])
  | .batchSubmit bytesRead =>
    match o with
    | .submitFirst =>
      let r := batchSubmit g pid bytesRead
      ((mainEntry r.1).1, r.2 ++ (mainEntry r.1).2)
    | .initFirst =>
      let r := batchSubmit (mainEntry g).1 pid bytesRead
      (r.1, (mainEntry g).2 ++ r.2)
  | e => hook g pid e

/-- A process with the probes attached. -/
inductive Attached
  /-- All probes have returned; there is no ring before the first `io_uring_init_global`. -/
  | running (globals : Globals) (ring : Option (IoRing Pread))
  /-- A wait has never returned. -/
  | blocked
  /-- A helper was to use the ring before it was made.  What it does then is not in the
  repository. -/
  | ringless

/-- What the helper calls of a probe lead to. -/
def Attached.serve (g : Globals) : Option (IoRing Pread) → List (Cmd Pread) → Attached
  | none, [] => .running g none
  | none, .init :: cs => (IoRing.empty.run cs).elim .blocked fun ring => .running g (some ring)
  | none, _ :: _ => .ringless
  | some ring, cs => (ring.run cs).elim .blocked fun ring => .running g (some ring)

/-- The flushes among the helper calls of a probe. -/
def served : Option (IoRing Pread) → List (Cmd Pread) → List Flush
  | none, .init :: cs => flushes IoRing.empty cs
  | none, _ => []
  | some ring, cs => flushes ring cs

/-- One process.  Nothing comes after a wait that never returns, or a call without a ring. -/
def deployed (o : Order) (pid : BitVec 32) : Machine Attached Event Flush where
  step
    | .running g ring, e => .serve (fire o g pid e).1 ring (calls (fire o g pid e).2)
    | .blocked, _ => .blocked
    | .ringless, _ => .ringless
  out
    | .running g ring, e => served ring (calls (fire o g pid e).2)
    | _, _ => []

/-- Before the first probe. -/
def Attached.start : Attached := .running Batch.initial none

/-- Every probe has returned. -/
def Attached.Returned : Attached → Prop
  | .running _ _ => True
  | _ => False

/-- What has happened to a process, and whether a batch has made its ring. -/
structure History extends Tally where
  made : Bool
deriving DecidableEq, Repr

/-- Nothing has happened. -/
def History.start : History := ⟨⟨false, false, 0⟩, false⟩

/-- What an event adds, a read only when the submit helper queued it. -/
def History.count (t : History) : Event → History
  | .mainEntry => t
  | .readS .. => { t with opened := true }
  | .preadRaw _ _ _ _ _ ret =>
    if t.opened then { t with ever := true, reads := t.reads + if ret = 0 then 1 else 0 } else t
  | .batchSubmit _ => { t with reads := 0, made := true }

/-- The flush of a batch, if there is one. -/
def History.flush (o : Order) (t : History) : Event → List Flush
  | .batchSubmit _ =>
    if t.ever then [⟨if o = .submitFirst then t.reads else 0, 0, batchSize⟩] else []
  | _ => []

/-- What has happened and what it makes the process flush, without the probes. -/
def history (o : Order) : Machine History Event Flush := ⟨History.count, History.flush o⟩

/-- No read is accepted before the first batch. -/
def AfterBatch (t : History) : Event → Prop
  | .preadRaw .. => t.opened = true → t.made = true
  | _ => True

/-- A batch after the first accepted read has 1024 reads on the ring that is flushed. -/
def Flushes (o : Order) (t : History) : Event → Prop
  | .batchSubmit _ => t.ever = true → o = .submitFirst ∧ batchSize ≤ t.reads
  | _ => True

/-- The maps and the ring agree with what has happened.  Nothing is in flight between two probes. -/
structure Agrees (pid : BitVec 32) (g : Globals) (ring : Option (IoRing Pread)) (t : History) :
    Prop where
  made : ring.isSome = t.made
  unmade : t.made = false → t.ever = false
  inflight : ∀ r, ring = some r → r.inflight = 0
  queued : ∀ r, ring = some r → r.queued.length = t.reads
  maps : Matched pid ⟨g, .empty, ⟨t.opened, t.ever, 0⟩⟩

theorem agrees_start (pid : BitVec 32) : Agrees pid Batch.initial none .start where
  made := rfl
  unmade _ := rfl
  inflight _ h := Option.noConfusion rfl (heq_of_eq h)
  queued _ h := Option.noConfusion rfl (heq_of_eq h)
  maps := ⟨rfl, rfl, rfl, rfl, fun _ => rfl, Finset.empty_subset _, fun _ => rfl⟩

section Step

variable {o : Order} {pid : BitVec 32} {g : Globals} {ring : Option (IoRing Pread)} {t : History}

/-- A probe without helper calls. -/
theorem deployed_step_nil {e : Event} (h : calls (fire o g pid e).2 = []) :
    (deployed o pid).step (.running g ring) e = .running (fire o g pid e).1 ring := by
  show Attached.serve _ ring (calls (fire o g pid e).2) = _
  rw [h]
  cases ring <;> rfl

/-- A probe on a ring. -/
theorem deployed_step_some {e : Event} {r : IoRing Pread} :
    (deployed o pid).step (.running g (some r)) e =
      (r.run (calls (fire o g pid e).2)).elim .blocked fun r' =>
        .running (fire o g pid e).1 (some r') := rfl

/-- What the program at `preadRaw` does is the same in either order. -/
theorem fire_preadRaw_acts (o : Order) (g : Globals) (pid fd : BitVec 32)
    (offset res bpfOverride toRead : BitVec 64) (ret : BitVec 32) :
    Acts g pid (.preadRaw fd offset res bpfOverride toRead ret)
      (fire o g pid (.preadRaw fd offset res bpfOverride toRead ret)).1
      (fire o g pid (.preadRaw fd offset res bpfOverride toRead ret)).2 :=
  hook_acts _ _ _

theorem Agrees.lookup_ne_none (hs : Agrees pid g ring t) (hopened : t.opened = true) :
    g.preadSubmitMap.lookup pid ≠ none := by
  intro h
  have hclosed := hs.maps.opened
  rw [h, hopened] at hclosed
  exact Bool.noConfusion hclosed

theorem Agrees.ring_of_made (hs : Agrees pid g ring t) (hmade : t.made = true) :
    ∃ r, ring = some r :=
  Option.isSome_iff_exists.mp (hs.made.trans hmade)

theorem Agrees.ever_eq_false (hs : Agrees pid g ring t) (h : g.fdInfoMap.lookup pid = none) :
    t.ever = false := by
  rw [← hs.maps.ever, h]
  rfl

/-- A process with an entry has read after a batch, which has made its ring. -/
theorem Agrees.ring_of_info {i : FdInfo} (hs : Agrees pid g ring t)
    (h : g.fdInfoMap.lookup pid = some i) : t.ever = true ∧ ∃ r, ring = some r := by
  have hever : t.ever = true := by
    rw [← hs.maps.ever, h]
    rfl
  refine ⟨hever, hs.ring_of_made ?_⟩
  by_contra hmade
  rw [hs.unmade (by simpa using hmade)] at hever
  exact Bool.noConfusion hever

/-- The flag that `main_entry` sets is in no map. -/
theorem Agrees.init (hs : Agrees pid g ring t) :
    Agrees pid (mainEntry g).1 (some .empty) { t with reads := 0, made := true } where
  made := rfl
  unmade h := Bool.noConfusion h
  inflight _ h := Option.some.inj h ▸ rfl
  queued _ h := Option.some.inj h ▸ rfl
  maps := ⟨hs.maps.inflight, hs.maps.queued, hs.maps.opened, hs.maps.ever, hs.maps.closed,
    hs.maps.keys, hs.maps.unread⟩

theorem Agrees.readS (hs : Agrees pid g ring t) (n toBuf isOverridden bytesCopied : BitVec 64) :
    ∃ g', (deployed o pid).step (.running g ring) (.readS n toBuf isOverridden bytesCopied) =
        .running g' ring ∧
      Agrees pid g' ring (t.count (.readS n toBuf isOverridden bytesCopied)) := by
  refine ⟨_, deployed_step_nil rfl, hs.made, hs.unmade, hs.inflight, hs.queued, ?_⟩
  exact matched_step hs.maps (e := .readS n toBuf isOverridden bytesCopied)
    ⟨Event.noConfusion, trivial⟩ trivial

/-- A read that is accepted after the first batch goes on the ring. -/
theorem Agrees.accept (hs : Agrees pid g ring t) (hopened : t.opened = true)
    (hmade : t.made = true) (fd : BitVec 32) (offset res bpfOverride toRead : BitVec 64)
    (ret : BitVec 32) :
    ∃ g' ring', (deployed o pid).step (.running g ring)
        (.preadRaw fd offset res bpfOverride toRead ret) = .running g' ring' ∧
      Agrees pid g' ring' (t.count (.preadRaw fd offset res bpfOverride toRead ret)) := by
  obtain ⟨r, rfl⟩ := hs.ring_of_made hmade
  have hacts := fire_preadRaw_acts o g pid fd offset res bpfOverride toRead ret
  have hstep := @deployed_step_some o pid g (.preadRaw fd offset res bpfOverride toRead ret) r
  generalize (fire o g pid (.preadRaw fd offset res bpfOverride toRead ret)).1 = g',
    (fire o g pid (.preadRaw fd offset res bpfOverride toRead ret)).2 = outs at hacts hstep
  cases hacts with
  | unknown h => exact absurd h (hs.lookup_ne_none hopened)
  | @accept _ _ _ _ _ _ info h =>
    have hmaps := hs.maps.read h fd toRead (info.complete fd g.globalSeq toRead ret)
      (g.globalSeq + 1) ⟨fd, info.dest, toRead, 0⟩
    have hmaps' : Matched pid ⟨_, .empty, ⟨true, true, 0⟩⟩ := ⟨rfl, rfl, hmaps.opened, hmaps.ever,
      hmaps.closed, hmaps.keys, fun h => Bool.noConfusion h⟩
    refine ⟨_, _, hstep, ?_⟩
    rw [History.count, if_pos hopened, hopened]
    by_cases hret : ret = 0
    · simp only [hret, decide_true, if_true]
      refine ⟨hs.made, fun h => Bool.noConfusion (h.symm.trans hmade), ?_, ?_, hret ▸ hmaps'⟩
      · rintro _ ⟨⟩
        exact hs.inflight r rfl
      · rintro _ ⟨⟩
        show (r.queued ++ [_]).length = _
        rw [List.length_append, hs.queued r rfl]
        rfl
    · simp only [hret, decide_false, if_false]
      exact ⟨hs.made, fun h => Bool.noConfusion (h.symm.trans hmade), hs.inflight, hs.queued,
        hmaps'⟩

/-- A read that is accepted before the first batch finds no ring. -/
theorem Agrees.ringless (hs : Agrees pid g ring t) (hopened : t.opened = true)
    (hmade : t.made = false) (fd : BitVec 32) (offset res bpfOverride toRead : BitVec 64)
    (ret : BitVec 32) :
    (deployed o pid).step (.running g ring) (.preadRaw fd offset res bpfOverride toRead ret) =
      .ringless := by
  obtain rfl : ring = none := by
    rw [← Option.isNone_iff_eq_none, ← Option.not_isSome, hs.made, hmade]
    rfl
  have hacts := fire_preadRaw_acts o g pid fd offset res bpfOverride toRead ret
  show Attached.serve (fire o g pid (.preadRaw fd offset res bpfOverride toRead ret)).1 none
    (calls (fire o g pid (.preadRaw fd offset res bpfOverride toRead ret)).2) = _
  generalize (fire o g pid (.preadRaw fd offset res bpfOverride toRead ret)).1 = g',
    (fire o g pid (.preadRaw fd offset res bpfOverride toRead ret)).2 = outs at hacts
  cases hacts with
  | unknown h => exact absurd h (hs.lookup_ne_none hopened)
  | accept h => rfl

/-- A read is accepted only after a `readS`. -/
theorem Agrees.refuse (hs : Agrees pid g ring t) (hopened : t.opened = false) (fd : BitVec 32)
    (offset res bpfOverride toRead : BitVec 64) (ret : BitVec 32) :
    (deployed o pid).step (.running g ring) (.preadRaw fd offset res bpfOverride toRead ret) =
        .running g ring ∧
      t.count (.preadRaw fd offset res bpfOverride toRead ret) = t := by
  have hlookup : g.preadSubmitMap.lookup pid = none := by
    rw [← Option.isNone_iff_eq_none, ← Option.not_isSome, hs.maps.opened, hopened]
    rfl
  have hfire : fire o g pid (.preadRaw fd offset res bpfOverride toRead ret) =
      (g, [.writeFlag bpfOverride true]) := by
    unfold fire hook Batch.preadRaw
    rw [hlookup]
  refine ⟨?_, ?_⟩
  · rw [deployed_step_nil (by rw [hfire]; rfl), hfire]
  · rw [History.count, hopened]
    rfl

/-- Making the ring anew before the flush leaves nothing to wait for. -/
theorem run_init_flush (r : IoRing Pread) :
    r.run (.init :: .submit :: List.replicate batchSize .wait) = none := by
  have hinit : r.exec .init = some .empty := rfl
  have hsubmit : (IoRing.empty : IoRing Pread).exec .submit = some .empty := rfl
  rw [IoRing.run_cons, hinit, Option.bind_some, IoRing.run_cons, hsubmit, Option.bind_some,
    IoRing.run_waits, if_neg (by decide)]

/-- Making it anew after the flush asks for a full batch. -/
theorem run_flush_init (r : IoRing Pread) (h : r.inflight = 0) :
    r.run (.submit :: List.replicate batchSize .wait ++ [.init]) =
      if batchSize ≤ r.queued.length then some .empty else none := by
  have hsubmit : r.exec .submit = some ⟨[], r.queued.length⟩ := by
    rw [IoRing.exec, h, Nat.zero_add]
  rw [IoRing.run_append, IoRing.run_cons, hsubmit, Option.bind_some, IoRing.run_waits]
  split_ifs with hle
  · rfl
  · rfl

theorem calls_append (outs outs' : List Output) :
    calls (outs ++ outs') = calls outs ++ calls outs' :=
  List.filterMap_append

/-- The helper calls of a batch. -/
theorem calls_fire_batchSubmit (o : Order) (g : Globals) (pid : BitVec 32) (bytesRead : BitVec 64) :
    calls (fire o g pid (.batchSubmit bytesRead)).2 =
      match g.fdInfoMap.lookup pid, o with
      | none, _ => [.init]
      | some _, .submitFirst => .submit :: List.replicate batchSize .wait ++ [.init]
      | some _, .initFirst => .init :: .submit :: List.replicate batchSize .wait := by
  have hmain : (mainEntry g).1.fdInfoMap.lookup pid = g.fdInfoMap.lookup pid := rfl
  cases hlookup : g.fdInfoMap.lookup pid with
  | none =>
    cases o with
    | submitFirst => simp only [fire, batchSubmit, hlookup]; rfl
    | initFirst => simp only [fire, batchSubmit, hmain, hlookup]; rfl
  | some i =>
    cases o with
    | submitFirst =>
      simp only [fire, batchSubmit, hlookup]
      rw [calls_append, calls_report]
      rfl
    | initFirst =>
      simp only [fire, batchSubmit, hmain, hlookup]
      rw [calls_append, calls_report]
      rfl

theorem fire_batchSubmit_fst (o : Order) (g : Globals) (pid : BitVec 32) (bytesRead : BitVec 64) :
    (fire o g pid (.batchSubmit bytesRead)).1 = (mainEntry g).1 := by
  have hmain : (mainEntry g).1.fdInfoMap.lookup pid = g.fdInfoMap.lookup pid := rfl
  cases o with
  | submitFirst => unfold fire batchSubmit; cases g.fdInfoMap.lookup pid <;> rfl
  | initFirst =>
    unfold fire batchSubmit
    dsimp only
    rw [hmain]
    cases g.fdInfoMap.lookup pid <;> rfl

/-- A batch returns exactly when the ring that is flushed holds 1024 reads, or there was no read
to wait for. -/
theorem Agrees.batchSubmit (hs : Agrees pid g ring t) (bytesRead : BitVec 64) :
    (deployed o pid).step (.running g ring) (.batchSubmit bytesRead) =
      if t.ever = true → o = .submitFirst ∧ batchSize ≤ t.reads then
        .running (mainEntry g).1 (some .empty)
      else .blocked := by
  have hcalls := calls_fire_batchSubmit o g pid bytesRead
  have hfst := fire_batchSubmit_fst o g pid bytesRead
  cases hlookup : g.fdInfoMap.lookup pid with
  | none =>
    have hever : t.ever = false := hs.ever_eq_false hlookup
    rw [hlookup] at hcalls
    rw [hever, if_pos (fun h => Bool.noConfusion h)]
    show Attached.serve _ ring (calls (fire o g pid (.batchSubmit bytesRead)).2) = _
    rw [hcalls, hfst]
    cases ring <;> rfl
  | some i =>
    obtain ⟨hever, r, rfl⟩ := hs.ring_of_info hlookup
    rw [hlookup] at hcalls
    rw [deployed_step_some, hfst, hcalls]
    simp only [hever, true_imp_iff]
    cases o with
    | submitFirst =>
      have hrun := run_flush_init r (hs.inflight r rfl)
      rw [hs.queued r rfl] at hrun
      dsimp only
      rw [hrun]
      by_cases hle : batchSize ≤ t.reads
      · rw [if_pos hle, if_pos ⟨rfl, hle⟩]
        rfl
      · rw [if_neg hle, if_neg (fun h => hle h.2)]
        rfl
    | initFirst =>
      dsimp only
      rw [run_init_flush r, if_neg (fun h => Order.noConfusion h.1)]
      rfl

/-- A probe returns and keeps the agreement when it finds its ring and flushes a full one; without
a full one it blocks, and from then on there is a ring. -/
theorem Agrees.step (hs : Agrees pid g ring t) (e : Event) :
    (AfterBatch t e ∧ Flushes o t e ∧ ∃ g' ring',
        (deployed o pid).step (.running g ring) e = .running g' ring' ∧
          Agrees pid g' ring' (t.count e)) ∨
      (AfterBatch t e ∧ ¬ Flushes o t e ∧ (t.count e).made = true ∧
        (deployed o pid).step (.running g ring) e = .blocked) ∨
      (¬ AfterBatch t e ∧ (deployed o pid).step (.running g ring) e = .ringless) := by
  cases e with
  | mainEntry => exact .inl ⟨trivial, trivial, g, ring, deployed_step_nil rfl, hs⟩
  | readS n toBuf isOverridden bytesCopied =>
    obtain ⟨g', hstep, hs'⟩ := hs.readS n toBuf isOverridden bytesCopied
    exact .inl ⟨trivial, trivial, g', ring, hstep, hs'⟩
  | preadRaw fd offset res bpfOverride toRead ret =>
    cases hopened : t.opened with
    | false =>
      obtain ⟨hstep, ht⟩ := hs.refuse (o := o) hopened fd offset res bpfOverride toRead ret
      refine .inl ⟨fun h => Bool.noConfusion (hopened.symm.trans h), trivial, g, ring, hstep, ?_⟩
      rw [ht]
      exact hs
    | true =>
      cases hmade : t.made with
      | false =>
        refine .inr (.inr ⟨fun h => ?_, hs.ringless hopened hmade fd offset res bpfOverride toRead
          ret⟩)
        exact Bool.noConfusion (hmade.symm.trans (h hopened))
      | true =>
        exact .inl ⟨fun _ => hmade, trivial,
          hs.accept hopened hmade fd offset res bpfOverride toRead ret⟩
  | batchSubmit bytesRead =>
    rw [hs.batchSubmit]
    by_cases h : Flushes o t (.batchSubmit bytesRead)
    · exact .inl ⟨trivial, h, _, _, if_pos h, hs.init⟩
    · exact .inr (.inl ⟨trivial, h, rfl, if_neg h⟩)

/-- A read is flushed by no probe but `batchSubmit`. -/
theorem out_eq_nil {e : Event} (he : ∀ bytesRead, e ≠ .batchSubmit bytesRead) :
    (deployed o pid).out (.running g ring) e = [] := by
  show served ring (calls (fire o g pid e).2) = []
  cases e with
  | mainEntry => cases ring <;> rfl
  | readS => cases ring <;> rfl
  | preadRaw fd offset res bpfOverride toRead ret =>
    have hacts := fire_preadRaw_acts o g pid fd offset res bpfOverride toRead ret
    generalize (fire o g pid (.preadRaw fd offset res bpfOverride toRead ret)).1 = g',
      (fire o g pid (.preadRaw fd offset res bpfOverride toRead ret)).2 = outs at hacts
    cases hacts with
    | unknown => cases ring <;> rfl
    | accept => cases ring <;> rfl
  | batchSubmit bytesRead => exact absurd rfl (he bytesRead)

/-- A probe flushes what the history says. -/
theorem Agrees.out (hs : Agrees pid g ring t) (e : Event) :
    (deployed o pid).out (.running g ring) e = t.flush o e := by
  cases e with
  | batchSubmit bytesRead =>
    have hcalls := calls_fire_batchSubmit o g pid bytesRead
    show served ring (calls (fire o g pid (.batchSubmit bytesRead)).2) = _
    cases hlookup : g.fdInfoMap.lookup pid with
    | none =>
      have hever : t.ever = false := hs.ever_eq_false hlookup
      rw [hlookup] at hcalls
      rw [hcalls, History.flush, hever]
      cases ring <;> rfl
    | some i =>
      obtain ⟨hever, r, rfl⟩ := hs.ring_of_info hlookup
      rw [hlookup] at hcalls
      rw [hcalls, History.flush, hever, if_pos rfl]
      cases o with
      | submitFirst =>
        show flushes r _ = _
        rw [flushes_concat_init, flushes_flush, hs.inflight r rfl, hs.queued r rfl, if_pos rfl]
      | initFirst => exact flushes_flush IoRing.empty batchSize
  | _ => exact out_eq_nil fun _ => Event.noConfusion

end Step

/-! ## Runs -/

/-- A process that has stopped stays so and flushes nothing more. -/
theorem deployed_stopped {s : Attached} (hs : s = .blocked ∨ s = .ringless) (o : Order)
    (pid : BitVec 32) (evs : List Event) :
    (deployed o pid).after s evs = s ∧ (deployed o pid).trace s evs = [] := by
  induction evs with
  | nil => exact ⟨rfl, rfl⟩
  | cons e evs ih =>
    obtain rfl | rfl := hs
    · exact ih
    · exact ih

/-- Once there is a ring, every read finds it. -/
theorem afterBatch_of_made (o : Order) {t : History} (ht : t.made = true) (evs : List Event) :
    (history o).Steps AfterBatch t evs := by
  have hall : (history o).Steps (fun _ _ => True) t evs :=
    (history o).steps_of_forall fun _ _ _ _ => trivial
  refine (history o).steps_of_invariant (I := fun t => t.made = true) ?_ ?_ ht hall
  · intro t e ht _
    cases e with
    | preadRaw => exact fun _ => ht
    | _ => trivial
  · intro t e ht _
    cases e with
    | preadRaw fd offset res bpfOverride toRead ret =>
      show (if t.opened then _ else t).made = true
      split_ifs <;> exact ht
    | batchSubmit => rfl
    | _ => exact ht

/-- How a run ends, and what it flushes as far as it goes. -/
theorem Agrees.run {o : Order} {pid : BitVec 32} {g : Globals} {ring : Option (IoRing Pread)}
    {t : History} (hs : Agrees pid g ring t) (evs : List Event) :
    (((deployed o pid).after (.running g ring) evs).Returned ↔
        (history o).Steps (fun t e => AfterBatch t e ∧ Flushes o t e) t evs) ∧
      ((deployed o pid).after (.running g ring) evs = .ringless ↔
        ¬ (history o).Steps AfterBatch t evs) ∧
      (((deployed o pid).after (.running g ring) evs).Returned →
        (deployed o pid).trace (.running g ring) evs = (history o).trace t evs) ∧
      (deployed o pid).trace (.running g ring) evs <+: (history o).trace t evs := by
  induction evs generalizing g ring t with
  | nil =>
    refine ⟨iff_of_true trivial trivial, iff_of_false ?_ (fun h => h trivial), fun _ => rfl,
      List.prefix_rfl⟩
    exact Attached.noConfusion
  | cons e evs ih =>
    have hout : (deployed o pid).out (.running g ring) e = (history o).out t e := hs.out e
    rw [Machine.after_cons, Machine.steps_cons, Machine.steps_cons, Machine.trace_cons,
      Machine.trace_cons, hout]
    obtain ⟨hafter, hflush, g', ring', hstep, hs'⟩ | ⟨hafter, hflush, hmade, hstep⟩ |
      ⟨hafter, hstep⟩ := hs.step (o := o) e
    · obtain ⟨hret, hless, heq, hpre⟩ := ih hs'
      rw [hstep]
      exact ⟨hret.trans (and_iff_right ⟨hafter, hflush⟩).symm,
        hless.trans (not_congr (and_iff_right hafter).symm), fun h => congrArg _ (heq h),
        (List.prefix_append_right_inj _).mpr hpre⟩
    · obtain ⟨hstay, hnil⟩ := deployed_stopped (.inl rfl) o pid evs
      rw [hstep, hstay, hnil, List.append_nil]
      refine ⟨iff_of_false id fun h => hflush h.1.2, iff_of_false Attached.noConfusion ?_,
        False.elim, List.prefix_append _ _⟩
      exact fun h => h ⟨hafter, afterBatch_of_made o hmade evs⟩
    · obtain ⟨hstay, hnil⟩ := deployed_stopped (.inr rfl) o pid evs
      rw [hstep, hstay, hnil, List.append_nil]
      exact ⟨iff_of_false id fun h => hafter h.1.1, iff_of_true rfl fun h => hafter h.1,
        False.elim, List.prefix_append _ _⟩

/-- With the ring made first no flush has anything to submit. -/
theorem submitted_eq_zero (t : History) (evs : List Event) :
    ∀ f ∈ (history .initFirst).trace t evs, f.submitted = 0 := by
  refine (history .initFirst).invariant_trace (I := fun tr _ => ∀ f ∈ tr, f.submitted = 0)
    (List.forall_mem_nil _) ?_ evs
  intro tr t e htr f hf
  obtain hf | hf := List.mem_append.mp hf
  · exact htr f hf
  · cases e with
    | batchSubmit bytesRead =>
      change f ∈ if t.ever = true then [⟨0, 0, batchSize⟩] else [] at hf
      split_ifs at hf
      · rw [List.mem_singleton.mp hf]
      · exact absurd hf List.not_mem_nil
    | _ => exact absurd hf List.not_mem_nil

/-- **The deployed probes.**  A run of one process comes to a helper call without a ring exactly
when a read is accepted before the first batch.  It returns exactly when none is and every batch
after the first accepted read flushes at least 1024 reads queued since the last batch, which happens
only with the flush first; it then flushes all of these, each time with 1024 waits.  With the ring
made first nothing is ever submitted, in a run that returns or not. -/
theorem deployed_iff (o : Order) (pid : BitVec 32) (evs : List Event) :
    ((deployed o pid).after .start evs = .ringless ↔
      ¬ (history o).Steps AfterBatch .start evs) ∧
    (((deployed o pid).after .start evs).Returned ↔
      (history o).Steps (fun t e => AfterBatch t e ∧ Flushes o t e) .start evs) ∧
    (((deployed o pid).after .start evs).Returned →
      (deployed o pid).trace .start evs = (history o).trace .start evs) ∧
    (o = .initFirst → ∀ f ∈ (deployed o pid).trace .start evs, f.submitted = 0) := by
  obtain ⟨hret, hless, heq, hpre⟩ := (agrees_start pid).run (o := o) evs
  refine ⟨hless, hret, heq, ?_⟩
  rintro rfl f hf
  exact submitted_eq_zero _ evs f (hpre.subset hf)

end ClickhouseUring.Batch
