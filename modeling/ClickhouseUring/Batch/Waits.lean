import ClickhouseUring.Requests

/-!
# How long a flush waits

`batchSubmit` waits 1024 times, however many reads it submits.  One process neither blocks nor
leaves a completion behind exactly if every `batchSubmit` after its first accepted read comes 1024
accepted reads after the last one (`exact_iff`).
-/

namespace ClickhouseUring.Batch

open Uring

/-- What has happened to a process. -/
structure Tally where
  /-- A `readS` has opened the way for reads. -/
  opened : Bool
  /-- A read has been accepted. -/
  ever : Bool
  /-- The reads accepted since the last `batchSubmit`. -/
  reads : ℕ
deriving DecidableEq, Repr

/-- What an event adds. -/
def Tally.next (t : Tally) : Event → Tally
  | .mainEntry => t
  | .readS .. => { t with opened := true }
  | .preadRaw .. => if t.opened then ⟨true, true, t.reads + 1⟩ else t
  | .batchSubmit _ => { t with reads := 0 }

/-- One process, its ring and what has happened to it. -/
structure Process where
  globals : Globals
  ring : IoRing Pread
  tally : Tally

/-- The helper calls among the outputs. -/
def calls (outs : List Output) : List (Cmd Pread) :=
  outs.filterMap fun
    | .helper c => some c
    | _ => none

/-- The helper calls of a probe. -/
def Process.cmds (pid : BitVec 32) (s : Process) (e : Event) : List (Cmd Pread) :=
  calls (hook s.globals pid e).2

/-- The probes of process `pid` with its ring.  A probe that blocks leaves the ring as it was. -/
def process (pid : BitVec 32) : Machine Process Event Unit where
  step s e :=
    ⟨(hook s.globals pid e).1, (s.ring.run (s.cmds pid e)).getD s.ring, s.tally.next e⟩
  out _ _ := []

/-- The state after `main_entry`. -/
def Process.initial : Process := ⟨(mainEntry Batch.initial).1, .empty, ⟨false, false, 0⟩⟩

/-- The probe waits once for each entry queued since the last flush. -/
structure Exact (pid : BitVec 32) (s : Process) (e : Event) : Prop where
  /-- No wait blocks. -/
  returns : (s.ring.run (s.cmds pid e)).isSome
  balanced : ∀ f ∈ flushes s.ring (s.cmds pid e), f.Balanced

/-- A `batchSubmit` after the first accepted read ends a full batch. -/
def FullBatch (s : Process) : Event → Prop
  | .batchSubmit _ => s.tally.ever = true → s.tally.reads = batchSize
  | _ => True

/-- The ring has been initialised before, and the submit helper succeeds. -/
def Ready (e : Event) : Prop := e ≠ .mainEntry ∧ e.Succeeds

/-- The maps and the ring of the process agree with what has happened. -/
structure Matched (pid : BitVec 32) (s : Process) : Prop where
  inflight : s.ring.inflight = 0
  queued : s.ring.queued.length = s.tally.reads
  opened : (s.globals.preadSubmitMap.lookup pid).isSome = s.tally.opened
  ever : (s.globals.fdInfoMap.lookup pid).isSome = s.tally.ever
  /-- Nothing is stored before the first `readS`. -/
  closed : s.tally.opened = false → s.globals.preadSubmitMap.keys = ∅
  keys : s.globals.fdInfoMap.keys ⊆ {pid}
  unread : s.tally.ever = false → s.tally.reads = 0

theorem matched_initial (pid : BitVec 32) : Matched pid .initial :=
  ⟨rfl, rfl, rfl, rfl, fun _ => rfl, Finset.empty_subset _, fun _ => rfl⟩

/-! ## One event -/

section Step

variable {pid : BitVec 32} {s : Process}

theorem calls_report (bytesRead n : BitVec 64) :
    calls (.writeSize bytesRead n :: handleBatchedOps) =
      .submit :: List.replicate batchSize .wait := by
  exact congrArg (Cmd.submit :: ·) (List.filterMap_replicate_of_some rfl)

/-- A flush is exact when the batch is full. -/
theorem exact_flush_iff (hs : Matched pid s) {e : Event}
    (hcmds : s.cmds pid e = .submit :: List.replicate batchSize .wait) :
    Exact pid s e ↔ s.tally.reads = batchSize := by
  have hbalanced : (∀ f ∈ flushes s.ring (s.cmds pid e), f.Balanced) ↔
      s.tally.reads = batchSize := by
    rw [hcmds, flushes_flush, List.forall_mem_singleton, hs.inflight, hs.queued]
    exact ⟨fun h => h.2.symm, fun h => ⟨rfl, h.symm⟩⟩
  constructor
  · intro h
    exact hbalanced.mp h.balanced
  · intro h
    refine ⟨?_, hbalanced.mpr h⟩
    have hout : batchSize = s.ring.outstanding := by
      rw [← h, ← hs.queued, IoRing.outstanding, hs.inflight, Nat.add_zero]
    rw [hcmds, hout, IoRing.run_flush]
    rfl

/-- A probe that neither submits nor waits is exact. -/
theorem exact_of_cmds {e : Event} {r : IoRing Pread} (hrun : s.ring.run (s.cmds pid e) = some r)
    (hflush : flushes s.ring (s.cmds pid e) = []) : Exact pid s e := by
  refine ⟨by rw [hrun]; rfl, fun f hf => ?_⟩
  rw [hflush] at hf
  exact absurd hf List.not_mem_nil

theorem exact_step_iff (hs : Matched pid s) {e : Event} (he : Ready e) :
    Exact pid s e ↔ FullBatch s e := by
  have hacts := hook_acts s.globals pid e
  have hcmds : s.cmds pid e = calls (hook s.globals pid e).2 := rfl
  generalize (hook s.globals pid e).1 = g', (hook s.globals pid e).2 = outs at hacts hcmds
  cases hacts with
  | main => exact absurd rfl he.1
  | readS =>
    have hexact : Exact pid s _ :=
      exact_of_cmds (r := s.ring) (by rw [hcmds]; rfl) (by rw [hcmds]; rfl)
    exact iff_of_true hexact trivial
  | unknown h =>
    have hexact : Exact pid s _ :=
      exact_of_cmds (r := s.ring) (by rw [hcmds]; rfl) (by rw [hcmds]; rfl)
    exact iff_of_true hexact trivial
  | accept h => exact iff_of_true (exact_of_cmds (by rw [hcmds]; rfl) (by rw [hcmds]; rfl)) trivial
  | silent h =>
    refine iff_of_true (exact_of_cmds (r := s.ring) (by rw [hcmds]; rfl) (by rw [hcmds]; rfl)) ?_
    intro hever
    rw [← hs.ever, h] at hever
    exact Bool.noConfusion hever
  | report h =>
    rw [exact_flush_iff hs (by rw [hcmds, calls_report])]
    have hever : s.tally.ever = true := by rw [← hs.ever, h]; rfl
    exact ⟨fun hfull _ => hfull, fun hfull => hfull hever⟩

/-- The first `readS` finds an empty map, the others their entry. -/
theorem Matched.accepts_submit (hs : Matched pid s) : s.globals.preadSubmitMap.Accepts pid := by
  cases hopened : s.tally.opened with
  | true =>
    have hsome := hs.opened
    rw [hopened] at hsome
    exact Or.inl ((HashMap.mem_keys _ pid).mpr hsome)
  | false =>
    apply HashMap.accepts_of_card
    rw [hs.closed hopened]
    decide

theorem Matched.accepts_info (hs : Matched pid s) : s.globals.fdInfoMap.Accepts pid := by
  apply HashMap.accepts_of_card
  have hcard := Finset.card_le_card hs.keys
  rw [Finset.card_singleton] at hcard
  omega

/-- With one process the count of an accepted read goes to its own entry. -/
theorem Matched.count (hs : Matched pid s) (fd : BitVec 32) (toRead : BitVec 64) :
    ((s.globals.count pid fd toRead).lookup pid).isSome ∧
      (s.globals.count pid fd toRead).keys ⊆ {pid} := by
  unfold Globals.count
  cases hfd : s.globals.fdInfoMap.lookup fd with
  | none =>
    refine ⟨by rw [HashMap.lookup_update_self hs.accepts_info]; rfl, ?_⟩
    refine (HashMap.keys_update_subset _ _ _).trans ?_
    exact Finset.insert_subset (Finset.mem_singleton_self pid) hs.keys
  | some i =>
    have hmem : fd ∈ s.globals.fdInfoMap.keys := (HashMap.mem_keys _ fd).mpr (by rw [hfd]; rfl)
    obtain rfl : fd = pid := Finset.mem_singleton.mp (hs.keys hmem)
    refine ⟨?_, hs.keys⟩
    rw [HashMap.lookup_modify_self, hfd]
    rfl

theorem Matched.read (hs : Matched pid s) {info : PreadSubmitInfo}
    (h : s.globals.preadSubmitMap.lookup pid = some info) (fd : BitVec 32) (toRead : BitVec 64)
    (info' : PreadSubmitInfo) (seq : BitVec 32) (op : Pread) :
    Matched pid ⟨{ s.globals with
      globalSeq := seq
      preadSubmitMap := s.globals.submitted pid info'
      fdInfoMap := s.globals.count pid fd toRead }, s.ring.add ⟨op, false⟩,
      ⟨true, true, s.tally.reads + 1⟩⟩ := by
  have hsome : (s.globals.preadSubmitMap.lookup pid).isSome := by rw [h]; rfl
  refine ⟨hs.inflight, ?_, ?_, (hs.count fd toRead).1, fun h => Bool.noConfusion h,
    (hs.count fd toRead).2, fun h => Bool.noConfusion h⟩
  · show (s.ring.queued ++ [_]).length = _
    rw [List.length_append, hs.queued]
    rfl
  · exact HashMap.isSome_lookup_update (HashMap.isSome_lookup_modify hsome pid _) _ _

theorem matched_step (hs : Matched pid s) {e : Event} (he : Ready e) (hfull : FullBatch s e) :
    Matched pid ((process pid).step s e) := by
  have hacts := hook_acts s.globals pid e
  show Matched pid ⟨(hook s.globals pid e).1,
    (s.ring.run (calls (hook s.globals pid e).2)).getD s.ring, s.tally.next e⟩
  generalize (hook s.globals pid e).1 = g', (hook s.globals pid e).2 = outs at hacts
  cases hacts with
  | main => exact absurd rfl he.1
  | readS =>
    refine ⟨hs.inflight, hs.queued, ?_, hs.ever, fun h => Bool.noConfusion h, hs.keys, hs.unread⟩
    show ((s.globals.preadSubmitMap.update pid _).lookup pid).isSome = true
    rw [HashMap.lookup_update_self hs.accepts_submit]
    rfl
  | @unknown fd offset res bpfOverride toRead ret h =>
    have hopened : s.tally.opened = false := by rw [← hs.opened, h]; rfl
    have hnext : s.tally.next (.preadRaw fd offset res bpfOverride toRead ret) = s.tally := by
      unfold Tally.next
      rw [hopened]
      rfl
    rw [hnext]
    exact hs
  | @accept fd offset res bpfOverride toRead ret info h =>
    obtain rfl : ret = 0 := he.2
    have hopened : s.tally.opened = true := by rw [← hs.opened, h]; rfl
    have hnext : s.tally.next (.preadRaw fd offset res bpfOverride toRead 0) =
        ⟨true, true, s.tally.reads + 1⟩ := by
      unfold Tally.next
      rw [hopened]
      rfl
    rw [hnext]
    exact hs.read h fd toRead _ _ _
  | silent h =>
    have hever : s.tally.ever = false := by rw [← hs.ever, h]; rfl
    refine ⟨hs.inflight, ?_, hs.opened, hs.ever, hs.closed, hs.keys, fun _ => rfl⟩
    exact hs.queued.trans (hs.unread hever)
  | report h =>
    have hever : s.tally.ever = true := by rw [← hs.ever, h]; rfl
    have hout : batchSize = s.ring.outstanding := by
      rw [← hfull hever, ← hs.queued, IoRing.outstanding, hs.inflight, Nat.add_zero]
    rw [calls_report, hout, IoRing.run_flush]
    exact ⟨rfl, rfl, hs.opened, hs.ever, hs.closed, hs.keys, fun _ => rfl⟩

end Step

/-! ## Runs -/

/-- **Exact waits.** One process waits once for each entry queued since its last flush throughout
a run in which every `batchSubmit` after the first accepted read ends a batch of 1024, and in no
other. -/
theorem exact_iff (pid : BitVec 32) {evs : List Event} (h : ∀ e ∈ evs, Ready e) :
    (process pid).Steps (Exact pid) .initial evs ↔ (process pid).Steps FullBatch .initial evs := by
  apply (process pid).steps_iff (I := Matched pid) _ _ (matched_initial pid)
    ((process pid).steps_of_forall_mem h)
  · intro s e hs he
    exact exact_step_iff hs he
  · intro s e hs he hfull
    exact matched_step hs he hfull

/-- A read of 8 bytes. -/
def read : Event := .preadRaw 3 0 0 0 8 0

/-- Reads after a `readS` are all accepted. -/
theorem reads_after (pid : BitVec 32) {s : Process} (h : s.tally.opened = true) (n : ℕ) :
    ((process pid).after s (List.replicate n read)).tally.opened = true ∧
      ((process pid).after s (List.replicate n read)).tally.reads = s.tally.reads + n := by
  induction n with
  | zero => exact ⟨h, rfl⟩
  | succ n ih =>
    obtain ⟨hopened, hreads⟩ := ih
    rw [List.replicate_succ', Machine.after_concat]
    generalize (process pid).after s (List.replicate n read) = t at hopened hreads
    show (t.tally.next read).opened = true ∧ (t.tally.next read).reads = s.tally.reads + (n + 1)
    unfold Tally.next read
    dsimp only
    rw [hopened, if_pos rfl]
    exact ⟨rfl, by rw [hreads]; rfl⟩

/-- A full batch. -/
theorem exact_full :
    (process 7).Steps (Exact 7) .initial
      (.readS 8 4096 0 0 :: (List.replicate batchSize read ++ [.batchSubmit 0])) := by
  refine (exact_iff 7 ?_).mpr ⟨trivial, ?_⟩
  · intro e he
    rcases List.mem_cons.mp he with rfl | he
    · exact ⟨Event.noConfusion, trivial⟩
    rcases List.mem_append.mp he with he | he
    · rw [List.eq_of_mem_replicate he]
      exact ⟨Event.noConfusion, rfl⟩
    · rw [List.mem_singleton.mp he]
      exact ⟨Event.noConfusion, trivial⟩
  · rw [Machine.steps_concat]
    constructor
    · apply (process 7).steps_of_forall
      intro fs e gs hes
      have hmem : e ∈ List.replicate batchSize read :=
        hes ▸ List.mem_append_right _ List.mem_cons_self
      rw [List.eq_of_mem_replicate hmem]
      trivial
    · intro _
      have hreads := (reads_after 7
        (s := (process 7).step .initial (.readS 8 4096 0 0)) rfl batchSize).2
      exact hreads.trans (Nat.zero_add _)

/-- After a single read the flush waits for a second completion that never comes. -/
theorem not_exact_single :
    ¬ (process 7).Steps (Exact 7) .initial [.readS 8 4096 0 0, read, .batchSubmit 0] := by
  rintro ⟨-, -, h, -⟩
  have hopen : Matched 7 ((process 7).step .initial (.readS 8 4096 0 0)) :=
    matched_step (matched_initial 7) ⟨Event.noConfusion, trivial⟩ trivial
  have hread := matched_step hopen (e := read) ⟨Event.noConfusion, rfl⟩ trivial
  have hfull := (exact_step_iff hread (e := .batchSubmit 0) ⟨Event.noConfusion, trivial⟩).mp h
  exact absurd (hfull rfl) (by decide)

end ClickhouseUring.Batch
