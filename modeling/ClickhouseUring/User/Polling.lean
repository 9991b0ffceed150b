import ClickhouseUring.User.Consumer

/-!
# Submit records and the reads they submit

Each ring buffer keeps its order, but nothing orders the two.  A submit record finds all earlier
reads of its process on the io_uring ring exactly when no process has had a read accepted and a
batch submitted since the prepare ring was last drained (`InTime`), provided the submission queue
had room for every read.
-/

namespace ClickhouseUring.User

open Uring

/-- Every prepare record that the process emitted before the submit record has become an
entry. -/
def Covered (s : Pipe) (r : Submitted) : Prop :=
  ∀ i info, i < r.mark → s.sent[i]? = some info → info.pid = r.pid → s.made[i]? = some true

/-- `main` is about to handle submit records. -/
def Pipe.AtSubmit (s : Pipe) : Prop := s.stuck = false ∧ s.inSubmit = true

/-- `main` is about to handle prepare records. -/
def Pipe.AtPrepare (s : Pipe) : Prop := s.stuck = false ∧ s.inSubmit = false

/-- Whenever `handle_pread_submit` runs, the record it handles is covered. -/
def Covers (s : Pipe) : Action → Prop
  | .probe .. => True
  | .poll wait => s.AtSubmit → ∀ r ∈ (drainSubmit wait s.consumer 0 s.submitRing).2, Covered s r

/-- In the reports `tr` no process submits after a read of its own. -/
def NoLateSubmit (tr : List Report) : Prop :=
  tr.Pairwise fun r r' => ∀ info ∈ r.prepares, ∀ pid ∈ r'.submits, info.pid ≠ pid

/-- When the submit ring is polled, no process has submitted after a read of its own since the
prepare ring was last drained. -/
def InTime (s : Pipe) : Action → Prop
  | .probe .. => True
  | .poll _ => s.AtSubmit → NoLateSubmit s.window

/-- The submission queue has room for the prepare records that are about to be handled. -/
def HasRoom (s : Pipe) : Action → Prop
  | .probe .. => True
  | .poll _ => s.AtPrepare →
      s.consumer.ring.queued.length + s.prepareRing.length ≤ queueEntries

/-- Every wait of the consumer returns. -/
def Returns (s : Pipe) : Action → Prop
  | .probe .. => True
  | .poll wait => s.AtSubmit → (drainSubmit wait s.consumer 0 s.submitRing).1.isSome

instance : DecidablePred Pipe.AtSubmit := fun s =>
  inferInstanceAs (Decidable (s.stuck = false ∧ s.inSubmit = true))

instance : DecidablePred Pipe.AtPrepare := fun s =>
  inferInstanceAs (Decidable (s.stuck = false ∧ s.inSubmit = false))

instance : DecidablePred NoLateSubmit := fun tr =>
  inferInstanceAs (Decidable (tr.Pairwise _))

instance (s : Pipe) : DecidablePred (HasRoom s)
  | .probe .. => inferInstanceAs (Decidable True)
  | .poll _ => inferInstanceAs (Decidable (s.AtPrepare → _))

instance (s : Pipe) : DecidablePred (InTime s)
  | .probe .. => inferInstanceAs (Decidable True)
  | .poll _ => inferInstanceAs (Decidable (s.AtSubmit → _))

/-! ## Draining a ring -/

/-- With room for all of them every prepare record becomes an entry. -/
theorem drainPrepare_made {c : Consumer} {l : List PreadPrepareInfo}
    (h : c.ring.queued.length + l.length ≤ queueEntries) :
    (drainPrepare c l).2 = List.replicate l.length true := by
  induction l generalizing c with
  | nil => rfl
  | cons info l ih =>
    rw [List.length_cons] at h
    have hsqe : decide (c.ring.queued.length < queueEntries) = true := decide_eq_true (by omega)
    have hlen : (processPreadPrepareInfo c info true).ring.queued.length =
        c.ring.queued.length + 1 := by
      show (c.ring.queued ++ [_]).length = _
      rw [List.length_append, List.length_singleton]
    rw [drainPrepare, hsqe, List.length_cons, List.replicate_succ]
    exact congrArg (true :: ·) (ih (by rw [hlen]; omega))

/-- The handlers that start are those of the first records, and of all when none blocks. -/
theorem drainSubmit_started (wait : ℕ → ℕ → Option Int) (c : Consumer) (k : ℕ)
    (l : List Submitted) :
    (drainSubmit wait c k l).2 <+: l ∧
      ((drainSubmit wait c k l).1.isSome → (drainSubmit wait c k l).2 = l) := by
  induction l generalizing c k with
  | nil => exact ⟨List.prefix_refl _, fun _ => rfl⟩
  | cons r l ih =>
    unfold drainSubmit
    cases h : processPreadSubmitInfo c r.pid (wait k) with
    | none => exact ⟨⟨l, rfl⟩, fun hn => Bool.noConfusion hn⟩
    | some d =>
      obtain ⟨c', code⟩ := d
      obtain ⟨hpre, hall⟩ := ih c' (k + 1)
      exact ⟨List.cons_prefix_cons.mpr ⟨rfl, hpre⟩, fun hs => congrArg (r :: ·) (hall hs)⟩

/-! ## The submit records of a window -/

/-- The submit records that the reports of a window put on the ring, when `n` prepare records
were emitted before it. -/
def stamps (n : ℕ) : List Report → List Submitted
  | [] => []
  | r :: w => r.submits.map (⟨·, n⟩) ++ stamps (n + r.prepares.length) w

theorem stamps_concat (n : ℕ) (w : List Report) (r : Report) :
    stamps n (w ++ [r]) =
      stamps n w ++ r.submits.map (⟨·, n + (preparesOf w).length⟩) := by
  induction w generalizing n with
  | nil => exact List.append_nil _
  | cons r' w ih =>
    have hlen : n + (preparesOf (r' :: w)).length =
        n + r'.prepares.length + (preparesOf w).length := by
      rw [preparesOf, List.flatMap_cons, List.length_append, Nat.add_assoc]
      rfl
    rw [List.cons_append, stamps, ih, stamps, List.append_assoc, hlen]

theorem preparesOf_concat (w : List Report) (r : Report) :
    preparesOf (w ++ [r]) = preparesOf w ++ r.prepares := by
  unfold preparesOf
  rw [List.flatMap_append, List.flatMap_singleton]

/-- A submit record of a window is preceded in it by no read of its process exactly when no
process submits late. -/
theorem stamps_clear_iff (n : ℕ) (w : List Report) (rest : List PreadPrepareInfo) :
    (∀ r ∈ stamps n w, ∀ info ∈ (preparesOf w ++ rest).take (r.mark - n), info.pid ≠ r.pid) ↔
      NoLateSubmit w := by
  induction w using List.reverseRecOn generalizing rest with
  | nil => exact iff_of_true (List.forall_mem_nil _) List.Pairwise.nil
  | append_singleton w r ih =>
    have hlast : ∀ pid, (preparesOf w ++ (r.prepares ++ rest)).take
        ((⟨pid, n + (preparesOf w).length⟩ : Submitted).mark - n) = preparesOf w := by
      intro pid
      show (preparesOf w ++ _).take (n + (preparesOf w).length - n) = _
      rw [Nat.add_sub_cancel_left, List.take_left]
    rw [stamps_concat, preparesOf_concat, List.append_assoc, List.forall_mem_append,
      ih (r.prepares ++ rest), List.forall_mem_map]
    unfold NoLateSubmit
    rw [List.pairwise_append, and_iff_right (List.pairwise_singleton _ _)]
    refine and_congr_right fun _ => ?_
    constructor
    · intro h r' hr' r'' hr'' info hinfo pid hpid
      rw [List.mem_singleton.mp hr''] at hpid
      have hmem : info ∈ preparesOf w := List.mem_flatMap.mpr ⟨r', hr', hinfo⟩
      exact h pid hpid info (by rw [hlast]; exact hmem)
    · intro h pid hpid info hinfo
      rw [hlast] at hinfo
      obtain ⟨r', hr', hinfo⟩ := List.mem_flatMap.mp hinfo
      exact h r' hr' r List.mem_cons_self info hinfo pid hpid

/-! ## The system between two steps -/

/-- The handled prepare records all became entries, and the others are on the ring. -/
structure Handled (s : Pipe) : Prop where
  made_eq : s.made = List.replicate s.made.length true
  sent_eq : ∃ handled, handled.length = s.made.length ∧ s.sent = handled ++ s.prepareRing
  marks : ∀ r ∈ s.submitRing, r.mark ≤ s.sent.length

/-- At its second poll `main` faces the submit records of the window, after records whose reads
were all handled. -/
def Faces (s : Pipe) : Prop :=
  s.inSubmit = true → s.prepareRing = preparesOf s.window ∧
    ∃ old, (∀ r ∈ old, r.mark ≤ s.made.length) ∧
      s.submitRing = old ++ stamps s.made.length s.window

theorem handled_initial : Handled .initial :=
  ⟨rfl, ⟨[], rfl, rfl⟩, List.forall_mem_nil _⟩

theorem faces_initial : Faces .initial := fun h => Bool.noConfusion h

section Step

variable {s : Pipe}

theorem Handled.length_sent (hs : Handled s) :
    s.sent.length = s.made.length + s.prepareRing.length := by
  obtain ⟨handled, hlen, hsent⟩ := hs.sent_eq
  rw [hsent, List.length_append, hlen]

/-- A submit record is covered when none of the reads before it that still wait belongs to its
process. -/
theorem Handled.covered_iff (hs : Handled s) (r : Submitted) :
    Covered s r ↔ ∀ info ∈ s.prepareRing.take (r.mark - s.made.length), info.pid ≠ r.pid := by
  obtain ⟨handled, hlen, hsent⟩ := hs.sent_eq
  constructor
  · intro hc info hinfo hpid
    obtain ⟨j, hj, hget⟩ := List.mem_take_iff_getElem.mp hinfo
    have hjr : j < s.prepareRing.length := by omega
    have hsome : s.sent[s.made.length + j]? = some info := by
      rw [hsent, ← hlen, List.getElem?_append_right (Nat.le_add_right _ _),
        Nat.add_sub_cancel_left, List.getElem?_eq_getElem hjr, hget]
    have hmade := hc _ info (by omega) hsome hpid
    rw [List.getElem?_eq_none (Nat.le_add_right _ _)] at hmade
    exact absurd hmade (by simp)
  · intro hc i info hi hsome hpid
    by_cases him : i < s.made.length
    · rw [hs.made_eq, List.getElem?_replicate, if_pos him]
    · rw [hsent, List.getElem?_append_right (by omega)] at hsome
      refine absurd hpid (hc info (List.mem_iff_getElem?.mpr ⟨i - handled.length, ?_⟩))
      rw [List.getElem?_take, if_pos (by omega), hsome]

theorem handled_emit (hs : Handled s) (g : Globals) (r : Report) : Handled (s.emit g r) := by
  obtain ⟨handled, hlen, hsent⟩ := hs.sent_eq
  refine ⟨hs.made_eq, ⟨handled, hlen, ?_⟩, ?_⟩
  · show s.sent ++ r.prepares = handled ++ (s.prepareRing ++ r.prepares)
    rw [hsent, List.append_assoc]
  · intro q hq
    show q.mark ≤ (s.sent ++ r.prepares).length
    rw [List.length_append]
    rcases List.mem_append.mp hq with hq | hq
    · exact (hs.marks q hq).trans (Nat.le_add_right _ _)
    · obtain ⟨pid, -, rfl⟩ := List.mem_map.mp hq
      exact Nat.le_add_right _ _

theorem faces_emit (hs : Handled s) (hf : Faces s) (g : Globals) (r : Report) :
    Faces (s.emit g r) := by
  intro hin
  obtain ⟨hring, old, hold, hsub⟩ := hf hin
  refine ⟨?_, old, hold, ?_⟩
  · show s.prepareRing ++ r.prepares = preparesOf (s.window ++ [r])
    rw [hring, preparesOf_concat]
  · show s.submitRing ++ r.submits.map (⟨·, s.sent.length⟩) =
      old ++ stamps s.made.length (s.window ++ [r])
    rw [hsub, stamps_concat, List.append_assoc, hs.length_sent, hring]

/-- A poll that finds the prepare ring empty changes nothing; otherwise every read it handles
becomes an entry. -/
theorem handled_pollPrepare (hs : Handled s) (hf : Faces s)
    (hroom : s.consumer.ring.queued.length + s.prepareRing.length ≤ queueEntries) :
    Handled s.pollPrepare ∧ Faces s.pollPrepare := by
  unfold Pipe.pollPrepare
  by_cases hnil : s.prepareRing = []
  · rw [if_pos hnil]
    exact ⟨hs, hf⟩
  · rw [if_neg hnil]
    dsimp only
    rw [drainPrepare_made hroom]
    have hlen : (s.made ++ List.replicate s.prepareRing.length true).length = s.sent.length := by
      rw [List.length_append, List.length_replicate, hs.length_sent]
    constructor
    · refine ⟨?_, ⟨s.sent, hlen.symm, (List.append_nil _).symm⟩, hs.marks⟩
      show s.made ++ _ = _
      rw [List.length_append, List.length_replicate, ← List.replicate_append_replicate,
        ← hs.made_eq]
    · intro _
      refine ⟨rfl, s.submitRing, ?_, (List.append_nil _).symm⟩
      intro r hr
      show r.mark ≤ (s.made ++ List.replicate s.prepareRing.length true).length
      rw [hlen]
      exact hs.marks r hr

theorem handled_pollSubmit (hs : Handled s) (hf : Faces s) (wait : ℕ → ℕ → Option Int) :
    Handled (s.pollSubmit wait) ∧ Faces (s.pollSubmit wait) := by
  unfold Pipe.pollSubmit
  split
  · exact ⟨hs, hf⟩
  · split
    · exact ⟨⟨hs.made_eq, hs.sent_eq, hs.marks⟩, hf⟩
    · exact ⟨⟨hs.made_eq, hs.sent_eq, List.forall_mem_nil _⟩,
        fun h => Bool.noConfusion h⟩

/-- **One step.** While the submission queue has room the system stays in order. -/
theorem handled_step (hs : Handled s ∧ Faces s) {a : Action} (hroom : HasRoom s a) :
    Handled (pipe.step s a) ∧ Faces (pipe.step s a) := by
  obtain ⟨hs, hf⟩ := hs
  cases a with
  | probe pid e => exact ⟨handled_emit hs _ _, faces_emit hs hf _ _⟩
  | poll wait =>
    show Handled (if s.stuck then s else if s.inSubmit then s.pollSubmit wait
      else s.pollPrepare) ∧ Faces (if s.stuck then s else if s.inSubmit then s.pollSubmit wait
      else s.pollPrepare)
    cases hstuck : s.stuck with
    | true => exact ⟨hs, hf⟩
    | false =>
      cases hin : s.inSubmit with
      | true => exact handled_pollSubmit hs hf wait
      | false => exact handled_pollPrepare hs hf (hroom ⟨hstuck, hin⟩)

/-- The submit records that `main` faces are covered exactly when no process submitted late. -/
theorem covered_iff_noLateSubmit (hs : Handled s) (hf : Faces s) (hat : s.AtSubmit) :
    (∀ r ∈ s.submitRing, Covered s r) ↔ NoLateSubmit s.window := by
  obtain ⟨hring, old, hold, hsub⟩ := hf hat.2
  have hclear := stamps_clear_iff s.made.length s.window []
  rw [List.append_nil, ← hring] at hclear
  rw [← hclear, hsub, List.forall_mem_append]
  simp only [hs.covered_iff]
  refine and_iff_right fun r hr info hinfo => ?_
  rw [Nat.sub_eq_zero_of_le (hold r hr), List.take_zero] at hinfo
  exact absurd hinfo List.not_mem_nil

theorem covers_of_inTime (hs : Handled s ∧ Faces s) {a : Action} (ht : InTime s a) :
    Covers s a := by
  cases a with
  | probe pid e => trivial
  | poll wait =>
    intro hat r hr
    have hmem := (drainSubmit_started wait s.consumer 0 s.submitRing).1.mem hr
    exact (covered_iff_noLateSubmit hs.1 hs.2 hat).mpr (ht hat) r hmem

theorem covers_iff_inTime (hs : Handled s ∧ Faces s) {a : Action} (hr : Returns s a) :
    Covers s a ↔ InTime s a := by
  cases a with
  | probe pid e => exact Iff.rfl
  | poll wait =>
    refine imp_congr_right fun hat => ?_
    rw [(drainSubmit_started wait s.consumer 0 s.submitRing).2 (hr hat)]
    exact covered_iff_noLateSubmit hs.1 hs.2 hat

end Step

/-! ## Runs -/

/-- **Submit records and reads.** When the submission queue has room and no process submits late,
every submit record finds all earlier reads of its process on the io_uring ring; and in runs whose
waits all return and whose submission queue has room, it does so only then. -/
theorem covers_of_inTime_runs (as : List Action) :
    (pipe.Steps (fun s a => HasRoom s a ∧ InTime s a) .initial as →
      pipe.Steps Covers .initial as) ∧
    (pipe.Steps (fun s a => HasRoom s a ∧ Returns s a) .initial as →
      (pipe.Steps Covers .initial as ↔ pipe.Steps InTime .initial as)) := by
  constructor
  · intro h
    apply pipe.steps_of_invariant (I := fun s => Handled s ∧ Faces s) _ _
      ⟨handled_initial, faces_initial⟩ h
    · intro s a hs ha
      exact covers_of_inTime hs ha.2
    · intro s a hs ha
      exact handled_step hs ha.1
  · intro h
    refine pipe.steps_iff (I := fun s => Handled s ∧ Faces s)
      (E := fun s a => HasRoom s a ∧ Returns s a) ?_ ?_ ⟨handled_initial, faces_initial⟩ h
    · intro s a hs ha
      exact covers_iff_inTime hs ha.2
    · intro s a hs ha _
      exact handled_step hs ha.1

/-- A read that is handled before its process submits. -/
theorem covers_one_read :
    pipe.Steps Covers .initial
      [.probe 1 (.readS true 8 0 0), .probe 1 (.preadRaw 3 0 0 0 8), .poll fun _ _ => some 8,
        .probe 1 (.batchSubmit 0), .poll fun _ _ => some 8] :=
  (covers_of_inTime_runs _).1 (by decide)

/-- A second read and the submission that follows it both happen after the prepare ring was
drained: the submission is handled before the read. -/
theorem not_covers_late_submit :
    ¬ pipe.Steps Covers .initial
      [.probe 1 (.readS true 8 0 0), .probe 1 (.preadRaw 3 0 0 0 8), .poll fun _ _ => some 8,
        .probe 1 (.preadRaw 3 8 0 0 8), .probe 1 (.batchSubmit 0), .poll fun _ _ => some 8] := by
  intro h
  have hmade := h.2.2.2.2.2.1 ⟨rfl, rfl⟩ ⟨1, 2⟩ (by decide) 1 (recordOf 1 1 3 8 8) (by decide)
    rfl rfl
  exact absurd hmade (by decide)

end ClickhouseUring.User
