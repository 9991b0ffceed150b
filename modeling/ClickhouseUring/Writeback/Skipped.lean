import ClickhouseUring.Writeback.Credits

/-!
# When a wait is skipped

A round of a queue is a row of submits and the wait that ends it.  The counter does not say what
earned its credits: one that arrives after the real wait of its round, or while another queue
waits, pays for a wait whose own inodes are not written back.

An account kept beside the program says it.  A writeback gives a credit, and the inodes of open
rounds that it is the first for earn one each; what remains is nobody's (`Sys.stray`).  Every skip
is justified exactly in the runs in which the credits that a round has not earned never make up for
the inodes that it lacks (`skips_justified_iff`).  Where none is stray, these are the inodes of the
other open rounds that have been written back (`fewForeign_iff_of_prompt`).
-/

namespace ClickhouseUring.Writeback

/-- An inode submitted in the open round of its queue, and whether it has been written back since
then. -/
structure Pending where
  queue : ℕ
  inode : BitVec 64
  written : Bool
deriving DecidableEq, Repr

/-- The program, the open rounds, and the credits that no open round has earned.  These are
negative where one writeback was the first for two pending inodes. -/
structure Sys where
  globals : Globals
  pending : List Pending
  stray : ℤ

/-- The state before the first event. -/
def Sys.start : Sys := ⟨initial, [], 0⟩

/-- The open round of a queue. -/
def Sys.round (s : Sys) (queue : ℕ) : List Pending := s.pending.filter fun p => p.queue = queue

/-- The inodes of the open round of a queue that have been written back. -/
def Sys.written (s : Sys) (queue : ℕ) : ℕ := (s.round queue).countP Pending.written

/-- The inodes of the open round of a queue that have not been written back. -/
def Sys.unwritten (s : Sys) (queue : ℕ) : ℕ := (s.round queue).countP fun p => ¬ p.written

/-- The inodes of the other open rounds that have been written back. -/
def Sys.others (s : Sys) (queue : ℕ) : ℕ :=
  (s.pending.filter fun p => ¬ p.queue = queue).countP Pending.written

/-- The credits that the open round of a queue has not earned: those of the other rounds and the
stray ones. -/
def Sys.foreign (s : Sys) (queue : ℕ) : ℤ := s.others queue + s.stray

/-- What an event does to the open rounds. -/
def follow (pending : List Pending) : Event → List Pending
  | .submit queue _ _ (.inode i) => pending ++ [⟨queue, i, false⟩]
  | .writeback (some i) => pending.map fun p => { p with written := p.written || p.inode = i }
  | .wait queue (some _) => pending.filter fun p => ¬ p.queue = queue
  | _ => pending

/-- What an event does to the stray credits.  A round that is written back in full pays for its
wait with the credits it has earned; any other leaves them behind. -/
def settle (s : Sys) : Event → ℤ
  | .writeback (some i) =>
      s.stray + (if (s.globals.inodeMap.lookup (key i)).isSome then 1 else 0) -
        s.pending.countP fun p => p.inode = i && !p.written
  | .wait queue (some _) =>
      if s.unwritten queue = 0 ∧ 0 ≤ s.foreign queue then s.stray else s.stray + s.written queue
  | _ => s.stray

/-- The program and its account, one event after the other. -/
def rounds : Machine Sys Event Action where
  step s e := ⟨(hook s.globals e).1, follow s.pending e, settle s e⟩
  out s e := (hook s.globals e).2

/-- A wait waits for as many syncs as its round has inodes. -/
def InRounds (s : Sys) : Event → Prop
  | .wait queue (some count) => (s.round queue).length = count.toNat
  | _ => True

instance InRounds.decidable (s : Sys) : DecidablePred (InRounds s)
  | .submit .. => isTrue trivial
  | .writeback _ => isTrue trivial
  | .wait _ none => isTrue trivial
  | .wait _ (some _) => inferInstanceAs (Decidable (_ = _))

/-- A wait is overridden only if every inode of its round has been written back since its
submit. -/
def Justified (s : Sys) : Event → Prop
  | .wait queue uptr => .overrideReturn 0 ∈ (hook s.globals (.wait queue uptr)).2 →
      ∀ p ∈ s.round queue, p.written
  | _ => True

/-- A wait that lacks inodes finds fewer credits that its round has not earned than it lacks
inodes. -/
def FewForeign (s : Sys) : Event → Prop
  | .wait queue (some _) => 0 < s.unwritten queue → s.foreign queue < s.unwritten queue
  | _ => True

instance FewForeign.decidable (s : Sys) : DecidablePred (FewForeign s)
  | .submit .. => isTrue trivial
  | .writeback _ => isTrue trivial
  | .wait _ none => isTrue trivial
  | .wait _ (some _) => inferInstanceAs (Decidable (_ → _))

/-- No credit goes astray: a writeback finds its inode registered exactly when one open round waits
for it, and a wait comes when its round is written back in full or not at all. -/
def Prompt (s : Sys) : Event → Prop
  | .writeback (some i) =>
      (s.pending.countP fun p => p.inode = i && !p.written) =
        if (s.globals.inodeMap.lookup (key i)).isSome then 1 else 0
  | .wait queue (some _) => s.unwritten queue = 0 ∨ s.written queue = 0
  | _ => True

/-- A wait that lacks inodes finds fewer inodes of other open rounds written back than it lacks. -/
def FewOthers (s : Sys) : Event → Prop
  | .wait queue (some _) => 0 < s.unwritten queue → s.others queue < s.unwritten queue
  | _ => True

/-! ## The account -/

/-- The counter is what the open rounds have earned and the stray credits. -/
def Balanced (s : Sys) : Prop :=
  (s.globals.successfulWritebackCount.toNat : ℤ) = s.pending.countP Pending.written + s.stray

/-- The counter has room for a credit. -/
def HasRoom (s : Sys) : Event → Prop
  | .writeback _ => s.globals.successfulWritebackCount.toNat + 1 < 2 ^ 64
  | _ => True

/-- A writeback marks the pending inodes it is the first for. -/
theorem countP_follow_writeback (pending : List Pending) (i : BitVec 64) :
    (follow pending (.writeback (some i))).countP Pending.written =
      pending.countP Pending.written + pending.countP fun p => p.inode = i && !p.written := by
  unfold follow
  induction pending with
  | nil => rfl
  | cons p ps ih =>
    dsimp only at ih ⊢
    rw [List.map_cons, List.countP_cons, List.countP_cons, List.countP_cons, ih]
    cases p.written <;> cases decide (p.inode = i) <;> simp <;> omega

/-- The inodes written back, in the round of a queue and in the others. -/
theorem countP_pending (s : Sys) (queue : ℕ) :
    s.pending.countP Pending.written = s.written queue + s.others queue := by
  rw [List.countP_eq_countP_filter_add s.pending Pending.written fun p => p.queue = queue]
  simp only [Sys.written, Sys.others, Sys.round, decide_not]

theorem length_round (s : Sys) (queue : ℕ) :
    (s.round queue).length = s.written queue + s.unwritten queue :=
  List.length_eq_countP_add_countP Pending.written

theorem unwritten_eq_zero {s : Sys} {queue : ℕ} :
    s.unwritten queue = 0 ↔ ∀ p ∈ s.round queue, p.written := by
  unfold Sys.unwritten
  rw [List.countP_eq_zero]
  simp

section Step

variable {s : Sys}

/-- The credits by what earned them, as a wait of a queue sees them. -/
theorem Balanced.count_eq (hs : Balanced s) (queue : ℕ) :
    (s.globals.successfulWritebackCount.toNat : ℤ) = s.written queue + s.foreign queue := by
  unfold Balanced at hs
  have hsplit := countP_pending s queue
  unfold Sys.foreign
  omega

theorem overrides_iff (g : Globals) (queue : ℕ) (count : BitVec 8) :
    .overrideReturn 0 ∈ (hook g (.wait queue (some count))).2 ↔ ¬ g.Short count := by
  by_cases h : g.Short count
  · simp [hook_short g h, h]
  · simp [hook_covered g h, h]

/-- A wait that lacks inodes is a real one exactly if its round's own credits are missed. -/
theorem short_iff_of_unwritten (hs : Balanced s) {queue : ℕ} {count : BitVec 8}
    (hr : (s.round queue).length = count.toNat) (hlack : 0 < s.unwritten queue) :
    s.globals.Short count ↔ s.foreign queue < s.unwritten queue := by
  have hcount := hs.count_eq queue
  rw [length_round] at hr
  rw [short_iff]
  omega

/-- The hook is right about a wait exactly if foreign credits do not decide it. -/
theorem justified_step (hs : Balanced s) {e : Event} (hr : InRounds s e) :
    Justified s e ↔ FewForeign s e := by
  cases e with
  | submit queue pid fd file => exact Iff.rfl
  | writeback inode => exact Iff.rfl
  | wait queue uptr =>
    cases uptr with
    | none => simp [Justified, FewForeign, hook, enterWaitForQueue]
    | some count =>
      unfold Justified FewForeign
      dsimp only
      rw [overrides_iff, ← unwritten_eq_zero]
      rcases Nat.eq_zero_or_pos (s.unwritten queue) with hfull | hlack
      · simp [hfull]
      · rw [← short_iff_of_unwritten hs hr hlack]
        constructor
        · intro h _
          by_contra hcovered
          exact hlack.ne' (h hcovered)
        · intro h hcovered
          exact absurd (h hlack) hcovered

/-- A writeback gives the credit that its first inodes earn. -/
theorem balanced_writeback (hs : Balanced s) {i : BitVec 64}
    (hroom : HasRoom s (.writeback (some i))) :
    Balanced (rounds.step s (.writeback (some i))) := by
  have hfound : Report.found ⟨s.globals, .writeback (some i), _⟩ ≤ 1 := found_le s.globals _
  have hcount := count_hook s.globals (e := .writeback (some i)) (by
    unfold HasRoom at hroom
    omega)
  unfold Balanced at hs ⊢
  unfold rounds settle
  dsimp only
  rw [countP_follow_writeback]
  simp only [Report.found, Report.skipped] at hcount
  split_ifs at hcount ⊢ <;> omega

/-- A round pays for its wait, or leaves its credits behind. -/
theorem balanced_wait (hs : Balanced s) {queue : ℕ} {count : BitVec 8}
    (hr : (s.round queue).length = count.toNat)
    (hfew : 0 < s.unwritten queue → s.foreign queue < s.unwritten queue) :
    Balanced (rounds.step s (.wait queue (some count))) := by
  have hcount := hs.count_eq queue
  have hforeign : s.foreign queue =
      (s.pending.filter fun p => ¬ p.queue = queue).countP Pending.written + s.stray := rfl
  rw [length_round] at hr
  unfold Balanced rounds follow settle
  dsimp only
  by_cases hshort : s.globals.Short count
  · -- a real wait: the counter is as it was
    rw [hook_short _ hshort]
    rw [short_iff] at hshort
    dsimp only
    split_ifs <;> omega
  · -- the wait is skipped, and its round has earned what it takes
    rw [hook_covered _ hshort]
    rw [short_iff] at hshort
    dsimp only
    rw [BitVec.toNat_sub_of_le, toNat_count]
    · split_ifs <;> omega
    · rw [BitVec.le_def, toNat_count]
      omega

theorem balanced_step (hs : Balanced s) {e : Event} (hr : InRounds s e) (hroom : HasRoom s e)
    (hfew : FewForeign s e) : Balanced (rounds.step s e) := by
  cases e with
  | submit queue pid fd file =>
    cases file with
    | unreadable => exact hs
    | noFile => exact hs
    | noInode => exact hs
    | inode i =>
      unfold Balanced rounds hook hookFunctionForSubmitFd follow
      dsimp only
      rw [List.countP_append]
      exact hs
  | writeback inode =>
    cases inode with
    | none => exact hs
    | some i => exact balanced_writeback hs hroom
  | wait queue uptr =>
    cases uptr with
    | none => exact hs
    | some count => exact balanced_wait hs hr hfew

theorem fewForeign_iff_fewOthers (hs : s.stray = 0) (e : Event) :
    FewForeign s e ↔ FewOthers s e := by
  cases e with
  | submit queue pid fd file => exact Iff.rfl
  | writeback inode => exact Iff.rfl
  | wait queue uptr =>
    cases uptr with
    | none => exact Iff.rfl
    | some count =>
      unfold FewForeign FewOthers Sys.foreign
      dsimp only
      rw [hs, Int.add_zero, Int.ofNat_lt]

theorem settle_of_prompt (hs : s.stray = 0) {e : Event} (h : Prompt s e) : settle s e = 0 := by
  cases e with
  | submit queue pid fd file => exact hs
  | writeback inode =>
    cases inode with
    | none => exact hs
    | some i =>
      unfold Prompt at h
      unfold settle
      dsimp only at h ⊢
      rw [h, hs]
      split_ifs <;> rfl
  | wait queue uptr =>
    cases uptr with
    | none => exact hs
    | some count =>
      have hforeign : 0 ≤ s.foreign queue := by
        unfold Sys.foreign
        omega
      unfold settle
      dsimp only
      rcases h with hfull | hnone
      · rw [if_pos ⟨hfull, hforeign⟩, hs]
      · rw [hs, hnone]
        split_ifs <;> rfl

end Step

/-! ## Runs -/

/-- Without stray credits the condition is about the inodes of the other open rounds. -/
theorem fewForeign_iff_of_prompt {evs : List Event} (hp : rounds.Steps Prompt .start evs) :
    rounds.Steps FewForeign .start evs ↔ rounds.Steps FewOthers .start evs := by
  apply rounds.steps_iff (I := fun s => s.stray = 0) _ _ rfl hp
  · intro s e hs _
    exact fewForeign_iff_fewOthers hs e
  · intro s e hs he _
    exact settle_of_prompt hs he

/-- A run with few writebacks does not fill the counter. -/
theorem hasRoom_of_few {s : Sys} {evs : List Event}
    (h : s.globals.successfulWritebackCount.toNat + evs.countP Event.IsWriteback < 2 ^ 64) :
    rounds.Steps HasRoom s evs := by
  induction evs generalizing s with
  | nil => trivial
  | cons e es ih =>
    have hfound := found_le s.globals e
    rw [List.countP_cons] at h
    simp only [decide_eq_true_eq] at h
    have hcount := count_hook s.globals (e := e) (by omega)
    refine ⟨?_, ih ?_⟩
    · cases e with
      | submit queue pid fd file => trivial
      | wait queue uptr => trivial
      | writeback inode =>
        rw [if_pos (show Event.IsWriteback (.writeback inode) from trivial)] at h
        show _ + 1 < _
        omega
    · show (hook s.globals e).1.successfulWritebackCount.toNat + _ < _
      omega

/-- **Skipped waits.** In a run of rounds with fewer than `2 ^ 64` writebacks, every skipped wait
has its inodes written back exactly if no wait that lacks inodes finds as many credits that its
round has not earned. -/
theorem skips_justified_iff {evs : List Event} (hr : rounds.Steps InRounds .start evs)
    (hfew : evs.countP Event.IsWriteback < 2 ^ 64) :
    rounds.Steps Justified .start evs ↔ rounds.Steps FewForeign .start evs := by
  have hstart : Balanced .start := rfl
  have hroom : rounds.Steps HasRoom .start evs := hasRoom_of_few (by
    show 0 + _ < _
    omega)
  apply rounds.steps_iff (I := Balanced) _ _ hstart (hr.and rounds hroom)
  · intro s e hs he
    exact justified_step hs he.1
  · intro s e hs he hC
    exact balanced_step hs he.1 he.2 hC

/-- One writeback for an inode of two rounds: the first wait is skipped, the second a real one. -/
theorem skips_justified_two_queues :
    rounds.Steps Justified .start [.submit 1 7 3 (.inode 11), .submit 2 7 4 (.inode 11),
      .writeback (some 11), .wait 1 (some 1), .wait 2 (some 1)] := by
  apply (skips_justified_iff (by decide) (by decide)).mpr
  decide

/-- A credit that comes after the real wait of its round skips the next wait. -/
theorem not_justified_late :
    rounds.Steps InRounds .start [.submit 1 7 3 (.inode 11), .wait 1 (some 1),
        .writeback (some 11), .submit 1 7 4 (.inode 12), .wait 1 (some 1)] ∧
      ¬ rounds.Steps Justified .start [.submit 1 7 3 (.inode 11), .wait 1 (some 1),
        .writeback (some 11), .submit 1 7 4 (.inode 12), .wait 1 (some 1)] := by
  constructor
  · decide
  · intro h
    have hwritten := h.2.2.2.2.1 (by decide) ⟨1, 12, false⟩ (by decide)
    exact Bool.noConfusion hwritten

end ClickhouseUring.Writeback
