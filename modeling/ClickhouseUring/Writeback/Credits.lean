import ClickhouseUring.Writeback.Hooks
import Mathlib.Algebra.BigOperators.Group.List.Basic

/-!
# What earns a credit and what takes it

Over the naturals the counter is the number of writebacks that found their inode registered, less
the syncs of the waits that were skipped (`count_eq_found_sub_skipped`): the guard of the wait hook
keeps the subtraction from wrapping.

An inode is found under the low half of its number.  A writeback earns a credit exactly for the
inodes submitted before it when no submitted inode shares its low half with another one that is
written back (`onlyRegistered_iff`).
-/

namespace ClickhouseUring.Writeback

/-- What a hook saw and did. -/
structure Report where
  globals : Globals
  event : Event
  actions : List Action

/-- The program, reporting every hook. -/
def program : Machine Globals Event Report where
  step g e := (hook g e).1
  out g e := [⟨g, e, (hook g e).2⟩]

@[simp] theorem program_step (g : Globals) (e : Event) : program.step g e = (hook g e).1 := rfl

@[simp] theorem program_out (g : Globals) (e : Event) :
    program.out g e = [⟨g, e, (hook g e).2⟩] := rfl

/-! ## Conservation -/

/-- The event is a writeback. -/
def Event.IsWriteback : Event → Prop
  | .writeback _ => True
  | _ => False

instance : DecidablePred Event.IsWriteback
  | .writeback _ => isTrue trivial
  | .submit .. => isFalse id
  | .wait .. => isFalse id

/-- Whether the hook was a writeback that found its inode registered. -/
def Report.found (r : Report) : ℕ :=
  match r.event with
  | .writeback (some i) => if (r.globals.inodeMap.lookup (key i)).isSome then 1 else 0
  | _ => 0

/-- The syncs that the hook skipped. -/
def Report.skipped (r : Report) : ℕ :=
  match r.event with
  | .wait _ (some count) => if .overrideReturn 0 ∈ r.actions then count.toNat else 0
  | _ => 0

/-- The writebacks that found their inode registered. -/
def found (rs : List Report) : ℕ := (rs.map Report.found).sum

/-- The syncs of the skipped waits. -/
def skipped (rs : List Report) : ℕ := (rs.map Report.skipped).sum

@[simp] theorem found_concat (rs : List Report) (r : Report) :
    found (rs ++ [r]) = found rs + r.found := by
  simp [found]

@[simp] theorem skipped_concat (rs : List Report) (r : Report) :
    skipped (rs ++ [r]) = skipped rs + r.skipped := by
  simp [skipped]

/-- A wait that is overridden finds its syncs covered. -/
def NoWrap (g : Globals) : Event → Prop
  | .wait queue (some count) =>
      .overrideReturn 0 ∈ (hook g (.wait queue (some count))).2 →
        count.toNat ≤ g.successfulWritebackCount.toNat
  | _ => True

section Step

variable (g : Globals)

theorem hook_short {count : BitVec 8} (h : g.Short count) (queue : ℕ) :
    hook g (.wait queue (some count)) = (g, []) := by
  show (if g.Short count then _ else _) = _
  rw [if_pos h]

theorem hook_covered {count : BitVec 8} (h : ¬ g.Short count) (queue : ℕ) :
    hook g (.wait queue (some count)) =
      ({ g with successfulWritebackCount := g.successfulWritebackCount - count.setWidth 64 },
        [.overrideReturn 0]) := by
  show (if g.Short count then _ else _) = _
  rw [if_neg h]

theorem noWrap (e : Event) : NoWrap g e := by
  cases e with
  | submit queue pid fd file => trivial
  | writeback inode => trivial
  | wait queue uptr =>
    cases uptr with
    | none => trivial
    | some count =>
      intro hover
      by_cases h : g.Short count
      · rw [hook_short g h] at hover
        exact absurd hover List.not_mem_nil
      · rw [short_iff] at h
        omega

/-- What one hook adds to the counter and takes from it. -/
theorem count_hook {e : Event}
    (hroom : g.successfulWritebackCount.toNat + Report.found ⟨g, e, (hook g e).2⟩ < 2 ^ 64) :
    (hook g e).1.successfulWritebackCount.toNat + Report.skipped ⟨g, e, (hook g e).2⟩ =
      g.successfulWritebackCount.toNat + Report.found ⟨g, e, (hook g e).2⟩ := by
  cases e with
  | submit queue pid fd file => cases file <;> rfl
  | writeback inode =>
    cases inode with
    | none => rfl
    | some i =>
      unfold Report.found Report.skipped at *
      dsimp only [hook, writebackSingleInode] at *
      cases hlookup : g.inodeMap.lookup (key i) with
      | none => simp
      | some data =>
        rw [hlookup, Option.isSome_some, if_pos rfl] at hroom
        show (g.successfulWritebackCount + 1).toNat + 0 = _
        rw [BitVec.toNat_add, Option.isSome_some, if_pos rfl]
        exact Nat.mod_eq_of_lt hroom
  | wait queue uptr =>
    cases uptr with
    | none => rfl
    | some count =>
      by_cases h : g.Short count
      · rw [hook_short g h]
        simp [Report.found, Report.skipped]
      · have hle := (short_iff g count).not.mp h
        rw [hook_covered g h]
        simp only [Report.found, Report.skipped, List.mem_singleton, if_true]
        rw [BitVec.toNat_sub_of_le, toNat_count]
        · omega
        · rw [BitVec.le_def, toNat_count]
          omega

theorem found_le (e : Event) :
    Report.found ⟨g, e, (hook g e).2⟩ ≤ if e.IsWriteback then 1 else 0 := by
  cases e with
  | submit queue pid fd file => exact Nat.zero_le _
  | writeback inode =>
    show _ ≤ 1
    cases inode with
    | none => exact Nat.zero_le _
    | some i =>
      unfold Report.found
      dsimp only
      split_ifs <;> omega
  | wait queue uptr => exact Nat.zero_le _

end Step

/-- Every writeback finds one inode at most. -/
theorem found_trace_le (evs : List Event) :
    found (program.trace initial evs) ≤ evs.countP Event.IsWriteback := by
  induction evs using List.reverseRecOn with
  | nil => exact Nat.zero_le _
  | append_singleton evs e ih =>
    have hone := found_le (program.after initial evs) e
    rw [Machine.trace_concat, program_out, found_concat, List.countP_append, List.countP_singleton]
    simp only [decide_eq_true_eq]
    omega

/-- The counter and the skipped syncs make up the credits. -/
theorem conserved {evs : List Event} (h : evs.countP Event.IsWriteback < 2 ^ 64) :
    (program.after initial evs).successfulWritebackCount.toNat +
      skipped (program.trace initial evs) = found (program.trace initial evs) := by
  induction evs using List.reverseRecOn with
  | nil => rfl
  | append_singleton evs e ih =>
    have hfound := found_trace_le (evs ++ [e])
    rw [Machine.trace_concat, program_out, found_concat] at hfound ⊢
    rw [skipped_concat, Machine.after_concat, program_step]
    have hevs : evs.countP Event.IsWriteback < 2 ^ 64 := by
      rw [List.countP_append] at h
      omega
    have ih := ih hevs
    have hstep := count_hook (program.after initial evs) (e := e) (by omega)
    omega

/-- **Credit conservation.** With fewer than `2 ^ 64` writebacks the counter is the credited
writebacks less the skipped syncs, of which there are no more, and no wait makes it wrap. -/
theorem count_eq_found_sub_skipped {evs : List Event}
    (h : evs.countP Event.IsWriteback < 2 ^ 64) :
    (program.after initial evs).successfulWritebackCount.toNat =
        found (program.trace initial evs) - skipped (program.trace initial evs) ∧
      skipped (program.trace initial evs) ≤ found (program.trace initial evs) ∧
      program.Steps NoWrap initial evs := by
  have hsum := conserved h
  refine ⟨by omega, by omega, ?_⟩
  exact program.steps_of_forall fun fs e _ _ => noWrap (program.after initial fs) e

/-- Two credits, a wait for three that is a real one, and a wait for two that is skipped. -/
theorem count_eq_found_sub_skipped_two :
    (program.after initial [.submit 1 7 3 (.inode 11), .writeback (some 11),
        .writeback (some 12), .writeback (some 11), .wait 1 (some 3),
        .wait 1 (some 2)]).successfulWritebackCount = 0 := by
  have hfew : ([.submit 1 7 3 (.inode 11), .writeback (some 11), .writeback (some 12),
      .writeback (some 11), .wait 1 (some 3), .wait 1 (some 2)] : List Event).countP
      Event.IsWriteback < 2 ^ 64 := by
    decide
  exact BitVec.eq_of_toNat_eq (count_eq_found_sub_skipped hfew).1

/-! ## Registered inodes -/

/-- The inodes that submits have registered. -/
def registered (rs : List Report) : List (BitVec 64) :=
  rs.filterMap fun r =>
    match r.event with
    | .submit _ _ _ (.inode i) => some i
    | _ => none

/-- A writeback of an inode earns a credit exactly if an earlier submit registered the inode. -/
def OnlyRegistered (p : Globals × List Report) : Event → Prop
  | .writeback (some i) =>
      (hook p.1 (.writeback (some i))).1.successfulWritebackCount =
        p.1.successfulWritebackCount + 1 ↔ i ∈ registered p.2
  | _ => True

/-- An inode that is written back and shares the low half of its number with a registered one is
registered as well. -/
def NoAlias (p : Globals × List Report) : Event → Prop
  | .writeback (some i) => ∀ j ∈ registered p.2, key j = key i → i ∈ registered p.2
  | _ => True

/-- The keys of the map are the low halves of the registered inodes. -/
def Keyed (p : Globals × List Report) : Prop :=
  ∀ k, (p.1.inodeMap.lookup k).isSome ↔ ∃ j ∈ registered p.2, key j = k

/-- The map has room for a new key. -/
def Room (p : Globals × List Report) (_ : Event) : Prop := p.1.inodeMap.keys.card < 10000

instance (p : Globals × List Report) (e : Event) : Decidable (Room p e) :=
  inferInstanceAs (Decidable (_ < _))

@[simp] theorem registered_concat (rs : List Report) (r : Report) :
    registered (rs ++ [r]) = registered rs ++ registered [r] := List.filterMap_append

/-- A writeback earns a credit when it finds an entry. -/
theorem credited_iff (g : Globals) (i : BitVec 64) :
    (hook g (.writeback (some i))).1.successfulWritebackCount = g.successfulWritebackCount + 1 ↔
      (g.inodeMap.lookup (key i)).isSome := by
  dsimp only [hook, writebackSingleInode]
  cases g.inodeMap.lookup (key i) with
  | none => simp
  | some data => simp

theorem onlyRegistered_iff_noAlias {p : Globals × List Report} (hp : Keyed p) (e : Event) :
    OnlyRegistered p e ↔ NoAlias p e := by
  cases e with
  | submit queue pid fd file => exact Iff.rfl
  | wait queue uptr => exact Iff.rfl
  | writeback inode =>
    cases inode with
    | none => exact Iff.rfl
    | some i =>
      unfold OnlyRegistered NoAlias
      dsimp only
      rw [credited_iff, hp]
      constructor
      · intro h j hj hkey
        exact h.mp ⟨j, hj, hkey⟩
      · intro h
        constructor
        · rintro ⟨j, hj, hkey⟩
          exact h j hj hkey
        · intro hi
          exact ⟨i, hi, rfl⟩

theorem keyed_step {p : Globals × List Report} (hp : Keyed p) {e : Event} (hroom : Room p e) :
    Keyed (program.recorded.step p e) := by
  obtain ⟨g, rs⟩ := p
  rw [Machine.recorded_step, program_out, program_step]
  have hother : (hook g e).1.inodeMap = g.inodeMap → registered [⟨g, e, (hook g e).2⟩] = [] →
      Keyed ((hook g e).1, rs ++ [⟨g, e, (hook g e).2⟩]) := by
    intro hmap hnil k
    rw [registered_concat, hnil, List.append_nil]
    dsimp only
    rw [hmap]
    exact hp k
  cases e with
  | submit queue pid fd file =>
    cases file with
    | unreadable => exact hother rfl rfl
    | noFile => exact hother rfl rfl
    | noInode => exact hother rfl rfl
    | inode i =>
      intro k
      have haccepts : g.inodeMap.Accepts (key i) := HashMap.accepts_of_card hroom (key i)
      rw [registered_concat]
      show ((g.inodeMap.update (key i) _).lookup k).isSome ↔ ∃ j ∈ registered rs ++ [i], key j = k
      by_cases hk : k = key i
      · subst hk
        rw [HashMap.lookup_update_self haccepts]
        exact iff_of_true rfl ⟨i, List.mem_append_right _ List.mem_cons_self, rfl⟩
      · rw [HashMap.lookup_update_of_ne g.inodeMap hk, hp k]
        simp only [List.mem_append, List.mem_singleton, or_and_right, exists_or,
          exists_eq_left]
        rw [or_iff_left (Ne.symm hk)]
  | writeback inode =>
    cases inode with
    | none => exact hother rfl rfl
    | some i =>
      apply hother _ rfl
      dsimp only [hook, writebackSingleInode]
      cases g.inodeMap.lookup (key i) <;> rfl
  | wait queue uptr =>
    cases uptr with
    | none => exact hother rfl rfl
    | some count =>
      apply hother _ rfl
      by_cases h : g.Short count
      · rw [hook_short g h]
      · rw [hook_covered g h]

/-- **Registered inodes.** While the map has room, a writeback earns a credit exactly for a
registered inode throughout a run in which no writeback is of an unregistered inode that shares the
low half of its number with a registered one, and in no other. -/
theorem onlyRegistered_iff {evs : List Event}
    (hroom : program.recorded.Steps Room (initial, []) evs) :
    program.recorded.Steps OnlyRegistered (initial, []) evs ↔
      program.recorded.Steps NoAlias (initial, []) evs := by
  have hstart : Keyed (initial, []) := fun k => by simp [initial, registered]
  apply program.recorded.steps_iff (I := Keyed) _ _ hstart hroom
  · intro p e hp _
    exact onlyRegistered_iff_noAlias hp e
  · intro p e hp he _
    exact keyed_step hp he

/-- Two inodes, and a writeback of a third that is not registered. -/
theorem onlyRegistered_two_inodes :
    program.recorded.Steps OnlyRegistered (initial, []) [.submit 1 7 3 (.inode 11),
      .submit 1 7 4 (.inode 12), .writeback (some 11), .writeback (some 13)] := by
  apply (onlyRegistered_iff (by decide)).mpr
  refine ⟨trivial, trivial, ?_, ?_, trivial⟩
  · intro j _ _
    exact List.mem_cons_self
  · show ∀ j ∈ [11, 12], key j = key 13 → (13 : BitVec 64) ∈ [11, 12]
    simp [key]

/-- Inode 5 is registered, and inode `2 ^ 32 + 5` earns a credit. -/
theorem not_onlyRegistered_alias :
    program.recorded.Steps Room (initial, [])
        [.submit 1 7 3 (.inode 5), .writeback (some 0x100000005)] ∧
      ¬ program.recorded.Steps OnlyRegistered (initial, [])
        [.submit 1 7 3 (.inode 5), .writeback (some 0x100000005)] := by
  constructor
  · decide
  · rintro ⟨-, h, -⟩
    exact absurd (h.mp rfl) (by decide)

end ClickhouseUring.Writeback
