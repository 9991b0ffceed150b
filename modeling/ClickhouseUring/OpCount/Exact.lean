import ClickhouseUring.Kit.Run
import ClickhouseUring.OpCount.Hooks
import Mathlib.Logic.Function.Basic

/-!
# When no call is lost from `op_count`

A store puts back the number of calls that had added when the call loaded.  So `op_count` is right
as long as no other call adds in between (`exact_iff_alone`).
-/

namespace ClickhouseUring.OpCount

/-- The next step of the call is a load. -/
def Hook.loads : Hook → Bool
  | .entered | .added => true
  | .loaded _ | .copied _ | .returned => false

/-- What the call has loaded and not yet stored. -/
def Hook.value? : Hook → Option (BitVec 32)
  | .loaded value | .copied value => some value
  | .entered | .added | .returned => none

/-- The calls, and how many had added when each of them loaded last. -/
structure Watched where
  state : State
  since : ℕ → ℕ

/-- The steps of the calls, in any order. -/
def watched : Machine Watched ℕ Empty where
  step w i :=
    match step w.state (.hook i) with
    | none => w
    | some s =>
      if (w.state.hooks[i]?).any Hook.loads then ⟨s, Function.update w.since i w.state.adds⟩
      else ⟨s, w.since⟩
  out _ _ := []

/-- `n` calls, when `op_count` holds `start`. -/
def Watched.begin (start : BitVec 32) (n : ℕ) : Watched :=
  ⟨⟨start, List.replicate n .entered, none⟩, fun _ => 0⟩

/-- All calls that have added are counted. -/
def Watched.Exact (start : BitVec 32) (w : Watched) : Prop :=
  w.state.opCount = start + BitVec.ofNat 32 w.state.adds

/-- A call that stores is the only one that may have added since it loaded. -/
def Watched.Alone (w : Watched) (i : ℕ) : Prop :=
  ∀ hook ∈ w.state.hooks[i]?, hook.value?.isSome → w.since i = w.state.adds

instance (w : Watched) (i : ℕ) : Decidable (w.Alone i) :=
  inferInstanceAs (Decidable (∀ hook ∈ w.state.hooks[i]?, hook.value?.isSome →
    w.since i = w.state.adds))

/-- While all calls are counted. -/
structure Watched.Inv (start : BitVec 32) (n : ℕ) (w : Watched) : Prop where
  length : w.state.hooks.length = n
  exact : w.Exact start
  value : ∀ i hook v, w.state.hooks[i]? = some hook → hook.value? = some v →
    v = start + BitVec.ofNat 32 (w.since i) ∧ w.since i ≤ w.state.adds

section Exact

variable {start : BitVec 32} {n : ℕ} {w : Watched} {i : ℕ}

theorem Watched.inv_begin (start : BitVec 32) (n : ℕ) : Inv start n (.begin start n) where
  length := List.length_replicate
  exact := by
    have hnone : (Watched.begin start n).state.adds = 0 := by
      simp [State.adds, Watched.begin, Hook.hasAdded]
    rw [Watched.Exact, hnone]
    exact (BitVec.add_zero start).symm
  value i hook v hhook hv := by
    rw [List.eq_of_mem_replicate (List.mem_of_getElem? hhook)] at hv
    exact absurd hv (Option.some_ne_none v).symm

theorem adds_set {s : State} {hook : Hook} (hhook : s.hooks[i]? = some hook) (hook' : Hook)
    (v : BitVec 32) (write : Option (BitVec 32)) :
    (State.mk v (s.hooks.set i hook') write).adds + hook.hasAdded.toNat =
      s.adds + hook'.hasAdded.toNat := by
  obtain ⟨hi, rfl⟩ := List.getElem?_eq_some_iff.mp hhook
  have hsplit : ∃ pre post, s.hooks = pre ++ s.hooks[i] :: post ∧ pre.length = i ∧
      s.hooks.set i hook' = pre ++ hook' :: post := List.exists_of_set hi
  obtain ⟨pre, post, hhooks, -, hset⟩ := hsplit
  have hadds := countP_middle pre post s.hooks[i]
  have hadds' := countP_middle pre post hook'
  rw [← hhooks] at hadds
  rw [← hset] at hadds'
  show (s.hooks.set i hook').countP Hook.hasAdded + _ = s.hooks.countP Hook.hasAdded + _
  omega

theorem watched_step {hook hook' : Hook} {v : BitVec 32} (hhook : w.state.hooks[i]? = some hook)
    (hnext : hook.next w.state.opCount = some (hook', v)) :
    watched.step w i = ⟨⟨v, w.state.hooks.set i hook', w.state.write⟩,
      if hook.loads then Function.update w.since i w.state.adds else w.since⟩ := by
  have hstep := step_of_getElem hhook
  rw [hnext] at hstep
  simp only [watched, hstep, hhook, Option.map_some, Option.any_some]
  split_ifs <;> rfl

/-- What a call has loaded is what `op_count` was, and having added it stays so. -/
theorem Hook.next_value {hook hook' : Hook} {opCount v : BitVec 32}
    (hnext : hook.next opCount = some (hook', v)) :
    hook.hasAdded.toNat ≤ hook'.hasAdded.toNat ∧
      ∀ x, hook'.value? = some x → hook.loads = true ∧ x = opCount := by
  cases hook with
  | entered | loaded _ | added | copied _ =>
    obtain ⟨rfl, rfl⟩ := Prod.mk.inj (Option.some.inj hnext)
    simp [Hook.hasAdded, Hook.value?, Hook.loads, eq_comm]
  | returned => exact absurd hnext (Option.some_ne_none _).symm

/-- A step that leaves the calls counted keeps the invariant. -/
theorem Watched.Inv.of_exact (h : Inv start n w) {hook hook' : Hook} {v : BitVec 32}
    (hhook : w.state.hooks[i]? = some hook) (hnext : hook.next w.state.opCount = some (hook', v))
    (hexact : (watched.step w i).Exact start) : Inv start n (watched.step w i) := by
  obtain ⟨hle, hvalue⟩ := Hook.next_value hnext
  have hadds := adds_set hhook hook' v w.state.write
  have hi := (List.getElem?_eq_some_iff.mp hhook).1
  rw [watched_step hhook hnext] at hexact ⊢
  refine ⟨by rw [← h.length]; exact List.length_set, hexact, fun j g x hg hx => ?_⟩
  dsimp only at hg ⊢
  by_cases hj : j = i
  · subst hj
    rw [List.getElem?_set_self hi, Option.some.injEq] at hg
    obtain ⟨hloads, rfl⟩ := hvalue x (hg ▸ hx)
    rw [if_pos hloads, Function.update_self]
    exact ⟨h.exact, by omega⟩
  · rw [List.getElem?_set_ne (Ne.symm hj)] at hg
    have hsince : (if hook.loads then Function.update w.since i w.state.adds else w.since) j =
        w.since j := by
      split_ifs
      · exact Function.update_of_ne hj _ _
      · rfl
    obtain ⟨heq, hold⟩ := h.value j g x hg hx
    rw [hsince]
    exact ⟨heq, by omega⟩

theorem add_ofNat_inj {a b : ℕ} (ha : a < 2 ^ 32) (hb : b < 2 ^ 32) :
    start + BitVec.ofNat 32 a = start + BitVec.ofNat 32 b ↔ a = b := by
  rw [BitVec.add_right_inj]
  constructor
  · intro h
    have hnat := congrArg BitVec.toNat h
    rwa [BitVec.toNat_ofNat, BitVec.toNat_ofNat, Nat.mod_eq_of_lt ha, Nat.mod_eq_of_lt hb] at hnat
  · rintro rfl
    rfl

theorem watched_none (h : step w.state (.hook i) = none) : watched.step w i = w := by
  simp only [watched, h]

/-- A call that has returned takes no step. -/
theorem watched_returned (hhook : w.state.hooks[i]? = some .returned) : watched.step w i = w :=
  watched_none (step_of_getElem hhook)

/-- After a step all calls are counted exactly if the step is not a store of an old value. -/
theorem Watched.Inv.exact_step (hn : n < 2 ^ 32) (h : Inv start n w) (i : ℕ) :
    (watched.step w i).Exact start ↔ w.Alone i := by
  cases hhook : w.state.hooks[i]? with
  | none =>
    have hstep : OpCount.step w.state (.hook i) = none := by
      unfold OpCount.step
      dsimp only
      rw [hhook]
      rfl
    rw [watched_none hstep]
    exact iff_of_true h.exact fun hook hhook' => absurd (hhook.symm.trans hhook') (by simp)
  | some hook =>
    have hle : w.state.adds ≤ n := h.length ▸ List.countP_le_length
    have halone : w.Alone i ↔ (hook.value?.isSome → w.since i = w.state.adds) := by
      unfold Alone
      rw [hhook]
      simp
    rw [halone]
    cases hook with
    | entered =>
      have hadds := adds_set hhook (.loaded w.state.opCount) w.state.opCount w.state.write
      rw [watched_step hhook rfl, Exact, Nat.add_right_cancel hadds]
      exact iff_of_true h.exact fun hnone => absurd hnone Bool.false_ne_true
    | loaded value =>
      have hadds : (State.mk (value + 1) (w.state.hooks.set i .added) w.state.write).adds =
          w.state.adds + 1 := adds_set hhook .added (value + 1) w.state.write
      have hlt : w.state.adds + 1 ≤ n := by
        rw [← hadds, ← h.length, ← List.length_set (i := i) (a := Hook.added)]
        exact List.countP_le_length
      obtain ⟨rfl, hold⟩ := h.value i _ value hhook rfl
      have hsum : start + BitVec.ofNat 32 (w.since i) + 1 =
          start + BitVec.ofNat 32 (w.since i + 1) := by
        rw [BitVec.ofNat_add, ← BitVec.add_assoc]
        rfl
      rw [watched_step hhook rfl, Exact, hadds, hsum, add_ofNat_inj (by omega) (by omega)]
      exact ⟨fun heq _ => Nat.succ.inj heq, fun heq => congrArg Nat.succ (heq rfl)⟩
    | added =>
      have hadds := adds_set hhook (.copied w.state.opCount) w.state.opCount w.state.write
      rw [watched_step hhook rfl, Exact, Nat.add_right_cancel hadds]
      exact iff_of_true h.exact fun hnone => absurd hnone Bool.false_ne_true
    | copied value =>
      have hadds := adds_set hhook .returned value w.state.write
      obtain ⟨rfl, hold⟩ := h.value i _ value hhook rfl
      rw [watched_step hhook rfl, Exact, Nat.add_right_cancel hadds,
        add_ofNat_inj (by omega) (by omega)]
      exact ⟨fun heq _ => heq, fun heq => heq rfl⟩
    | returned =>
      rw [watched_returned hhook]
      exact iff_of_true h.exact fun hnone => absurd hnone Bool.false_ne_true

theorem Watched.Inv.step (hn : n < 2 ^ 32) (h : Inv start n w) (i : ℕ) (halone : w.Alone i) :
    Inv start n (watched.step w i) := by
  have hexact := (h.exact_step hn i).mpr halone
  cases hstep : OpCount.step w.state (.hook i) with
  | none =>
    rw [watched_none hstep]
    exact h
  | some s =>
    obtain ⟨hook, hhook, hstep⟩ := Option.bind_eq_some_iff.mp hstep
    obtain ⟨⟨hook', v⟩, hnext, -⟩ := Option.bind_eq_some_iff.mp hstep
    exact h.of_exact hhook hnext hexact

end Exact

/-- **Calls that are all counted.**  `op_count` is what it was and the number of calls that have
added, after every step of a run, exactly if whenever a call stores no other one has added since it
loaded. -/
theorem exact_iff_alone (start : BitVec 32) {n : ℕ} (hn : n < 2 ^ 32) (is : List ℕ) :
    watched.Steps (fun w i => (watched.step w i).Exact start) (.begin start n) is ↔
      watched.Steps Watched.Alone (.begin start n) is :=
  watched.steps_iff_of_invariant (I := Watched.Inv start n) (fun _ i h => h.exact_step hn i)
    (fun _ i h => h.step hn i) (Watched.inv_begin start n) is

/-- Two calls one after the other. -/
theorem exact_one_by_one :
    watched.Steps (fun w i => (watched.step w i).Exact 79) (.begin 79 2)
      [0, 0, 0, 0, 1, 1, 1, 1] :=
  (exact_iff_alone 79 (by decide) _).mpr (by decide)

end ClickhouseUring.OpCount
