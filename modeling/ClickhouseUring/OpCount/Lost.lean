import ClickhouseUring.OpCount.Hooks

/-!
# Calls that are lost from `op_count`

A call that has loaded before others stores what it has loaded over their counts, and over what
`main` has written.  What can be left in `op_count` when all calls have returned is anything from 1
on (`opCount_holds_iff`).
-/

namespace ClickhouseUring.OpCount

/-- All calls have returned and `main` is in its loop. -/
def State.Finished (s : State) : Prop := (∀ h ∈ s.hooks, h = .returned) ∧ s.write = none

/-- `op_count` can hold `v` at last. -/
def Holds (l : Loader) (n : ℕ) (v : BitVec 32) : Prop :=
  ∃ es s, Transition.run step (.init l n) es = some s ∧ s.Finished ∧ s.opCount = v

/-! ## What can be counted -/

/-- The value of some of `m` calls, or of some of them after the write of `main`. -/
def Counted (l : Loader) (m : ℕ) (v : BitVec 32) : Prop :=
  (∃ k, 1 ≤ k ∧ k ≤ m ∧ v = BitVec.ofNat 32 k) ∨
    ∃ w, l.written = some w ∧ ∃ k ≤ m, v = w + BitVec.ofNat 32 k

section Counted

variable {l : Loader} {m : ℕ} {v : BitVec 32}

theorem Counted.mono (h : Counted l m v) {m' : ℕ} (hm : m ≤ m') : Counted l m' v := by
  rcases h with ⟨k, hk, hle, heq⟩ | ⟨w, hw, k, hle, heq⟩
  · exact Or.inl ⟨k, hk, hle.trans hm, heq⟩
  · exact Or.inr ⟨w, hw, k, hle.trans hm, heq⟩

/-- One call more. -/
theorem Counted.succ (h : v = 0 ∨ Counted l m v) : Counted l (m + 1) (v + 1) := by
  rcases h with rfl | ⟨k, hk, hle, rfl⟩ | ⟨w, hw, k, hle, rfl⟩
  · exact Or.inl ⟨1, le_rfl, Nat.le_add_left 1 m, rfl⟩
  · exact Or.inl ⟨k + 1, Nat.le_succ_of_le hk, Nat.succ_le_succ hle, (BitVec.ofNat_add k 1).symm⟩
  · refine Or.inr ⟨w, hw, k + 1, Nat.succ_le_succ hle, ?_⟩
    rw [BitVec.ofNat_add, ← BitVec.add_assoc]
    rfl

end Counted

/-- What a call holds when `m` of them have added. -/
def Hook.Sound (l : Loader) (m : ℕ) : Hook → Prop
  | .loaded value => value = 0 ∨ Counted l m value
  | .copied value => Counted l m value
  | .entered | .added | .returned => True

/-- What holds in every interleaving. -/
structure Inv (l : Loader) (n : ℕ) (s : State) : Prop where
  length : s.hooks.length = n
  sound : ∀ h ∈ s.hooks, h.Sound l s.adds
  opCount : s.opCount = 0 ∧ s.adds = 0 ∧ s.write = l.written ∨ Counted l s.adds s.opCount
  write : ∀ w, s.write = some w → l.written = some w

section Inv

variable {l : Loader} {n m : ℕ} {s s' : State} {e : Event}

theorem Hook.Sound.mono {h : Hook} (hs : h.Sound l m) {m' : ℕ} (hm : m ≤ m') :
    h.Sound l m' := by
  cases h with
  | loaded value => exact hs.imp id fun hc => hc.mono hm
  | copied value => exact Counted.mono hs hm
  | entered | added | returned => trivial

theorem inv_init (l : Loader) (n : ℕ) : Inv l n (.init l n) where
  length := List.length_replicate
  sound h hh := by
    rw [List.eq_of_mem_replicate hh]
    trivial
  opCount := Or.inl ⟨rfl, by simp [State.adds, State.init, Hook.hasAdded], rfl⟩
  write _ hw := hw

/-- What a call does, when the other ones are sound and `m` of them have added. -/
theorem Hook.Sound.next {hook hook' : Hook} {opCount v : BitVec 32}
    (hnext : hook.next opCount = some (hook', v))
    (hsound : hook.Sound l (m + hook.hasAdded.toNat))
    (hcount : opCount = 0 ∧ m + hook.hasAdded.toNat = 0 ∧ s.write = l.written ∨
      Counted l (m + hook.hasAdded.toNat) opCount) :
    hook.hasAdded.toNat ≤ hook'.hasAdded.toNat ∧ hook'.Sound l (m + hook'.hasAdded.toNat) ∧
      (v = 0 ∧ m + hook'.hasAdded.toNat = 0 ∧ s.write = l.written ∨
        Counted l (m + hook'.hasAdded.toNat) v) := by
  cases hook with
  | entered =>
    obtain ⟨rfl, rfl⟩ := Prod.mk.inj (Option.some.inj hnext)
    exact ⟨le_rfl, hcount.imp And.left id, hcount⟩
  | loaded value =>
    obtain ⟨rfl, rfl⟩ := Prod.mk.inj (Option.some.inj hnext)
    exact ⟨Nat.zero_le _, trivial, Or.inr (Counted.succ hsound)⟩
  | added =>
    obtain ⟨rfl, rfl⟩ := Prod.mk.inj (Option.some.inj hnext)
    have hcounted := hcount.resolve_left fun h => absurd h.2.1 (Nat.succ_ne_zero m)
    exact ⟨le_rfl, hcounted, Or.inr hcounted⟩
  | copied value =>
    obtain ⟨rfl, rfl⟩ := Prod.mk.inj (Option.some.inj hnext)
    exact ⟨le_rfl, trivial, Or.inr hsound⟩
  | returned => exact absurd hnext (Option.some_ne_none _).symm

theorem Inv.step (h : Inv l n s) (hstep : step s e = some s') : Inv l n s' := by
  obtain ⟨pre, hook, post, hook', v, hhooks, rfl, hnext, rfl⟩ | ⟨w, rfl, hw, rfl⟩ :=
    step_cases hstep
  · have hadds : s.adds = (pre ++ post).countP Hook.hasAdded + hook.hasAdded.toNat := by
      rw [State.adds, hhooks, countP_middle]
    have hadds' := countP_middle pre post hook'
    have hsound := h.sound
    have hcount := h.opCount
    rw [hhooks, hadds] at hsound
    rw [hadds] at hcount
    obtain ⟨hle, hsound', hcount'⟩ := Hook.Sound.next hnext
      (hsound hook (List.mem_append_right _ List.mem_cons_self)) hcount
    rw [← hadds'] at hsound' hcount'
    refine ⟨?_, ?_, hcount', h.write⟩
    · rw [← h.length, hhooks, List.length_append, List.length_append]
      rfl
    · -- what the other calls hold has been counted before
      have hmono (g : Hook) (hg : g ∈ pre ++ hook :: post) :
          g.Sound l ((pre ++ hook' :: post).countP Hook.hasAdded) :=
        (hsound g hg).mono (by rw [hadds']; exact Nat.add_le_add_left hle _)
      intro g hg
      rcases List.mem_append.mp hg with hg | hg
      · exact hmono g (List.mem_append_left _ hg)
      · rcases List.mem_cons.mp hg with rfl | hg
        · exact hsound'
        · exact hmono g (List.mem_append_right _ (List.mem_cons_of_mem _ hg))
  · refine ⟨h.length, h.sound, Or.inr (Or.inr ⟨w, h.write w hw, 0, Nat.zero_le _, ?_⟩), ?_⟩
    · exact (BitVec.add_zero w).symm
    · intro w' hw'
      exact absurd hw' (Option.some_ne_none w').symm

/-- When all calls have returned, all have been counted, more or less. -/
theorem Inv.counted (h : Inv l n s) (hn : 0 < n) (hs : s.Finished) : Counted l n s.opCount := by
  have hall : s.adds = n := by
    rw [← h.length]
    refine List.countP_eq_length.mpr fun hook hhook => ?_
    rw [hs.1 hook hhook]
    rfl
  rw [← hall]
  exact h.opCount.resolve_left fun h0 => by omega

end Inv

/-! ## What calls one after the other do -/

section Calls

variable (pre post : List Hook) (v : BitVec 32) (write : Option (BitVec 32))

theorem step_hook (hook : Hook) :
    step ⟨v, pre ++ hook :: post, write⟩ (.hook pre.length) =
      (hook.next v).map fun next => ⟨next.2, pre ++ next.1 :: post, write⟩ := by
  have hget : (pre ++ hook :: post)[pre.length]? = some hook := by simp
  have hset (hook' : Hook) :
      (pre ++ hook :: post).set pre.length hook' = pre ++ hook' :: post := by simp
  unfold step
  dsimp only
  rw [hget]
  cases hook <;> simp only [Option.bind_eq_bind, Option.bind_some, Hook.next, hset] <;> rfl

/-- The steps of one call. -/
def call (i : ℕ) : List Event := List.replicate 4 (.hook i)

/-- The steps of so many calls, one after the other. -/
def calls (i n : ℕ) : List Event := (List.range' i n).flatMap call

/-- The last three steps of a call that has loaded `value`. -/
theorem run_loaded (value : BitVec 32) :
    Transition.run step ⟨v, pre ++ .loaded value :: post, write⟩
        (List.replicate 3 (.hook pre.length)) =
      some ⟨value + 1, pre ++ .returned :: post, write⟩ := by
  simp only [List.replicate_succ, List.replicate_zero, Transition.run_cons, Transition.run_nil,
    step_hook, Hook.next, Option.map_some, Option.bind_some]

theorem run_call :
    Transition.run step ⟨v, pre ++ .entered :: post, write⟩ (call pre.length) =
      some ⟨v + 1, pre ++ .returned :: post, write⟩ := by
  rw [call, List.replicate_succ, Transition.run_cons, step_hook]
  exact run_loaded pre post v write v

theorem run_calls (n : ℕ) :
    Transition.run step ⟨v, pre ++ (List.replicate n .entered ++ post), write⟩
        (calls pre.length n) =
      some ⟨v + BitVec.ofNat 32 n, pre ++ (List.replicate n .returned ++ post), write⟩ := by
  induction n generalizing pre v with
  | zero => exact congrArg some (by rw [BitVec.add_zero]; rfl)
  | succ n ih =>
    have hcall := run_call pre (List.replicate n .entered ++ post) v write
    have hrest := ih (pre ++ [.returned]) (v + 1)
    rw [List.length_append, List.length_singleton, List.append_assoc, List.append_assoc] at hrest
    have hsum : v + 1 + BitVec.ofNat 32 n = v + BitVec.ofNat 32 (n + 1) := by
      rw [Nat.add_comm n 1, BitVec.ofNat_add, ← BitVec.add_assoc]
      rfl
    rw [calls, List.range'_succ, List.flatMap_cons, Transition.run_append, List.replicate_succ,
      List.replicate_succ]
    show (Transition.run step ⟨v, pre ++ .entered :: (_ ++ post), write⟩ _).bind _ = _
    rw [hcall, Option.bind_some, ← hsum]
    exact hrest

end Calls

/-- The step of `main`, if it has one. -/
def writes (l : Loader) : List Event := if l.written.isSome then [.write] else []

theorem run_writes (l : Loader) (v : BitVec 32) (hooks : List Hook) :
    Transition.run step ⟨v, hooks, l.written⟩ (writes l) =
      some ⟨l.written.getD v, hooks, none⟩ := by
  cases l <;> rfl

section Holds

variable {l : Loader} {n k : ℕ}

theorem finished_returned (v : BitVec 32) (n : ℕ) :
    (State.mk v (List.replicate n .returned) none).Finished :=
  ⟨fun _ hh => List.eq_of_mem_replicate hh, rfl⟩

/-- The write of `main`, and `k` of the calls after it. -/
theorem holds_after (hk : k ≤ n) {w : BitVec 32} (hw : l.written = some w) :
    Holds l n (w + BitVec.ofNat 32 k) := by
  obtain ⟨d, rfl⟩ := Nat.exists_eq_add_of_le' hk
  have hbefore := run_calls [] (List.replicate k .entered) 0 l.written d
  have hwrite := run_writes l (0 + BitVec.ofNat 32 d)
    (List.replicate d .returned ++ List.replicate k .entered)
  have hafter := run_calls (List.replicate d .returned) [] w none k
  rw [List.nil_append, List.nil_append, List.replicate_append_replicate] at hbefore
  rw [hw, Option.getD_some, ← hw] at hwrite
  rw [List.append_nil, List.append_nil, List.replicate_append_replicate] at hafter
  exact ⟨_, _, Transition.run_trans hbefore (Transition.run_trans hwrite hafter),
    finished_returned _ (d + k), rfl⟩

/-- A call that has loaded before all others, and `k` of the others after it. -/
theorem holds_first (d k : ℕ) : Holds l (d + k + 1) (BitVec.ofNat 32 (k + 1)) := by
  have hload : Transition.run step (.init l (d + k + 1)) [.hook 0] =
      some ⟨0, .loaded 0 :: List.replicate (d + k) .entered, l.written⟩ := by
    rw [State.init, List.replicate_succ]
    exact step_hook [] _ 0 _ .entered
  have hlost := run_calls [.loaded 0] (List.replicate k .entered) 0 l.written d
  have hwrite := run_writes l (0 + BitVec.ofNat 32 d)
    (.loaded 0 :: (List.replicate d .returned ++ List.replicate k .entered))
  have hstore := run_loaded [] (List.replicate d .returned ++ List.replicate k .entered)
    (l.written.getD (0 + BitVec.ofNat 32 d)) none 0
  have hafter := run_calls (.returned :: List.replicate d .returned) [] (0 + 1) none k
  have hall : (.returned :: List.replicate d .returned) ++ List.replicate k .returned =
      List.replicate (d + k + 1) Hook.returned := by
    rw [List.cons_append, List.replicate_append_replicate, ← List.replicate_succ]
  have hsum : (0 + 1 + BitVec.ofNat 32 k : BitVec 32) = BitVec.ofNat 32 (k + 1) := by
    rw [Nat.add_comm k 1, BitVec.ofNat_add]
    rfl
  rw [List.replicate_append_replicate] at hlost
  rw [List.append_nil, List.append_nil, hall, hsum] at hafter
  exact ⟨_, _, Transition.run_trans hload (Transition.run_trans hlost (Transition.run_trans hwrite
    (Transition.run_trans hstore hafter))), finished_returned _ _, rfl⟩

end Holds

/-- **Lost calls.**  After `n` calls of the hooks, in whatever interleaving, and the write of
`main`, `op_count` holds any of 1 to `n`, or any of what `main` has written to `n` more: exactly
these. -/
theorem opCount_holds_iff (l : Loader) {n : ℕ} (hn : 0 < n) (v : BitVec 32) :
    Holds l n v ↔ Counted l n v := by
  constructor
  · rintro ⟨es, s, hrun, hs, rfl⟩
    exact (Transition.run_preserves (fun _ _ _ => Inv.step) (inv_init l n) hrun).counted hn hs
  · rintro (⟨k, hpos, hk, rfl⟩ | ⟨w, hw, k, hk, rfl⟩)
    · obtain ⟨k, rfl⟩ := Nat.exists_eq_succ_of_ne_zero (Nat.ne_of_gt hpos)
      obtain ⟨d, rfl⟩ := Nat.exists_eq_add_of_le' hk
      exact holds_first d k
    · exact holds_after hk hw

/-- Two calls and the write of 79 can leave 1. -/
theorem opCount_holds_one : Holds .clickhouseUring 2 1 :=
  (opCount_holds_iff .clickhouseUring (by decide) 1).mpr (Or.inl ⟨1, le_rfl, by decide, rfl⟩)

end ClickhouseUring.OpCount
