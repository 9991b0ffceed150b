import Mathlib.Algebra.BigOperators.Group.List.Basic
import Mathlib.Algebra.Order.Ring.Nat
import Mathlib.Data.List.Range
import Mathlib.Tactic.Common

/-!
# A queue that falls behind

In each round a program puts a result of its own into a queue, takes the first result of the queue
for it, and gives rise to a second result, equal to the one taken, which enters the queue before
that of the next round.  The results taken then lag behind: `taken l t` is what round `t` takes when
the program's own results are `l`, and `backlog l t` is what is in the queue before the round.
-/

namespace Lag

/-- What round `t` takes. -/
def taken (l : ℕ → ℕ) (t : ℕ) : ℕ :=
  if t % 2 = 0 then l (t / 2) else taken l (t / 2)
termination_by t
decreasing_by omega

/-- What is in the queue before round `t`. -/
def backlog (l : ℕ → ℕ) (t : ℕ) : List ℕ := (List.range' t (t - 1)).map (taken l)

/-- What enters the queue in round `t`. -/
def arrivals (l : ℕ → ℕ) (t : ℕ) : List ℕ := if t = 0 then [l 0] else [taken l (t - 1), l t]

variable {l : ℕ → ℕ}

theorem taken_even (l : ℕ → ℕ) (n : ℕ) : taken l (2 * n) = l n := by
  rw [taken, if_pos (by omega), Nat.mul_div_cancel_left n Nat.two_pos]

theorem taken_odd (l : ℕ → ℕ) (n : ℕ) : taken l (2 * n + 1) = taken l n := by
  rw [taken, if_neg (by omega), show (2 * n + 1) / 2 = n by omega]

theorem taken_zero (l : ℕ → ℕ) : taken l 0 = l 0 := taken_even l 0

@[simp] theorem length_backlog (l : ℕ → ℕ) (t : ℕ) : (backlog l t).length = t - 1 := by
  rw [backlog, List.length_map, List.length_range']

/-- A round takes the first result of the queue. -/
theorem backlog_append_arrivals (l : ℕ → ℕ) (t : ℕ) :
    backlog l t ++ arrivals l t = taken l t :: backlog l (t + 1) := by
  cases t with
  | zero => rw [taken_zero]; rfl
  | succ t =>
    have hsucc : List.range' (t + 1) (t + 1 + 1) = (t + 1) :: List.range' (t + 1 + 1) (t + 1) :=
      List.range'_succ
    have hrange : List.range' (t + 1) (t + 1 + 1) =
        List.range' (t + 1) t ++ [2 * t + 1, 2 * (t + 1)] := by
      rw [List.range'_concat, List.range'_concat, List.append_assoc, List.singleton_append,
        show t + 1 + 1 * t = 2 * t + 1 by omega, show t + 1 + 1 * (t + 1) = 2 * (t + 1) by omega]
    have harrivals : arrivals l (t + 1) = [2 * t + 1, 2 * (t + 1)].map (taken l) := by
      rw [arrivals, if_neg (Nat.succ_ne_zero t), List.map_cons, List.map_singleton, taken_odd,
        taken_even, Nat.add_sub_cancel]
    rw [harrivals, backlog, ← List.map_append, Nat.add_sub_cancel, ← hrange, hsucc,
      List.map_cons]
    rfl

/-- What is taken is a result of the first half of the rounds. -/
theorem exists_taken_eq (l : ℕ → ℕ) (t : ℕ) : ∃ i ≤ t / 2, taken l t = l i := by
  induction t using taken.induct with
  | case1 t heven => exact ⟨t / 2, le_rfl, by rw [taken, if_pos heven]⟩
  | case2 t hodd ih =>
    obtain ⟨i, hi, heq⟩ := ih
    exact ⟨i, by omega, by rw [taken, if_neg hodd, heq]⟩

theorem taken_eq_of_forall {t v : ℕ} (h : ∀ i ≤ t / 2, l i = v) : taken l t = v := by
  obtain ⟨i, hi, heq⟩ := exists_taken_eq l t
  rw [heq, h i hi]

theorem taken_ne_zero {t : ℕ} (h : ∀ i ≤ t / 2, l i ≠ 0) : taken l t ≠ 0 := by
  obtain ⟨i, hi, heq⟩ := exists_taken_eq l t
  rw [heq]
  exact h i hi

/-- Every result counts once, and then again. -/
theorem sum_taken (l : ℕ → ℕ) (n : ℕ) :
    ((List.range (2 * n)).map (taken l)).sum =
      ((List.range n).map l).sum + ((List.range n).map (taken l)).sum := by
  induction n with
  | zero => rfl
  | succ n ih =>
    rw [show 2 * (n + 1) = 2 * n + 1 + 1 by omega, List.range_succ, List.range_succ,
      List.range_succ]
    simp only [List.map_append, List.map_singleton, List.sum_append, List.sum_singleton, ih,
      taken_even, taken_odd]
    omega

end Lag
