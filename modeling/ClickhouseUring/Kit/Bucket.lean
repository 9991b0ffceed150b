import Mathlib.Algebra.BigOperators.Group.List.Basic
import Mathlib.Algebra.Order.Ring.Nat
import Mathlib.Data.List.Induction
import Mathlib.Order.Bounds.Basic
import Mathlib.Tactic.Common

/-!
# A bucket of credits

Credits arrive in a bucket; from time to time a program looks into it and takes one, if there is
one.  Such a run is the list of the numbers of credits that have arrived before each look.

`isGreatest_left` says what is left when the run is over: the largest surplus of credits over looks
among the suffixes of the run.
-/

namespace Bucket

/-- What is left after the looks, of `w` credits and those that have arrived. -/
def left (w : ℕ) (arrivals : List ℕ) : ℕ := arrivals.foldl (fun w a => w + a - 1) w

/-- The looks that have found a credit. -/
def taken : ℕ → List ℕ → ℕ
  | _, [] => 0
  | w, a :: as => (if w + a = 0 then 0 else 1) + taken (w + a - 1) as

@[simp] theorem left_nil (w : ℕ) : left w [] = w := rfl

@[simp] theorem left_cons (w a : ℕ) (as : List ℕ) : left w (a :: as) = left (w + a - 1) as := rfl

@[simp] theorem left_append (w : ℕ) (as bs : List ℕ) :
    left w (as ++ bs) = left (left w as) bs :=
  List.foldl_append

@[simp] theorem taken_nil (w : ℕ) : taken w [] = 0 := rfl

theorem taken_cons (w a : ℕ) (as : List ℕ) :
    taken w (a :: as) = (if w + a = 0 then 0 else 1) + taken (w + a - 1) as := rfl

theorem taken_append (w : ℕ) (as bs : List ℕ) :
    taken w (as ++ bs) = taken w as + taken (left w as) bs := by
  induction as generalizing w with
  | nil => simp
  | cons a as ih => rw [List.cons_append, taken_cons, taken_cons, left_cons, ih, Nat.add_assoc]

/-- No credit is lost. -/
theorem taken_add_left (w : ℕ) (as : List ℕ) : taken w as + left w as = w + as.sum := by
  induction as generalizing w with
  | nil => simp
  | cons a as ih =>
    have hrest := ih (w + a - 1)
    rw [taken_cons, left_cons, List.sum_cons]
    split_ifs with h <;> omega

theorem taken_le_length (w : ℕ) (as : List ℕ) : taken w as ≤ as.length := by
  induction as generalizing w with
  | nil => exact le_rfl
  | cons a as ih =>
    have hrest := ih (w + a - 1)
    rw [taken_cons, List.length_cons]
    split_ifs <;> omega

/-- What is left and what has been taken, of the credits and the looks of a suffix. -/
theorem sum_le_of_suffix {as bs : List ℕ} (h : bs <:+ as) : bs.sum ≤ left 0 as + bs.length := by
  obtain ⟨cs, rfl⟩ := h
  have htaken := taken_le_length (left 0 cs) bs
  have hsum := taken_add_left (left 0 cs) bs
  rw [left_append]
  omega

/-- The looks since the last one that has found nothing have all taken a credit. -/
theorem exists_suffix (as : List ℕ) : ∃ bs, bs <:+ as ∧ bs.sum = left 0 as + bs.length := by
  induction as using List.reverseRecOn with
  | nil => exact ⟨[], List.suffix_rfl, rfl⟩
  | append_singleton as a ih =>
    have hleft : left 0 (as ++ [a]) = left 0 as + a - 1 := left_append 0 as [a]
    by_cases hnone : left 0 as + a = 0
    · exact ⟨[], List.nil_suffix, by rw [hleft, hnone]; rfl⟩
    · obtain ⟨bs, ⟨cs, rfl⟩, hsum⟩ := ih
      refine ⟨bs ++ [a], ⟨cs, (List.append_assoc cs bs [a]).symm⟩, ?_⟩
      rw [hleft, List.sum_append, List.length_append, List.sum_singleton, List.length_singleton]
      omega

/-- **What is left.**  The largest surplus of credits over looks at the end of the run. -/
theorem isGreatest_left (as : List ℕ) :
    IsGreatest {k | ∃ bs, bs <:+ as ∧ bs.sum = k + bs.length} (left 0 as) := by
  constructor
  · exact exists_suffix as
  · rintro k ⟨bs, hbs, hsum⟩
    have hle := sum_le_of_suffix hbs
    omega

end Bucket
