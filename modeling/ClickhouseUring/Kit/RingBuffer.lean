import Mathlib.Algebra.BigOperators.Group.List.Basic
import Mathlib.Algebra.Order.BigOperators.Group.List
import Mathlib.Algebra.Order.Ring.Nat
import Mathlib.Tactic.Common

/-!
# Ring buffers of bounded size

A `RingBuffer α size capacity` holds records that take at most `capacity` bytes together.  A record
that does not fit is refused and the buffer keeps what it has; the consumer frees the oldest
records.
-/

/-- The records that are not yet consumed. -/
structure RingBuffer (α : Type*) (size : α → ℕ) (capacity : ℕ) where
  records : List α
  used_le : (records.map size).sum ≤ capacity

namespace RingBuffer

variable {α : Type*} {size : α → ℕ} {capacity : ℕ}

/-- The buffer without records. -/
def empty : RingBuffer α size capacity := ⟨[], Nat.zero_le _⟩

/-- The bytes in use. -/
def used (r : RingBuffer α size capacity) : ℕ := (r.records.map size).sum

/-- There is room for the record. -/
def Fits (r : RingBuffer α size capacity) (x : α) : Prop := r.used + size x ≤ capacity

instance (r : RingBuffer α size capacity) (x : α) : Decidable (r.Fits x) :=
  inferInstanceAs (Decidable (r.used + size x ≤ capacity))

/-- Append a record, if it fits. -/
def output (r : RingBuffer α size capacity) (x : α) : RingBuffer α size capacity :=
  if h : r.Fits x then
    { records := r.records ++ [x]
      used_le := by
        rw [List.map_append, List.sum_append]
        simpa [Fits, used] using h }
  else r

/-- Consume the `n` oldest records. -/
def consume (r : RingBuffer α size capacity) (n : ℕ) : RingBuffer α size capacity where
  records := r.records.drop n
  used_le := by
    rw [List.map_drop]
    exact (List.Sublist.sum_le_sum (List.drop_sublist n _) fun _ _ => Nat.zero_le _).trans r.used_le

/-- Append the records one after the other; with the buffer those that fitted. -/
def outputAll (r : RingBuffer α size capacity) : List α → RingBuffer α size capacity × List α
  | [] => (r, [])
  | x :: xs =>
    let rest := (r.output x).outputAll xs
    (rest.1, if r.Fits x then x :: rest.2 else rest.2)

@[simp] theorem outputAll_nil (r : RingBuffer α size capacity) : r.outputAll [] = (r, []) := rfl

end RingBuffer
