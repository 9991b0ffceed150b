import ClickhouseUring.Kit.Run
import Mathlib.Data.List.Rotate
import Mathlib.Data.Nat.ModEq

/-!
# Bounded queues

`Fifo α n` is a queue of at most `n` items.  In a run from the empty queue the items accepted are
those delivered followed by those still in the queue (`Fifo.accepted_eq`).

`window buf start len` is the part of a circular buffer that begins at `start`.  Writing behind it
appends to the window; moving the start past its first cell drops that cell.
-/

/-- A queue of at most `n` items, the oldest first. -/
@[ext] structure Fifo (α : Type*) (n : ℕ) where
  items : List α
  length_le : items.length ≤ n

namespace Fifo

variable {α : Type*} {n : ℕ}

/-- The empty queue. -/
def empty : Fifo α n := ⟨[], Nat.zero_le n⟩

/-- Append an item, unless the queue is full. -/
def push (q : Fifo α n) (a : α) : Option (Fifo α n) :=
  if h : q.items.length < n then some ⟨q.items ++ [a], by rw [List.length_append]; exact h⟩
  else none

/-- Remove the oldest item. -/
def pop (q : Fifo α n) : Option (α × Fifo α n) :=
  match h : q.items with
  | [] => none
  | a :: l => some (a, ⟨l, by
      have := q.length_le
      rw [h, List.length_cons] at this
      omega⟩)

/-- An operation on a queue. -/
inductive Op (α : Type*)
  | push (a : α)
  | pop

/-- How an operation went. -/
inductive Outcome (α : Type*)
  | accepted (a : α)
  | full
  | delivered (a : α)
  | empty

/-- The items accepted. -/
def accepted (os : List (Outcome α)) : List α :=
  os.filterMap fun
    | .accepted a => some a
    | _ => none

/-- The items delivered. -/
def delivered (os : List (Outcome α)) : List α :=
  os.filterMap fun
    | .delivered a => some a
    | _ => none

/-- The queue, one operation after the other. -/
def machine (α : Type*) (n : ℕ) : Machine (Fifo α n) (Op α) (Outcome α) where
  step q
    | .push a => (q.push a).getD q
    | .pop => (q.pop.map Prod.snd).getD q
  out q
    | .push a => [if q.items.length < n then .accepted a else .full]
    | .pop => [match q.items with | [] => .empty | a :: _ => .delivered a]

theorem items_push {q : Fifo α n} {a : α} :
    (((machine α n).step q (.push a)).items) =
      if q.items.length < n then q.items ++ [a] else q.items := by
  show ((q.push a).getD q).items = _
  unfold push
  split_ifs <;> rfl

theorem items_pop {q : Fifo α n} : ((machine α n).step q .pop).items = q.items.tail := by
  obtain ⟨items, h⟩ := q
  cases items <;> rfl

/-- **Conservation.** What was accepted has been delivered, in order, or is still queued. -/
theorem accepted_eq (ops : List (Op α)) :
    accepted ((machine α n).trace .empty ops) =
      delivered ((machine α n).trace .empty ops) ++ ((machine α n).after .empty ops).items := by
  apply (machine α n).invariant_trace (I := fun tr q => accepted tr = delivered tr ++ q.items) rfl
  intro tr q op h
  unfold accepted delivered at h ⊢
  rw [List.filterMap_append, List.filterMap_append, h]
  cases op with
  | push a =>
    rw [items_push]
    unfold machine
    dsimp only
    split_ifs <;> simp
  | pop =>
    rw [items_pop]
    unfold machine
    dsimp only
    cases q.items <;> simp

theorem delivered_isPrefix (ops : List (Op α)) :
    delivered ((machine α n).trace .empty ops) <+: accepted ((machine α n).trace .empty ops) := by
  rw [accepted_eq]
  exact List.prefix_append _ _

end Fifo

/-! ## Circular buffers -/

section Window

variable {α : Type*} {buf : List α} {start len : ℕ}

/-- The `len` cells of the circular buffer from `start` on. -/
def window (buf : List α) (start len : ℕ) : List α := (buf.rotate start).take len

theorem length_window (h : len ≤ buf.length) : (window buf start len).length = len := by
  unfold window
  rw [List.length_take, List.length_rotate, min_eq_left h]

/-- Moving the start past the first cell. -/
theorem window_succ (h : len < buf.length) (hs : start < buf.length) :
    window buf start (len + 1) = buf[start] :: window buf ((start + 1) % buf.length) len := by
  have hne : buf.rotate start ≠ [] := by
    rw [← List.length_pos_iff, List.length_rotate]
    omega
  obtain ⟨a, l, hl⟩ := List.exists_cons_of_ne_nil hne
  have ha : buf[start] = a := by
    have := List.getElem_rotate buf start 0 (by rw [List.length_rotate]; omega)
    simp only [hl, List.getElem_cons_zero, Nat.zero_add, Nat.mod_eq_of_lt hs] at this
    exact this.symm
  have hlen : l.length + 1 = buf.length := by
    rw [← List.length_cons (a := a), ← hl, List.length_rotate]
  unfold window
  rw [List.rotate_mod, ← List.rotate_rotate, hl, List.take_succ_cons, List.rotate_cons_succ,
    List.rotate_zero, List.take_append_of_le_length (by omega), ha]

/-- Writing behind the window. -/
theorem window_set (h : len < buf.length) (a : α) :
    window (buf.set ((start + len) % buf.length) a) start (len + 1) =
      window buf start len ++ [a] := by
  unfold window
  apply List.ext_getElem
  · simp only [List.length_take, List.length_rotate, List.length_set, List.length_append,
      List.length_singleton]
    omega
  · intro i hi _
    have hi : i < len + 1 := by
      rw [List.length_take] at hi
      omega
    rw [List.getElem_take, List.getElem_rotate, List.getElem_append]
    simp only [List.length_set, List.getElem_set, List.length_take, List.length_rotate]
    by_cases hlt : i < len
    · have hne : (start + len) % buf.length ≠ (i + start) % buf.length := by
        intro heq
        have hmod : len ≡ i [MOD buf.length] :=
          Nat.ModEq.add_left_cancel' start (heq.trans (congrArg (· % _) (Nat.add_comm i start)))
        exact hlt.ne' (Nat.ModEq.eq_of_lt_of_lt hmod h (by omega))
      rw [if_neg hne, dif_pos (by omega), List.getElem_take, List.getElem_rotate]
    · obtain rfl : i = len := by omega
      rw [if_pos (by rw [Nat.add_comm]), dif_neg (by omega), List.getElem_singleton]

end Window
