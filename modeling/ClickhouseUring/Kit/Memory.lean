import Mathlib.Data.Set.Lattice
import Mathlib.Order.CompletePartialOrder
import Mathlib.Order.Interval.Set.Basic

/-!
# Byte-addressed memory

`fill` overwrites a range of addresses, `bytesAt` reads one.  Neither notices what happens
outside its range.
-/

namespace Memory

/-- Overwrite `n` bytes from address `a` on. -/
def fill (mem : ℕ → UInt8) (a n : ℕ) (v : ℕ → UInt8) : ℕ → UInt8 :=
  fun x => if a ≤ x ∧ x < a + n then v (x - a) else mem x

/-- The `n` bytes from address `a` on. -/
def bytesAt (mem : ℕ → UInt8) (a n : ℕ) : List UInt8 := (List.range n).map fun i => mem (a + i)

variable {mem mem' : ℕ → UInt8} {a n b k x : ℕ}

theorem fill_of_notMem (v : ℕ → UInt8) (hx : x ∉ Set.Ico a (a + n)) : fill mem a n v x = mem x :=
  if_neg hx

theorem fill_of_mem (v : ℕ → UInt8) (hx : x ∈ Set.Ico a (a + n)) :
    fill mem a n v x = v (x - a) := if_pos hx

theorem fill_zero (mem : ℕ → UInt8) (a : ℕ) (v : ℕ → UInt8) : fill mem a 0 v = mem := by
  funext x
  exact fill_of_notMem v fun h => absurd h.2 (not_lt.mpr h.1)

theorem fill_comm (u v : ℕ → UInt8) (h : Disjoint (Set.Ico a (a + n)) (Set.Ico b (b + k))) :
    fill (fill mem b k v) a n u = fill (fill mem a n u) b k v := by
  funext x
  by_cases ha : x ∈ Set.Ico a (a + n)
  · have hb : x ∉ Set.Ico b (b + k) := Set.disjoint_left.mp h ha
    rw [fill_of_mem u ha, fill_of_notMem v hb, fill_of_mem u ha]
  · rw [fill_of_notMem u ha]
    by_cases hb : x ∈ Set.Ico b (b + k)
    · rw [fill_of_mem v hb, fill_of_mem v hb]
    · rw [fill_of_notMem v hb, fill_of_notMem v hb, fill_of_notMem u ha]

/-- A store outside the range of a `fill` may come before or after it. -/
theorem fill_update (u : ℕ → UInt8) (v : UInt8) (hx : x ∉ Set.Ico a (a + n)) :
    fill (Function.update mem x v) a n u = Function.update (fill mem a n u) x v := by
  funext y
  by_cases hy : y = x
  · subst hy
    rw [fill_of_notMem u hx, Function.update_self, Function.update_self]
  · rw [Function.update_of_ne hy]
    unfold fill
    rw [Function.update_of_ne hy]

theorem bytesAt_congr (h : ∀ x ∈ Set.Ico a (a + n), mem x = mem' x) :
    bytesAt mem a n = bytesAt mem' a n := by
  unfold bytesAt
  refine List.map_congr_left fun i hi => h _ ⟨Nat.le_add_right a i, ?_⟩
  exact Nat.add_lt_add_left (List.mem_range.mp hi) a

/-- The bytes of a buffer do not notice a write to a disjoint one. -/
theorem bytesAt_fill (v : ℕ → UInt8) (h : Disjoint (Set.Ico a (a + n)) (Set.Ico b (b + k))) :
    bytesAt (fill mem a n v) b k = bytesAt mem b k :=
  bytesAt_congr fun _ hx => fill_of_notMem v (Set.disjoint_right.mp h hx)

theorem bytesAt_update (v : UInt8) (hx : x ∉ Set.Ico a (a + n)) :
    bytesAt (Function.update mem x v) a n = bytesAt mem a n := by
  refine bytesAt_congr fun y hy => Function.update_of_ne ?_ _ _
  rintro rfl
  exact hx hy

theorem mem_of_mem_bytesAt {byte : UInt8} (h : byte ∈ bytesAt mem a n) :
    ∃ x ∈ Set.Ico a (a + n), mem x = byte := by
  obtain ⟨i, hi, rfl⟩ := List.mem_map.mp h
  exact ⟨_, ⟨Nat.le_add_right _ i, Nat.add_lt_add_left (List.mem_range.mp hi) _⟩, rfl⟩

theorem first_mem_bytesAt (mem : ℕ → UInt8) (a : ℕ) (hn : 0 < n) : mem a ∈ bytesAt mem a n :=
  List.mem_map.mpr ⟨0, List.mem_range.mpr hn, rfl⟩

end Memory
