import Mathlib.Algebra.Order.Group.Int
import Mathlib.Algebra.Order.Ring.Int
import Mathlib.Tactic.Common

/-!
# Reading in chunks

A range of `total` bytes read from the front in chunks of `size` bytes, the last one shorter.
`lengthAt` is the length of the chunk at an offset, `count` the number of chunks.  `Tiles` says that
chunks, each a length and an offset, lie end to end.
-/

namespace Chunks

/-- The length of the chunk at an offset. -/
def lengthAt (size : ℕ) (total offset : ℤ) : ℕ :=
  if offset + size > total then (total - offset).toNat else size

/-- The number of chunks: `total / size`, rounded up. -/
def count (size : ℕ) (total : ℤ) : ℕ := ((total + (size - 1)) / size).toNat

/-- The chunks cover the range from `a` to `b` in order, without gap or overlap, in lengths of 1 to
`size`. -/
inductive Tiles (size : ℕ) (a : ℤ) : ℤ → List (ℕ × ℤ) → Prop
  | nil : Tiles size a a []
  | snoc {b n chunks} (h : Tiles size a b chunks) (hpos : 1 ≤ n) (hle : n ≤ size) :
      Tiles size a (b + n) (chunks ++ [(n, b)])

theorem lengthAt_bounds {size : ℕ} (hsize : 0 < size) {total offset : ℤ} (h : offset < total) :
    1 ≤ lengthAt size total offset ∧ lengthAt size total offset ≤ size ∧
      offset + lengthAt size total offset = min (offset + size) total := by
  unfold lengthAt
  split_ifs <;> omega

theorem lt_count {size i : ℕ} (hsize : 0 < size) {total : ℤ} :
    i < count size total ↔ (i * size : ℤ) < total := by
  have hpos : (0 : ℤ) < size := Int.natCast_pos.mpr hsize
  have hstep : ((i : ℤ) + 1) * size = i * size + size := by rw [Int.add_mul, Int.one_mul]
  unfold count
  rw [Int.lt_toNat, Int.lt_iff_add_one_le, Int.le_ediv_iff_mul_le hpos, hstep]
  omega

end Chunks
