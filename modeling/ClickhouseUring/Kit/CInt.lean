import Mathlib.Algebra.Order.Ring.Int
import Mathlib.Tactic.Common

/-!
# Signed integer arithmetic of C

The values are integers that fit in `w` bits.  An operation whose result does not fit, or a
division by zero, has no defined result.
-/

namespace CInt

/-- The value fits in a signed integer of `w` bits. -/
def Fits (w : ℕ) (x : ℤ) : Prop := -2 ^ (w - 1) ≤ x ∧ x < 2 ^ (w - 1)

instance (w : ℕ) (x : ℤ) : Decidable (Fits w x) :=
  inferInstanceAs (Decidable (-2 ^ (w - 1) ≤ x ∧ x < 2 ^ (w - 1)))

/-- `x + y`. -/
def add (w : ℕ) (x y : ℤ) : Option ℤ := if Fits w (x + y) then some (x + y) else none

/-- A conversion to the signed type, which wraps. -/
def wrap (w : ℕ) (x : ℤ) : ℤ := x.bmod (2 ^ w)

/-- `x % y`, which truncates towards zero. -/
def rem (w : ℕ) (x y : ℤ) : Option ℤ :=
  if y = 0 ∨ ¬ Fits w (x.tdiv y) then none else some (x.tmod y)

theorem add_eq_some {w : ℕ} {x y : ℤ} (h : Fits w (x + y)) : add w x y = some (x + y) := if_pos h

theorem two_pow_succ (w : ℕ) : ((2 ^ (w + 1) : ℕ) : ℤ) = 2 * 2 ^ w := by
  rw [pow_succ', Nat.cast_mul, Nat.cast_pow]
  rfl

theorem fits_wrap (w : ℕ) (x : ℤ) : Fits (w + 1) (wrap (w + 1) x) := by
  have hpow := two_pow_succ w
  have hpos : 0 < 2 ^ (w + 1) := Nat.two_pow_pos _
  have hlo : -(((2 ^ (w + 1) : ℕ) : ℤ) / 2) ≤ wrap (w + 1) x := Int.le_bmod hpos
  have hhi : wrap (w + 1) x < (((2 ^ (w + 1) : ℕ) : ℤ) + 1) / 2 := Int.bmod_lt hpos
  unfold Fits
  rw [Nat.add_sub_cancel]
  rw [hpow] at hlo hhi
  omega

theorem wrap_eq_self {w : ℕ} {x : ℤ} (h : Fits (w + 1) x) : wrap (w + 1) x = x := by
  obtain ⟨hlo, hhi⟩ := h
  rw [Nat.add_sub_cancel] at hlo hhi
  have hpow := two_pow_succ w
  unfold wrap
  rw [Int.bmod_eq_of_le_mul_two]
  · omega
  · omega

theorem fits_of_nonneg {w : ℕ} {x : ℤ} (h0 : 0 ≤ x) (h : x < 2 ^ (w - 1)) : Fits w x :=
  ⟨(neg_nonpos.mpr (pow_nonneg zero_le_two _)).trans h0, h⟩

/-- A wider type has all the values. -/
theorem Fits.mono {v w : ℕ} (hvw : v ≤ w) {x : ℤ} (h : Fits v x) : Fits w x := by
  have hpow : (2 : ℤ) ^ (v - 1) ≤ 2 ^ (w - 1) :=
    pow_le_pow_right₀ one_le_two (Nat.sub_le_sub_right hvw 1)
  exact ⟨(neg_le_neg hpow).trans h.1, h.2.trans_le hpow⟩

/-- One more bit has room for a sum. -/
theorem Fits.add {w : ℕ} {x y : ℤ} (hx : Fits (w + 1) x) (hy : Fits (w + 1) y) :
    Fits (w + 2) (x + y) := by
  obtain ⟨hx, hx'⟩ := hx
  obtain ⟨hy, hy'⟩ := hy
  rw [Nat.add_sub_cancel] at hx hx' hy hy'
  have hpow : (2 : ℤ) ^ (w + 2 - 1) = 2 ^ w + 2 ^ w := by
    rw [Nat.add_sub_assoc (by decide), pow_succ, mul_two]
  unfold Fits
  rw [hpow]
  omega

/-- On naturals the remainder is the usual one. -/
theorem rem_natCast {w x y : ℕ} (hy : 0 < y) (hx : (x : ℤ) < 2 ^ (w - 1)) :
    rem w x y = some ((x % y : ℕ) : ℤ) := by
  have hdiv : (x : ℤ).tdiv y = ((x / y : ℕ) : ℤ) := Int.ofNat_tdiv x y
  have hfits : Fits w ((x : ℤ).tdiv y) := by
    rw [hdiv]
    apply fits_of_nonneg (Int.natCast_nonneg _)
    exact lt_of_le_of_lt (Int.ofNat_le.mpr (Nat.div_le_self x y)) hx
  unfold rem
  rw [if_neg (not_or.mpr ⟨by omega, not_not.mpr hfits⟩), Int.ofNat_tmod]

end CInt
