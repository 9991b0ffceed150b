import Mathlib.Data.Nat.Digits.Lemmas

/-!
# Little-endian numbers

A number in memory stands there with its lowest byte first.  `store` writes a word, `load` reads
one of `w` bits off the front of the memory; `load_store` and `store_load` are the two round
trips.
-/

namespace LittleEndian

/-- The number whose bytes these are. -/
def ofBytes (bytes : List (BitVec 8)) : ℕ := Nat.ofDigits 256 (bytes.map BitVec.toNat)

/-- The `k` lowest bytes of a number. -/
def toBytes : ℕ → ℕ → List (BitVec 8)
  | 0, _ => []
  | k + 1, v => BitVec.ofNat 8 v :: toBytes k (v / 256)

@[simp] theorem length_toBytes (k v : ℕ) : (toBytes k v).length = k := by
  induction k generalizing v with
  | zero => rfl
  | succ k ih => rw [toBytes, List.length_cons, ih]

theorem ofBytes_cons (b : BitVec 8) (bytes : List (BitVec 8)) :
    ofBytes (b :: bytes) = b.toNat + 256 * ofBytes bytes := by
  rw [ofBytes, List.map_cons, Nat.ofDigits_cons]
  rfl

theorem ofBytes_toBytes {k v : ℕ} (h : v < 256 ^ k) : ofBytes (toBytes k v) = v := by
  induction k generalizing v with
  | zero =>
    rw [pow_zero, Nat.lt_one_iff] at h
    rw [h]
    rfl
  | succ k ih =>
    have hv : v / 256 < 256 ^ k := by
      rw [Nat.div_lt_iff_lt_mul (by norm_num), ← pow_succ]
      exact h
    rw [toBytes, ofBytes_cons, ih hv, BitVec.toNat_ofNat]
    exact Nat.mod_add_div v 256

theorem toBytes_ofBytes (bytes : List (BitVec 8)) :
    toBytes bytes.length (ofBytes bytes) = bytes := by
  induction bytes with
  | nil => rfl
  | cons b bytes ih =>
    have hb : b.toNat < 256 := b.isLt
    have hdiv : (b.toNat + 256 * ofBytes bytes) / 256 = ofBytes bytes := by omega
    have hlow : BitVec.ofNat 8 (b.toNat + 256 * ofBytes bytes) = b := by
      apply BitVec.eq_of_toNat_eq
      rw [BitVec.toNat_ofNat]
      omega
    rw [List.length_cons, toBytes, ofBytes_cons, hdiv, ih, hlow]

theorem ofBytes_lt (bytes : List (BitVec 8)) : ofBytes bytes < 256 ^ bytes.length := by
  induction bytes with
  | nil => exact Nat.one_pos
  | cons b bytes ih =>
    have hb : b.toNat < 256 := b.isLt
    rw [ofBytes_cons, List.length_cons, pow_succ]
    omega

/-- The word of `w` bits in the first `k` bytes. -/
def load (w k : ℕ) (mem : List (BitVec 8)) : BitVec w := BitVec.ofNat w (ofBytes (mem.take k))

/-- The `k` bytes of a word. -/
def store (k : ℕ) {w : ℕ} (x : BitVec w) : List (BitVec 8) := toBytes k x.toNat

variable {w k : ℕ}

@[simp] theorem length_store (k : ℕ) (x : BitVec w) : (store k x).length = k := length_toBytes k _

theorem load_store (h : 2 ^ w = 256 ^ k) (x : BitVec w) (rest : List (BitVec 8)) :
    load w k (store k x ++ rest) = x := by
  have hx : x.toNat < 256 ^ k := h ▸ x.isLt
  rw [load, List.take_left' (length_store k x), store, ofBytes_toBytes hx, BitVec.ofNat_toNat,
    BitVec.setWidth_eq]

theorem store_load (h : 2 ^ w = 256 ^ k) {mem : List (BitVec 8)} (hk : k ≤ mem.length) :
    store k (load w k mem) = mem.take k := by
  have hlen : (mem.take k).length = k := by rw [List.length_take, Nat.min_eq_left hk]
  have hlt : ofBytes (mem.take k) < 2 ^ w := by
    have := ofBytes_lt (mem.take k)
    rwa [hlen, ← h] at this
  have hbytes := toBytes_ofBytes (mem.take k)
  rw [hlen] at hbytes
  rw [store, load, BitVec.toNat_ofNat, Nat.mod_eq_of_lt hlt, hbytes]

end LittleEndian
