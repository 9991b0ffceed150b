import Mathlib.Data.Finset.Card
import Mathlib.Data.Finset.Insert
import Mathlib.Logic.Function.Basic
import Mathlib.Tactic.Common

/-!
# Hash maps with a fixed number of entries

`HashMap κ ν n` holds at most `n` entries.  An update of a key that is present always succeeds; a
new key is refused when the map is full, and the map is then unchanged.  `modify` is a write
through a pointer that a lookup returned, `delete` removes an entry.
-/

/-- A map from `κ` to `ν` with at most `maxEntries` keys. -/
structure HashMap (κ ν : Type*) [DecidableEq κ] (maxEntries : ℕ) where
  lookup : κ → Option ν
  keys : Finset κ
  mem_keys : ∀ k, k ∈ keys ↔ (lookup k).isSome
  card_le : keys.card ≤ maxEntries

namespace HashMap

variable {κ ν : Type*} [DecidableEq κ] {n : ℕ}

/-- The map without entries. -/
def empty : HashMap κ ν n where
  lookup _ := none
  keys := ∅
  mem_keys _ := by simp
  card_le := Nat.zero_le n

/-- An update of `k` is accepted: `k` is present, or the map is not full. -/
def Accepts (m : HashMap κ ν n) (k : κ) : Prop := k ∈ m.keys ∨ m.keys.card < n

instance (m : HashMap κ ν n) (k : κ) : Decidable (m.Accepts k) :=
  inferInstanceAs (Decidable (k ∈ m.keys ∨ m.keys.card < n))

/-- Insert or overwrite the entry of `k`; a new key in a full map is refused. -/
def update (m : HashMap κ ν n) (k : κ) (v : ν) : HashMap κ ν n :=
  if h : m.Accepts k then
    { lookup := Function.update m.lookup k (some v)
      keys := insert k m.keys
      mem_keys := fun j => by
        by_cases hj : j = k
        · subst hj; simp
        · simp [hj, m.mem_keys]
      card_le := by
        rcases h with h | h
        · rw [Finset.insert_eq_of_mem h]; exact m.card_le
        · exact (Finset.card_insert_le k m.keys).trans h }
  else m

/-- Write through the pointer a lookup of `k` returned. -/
def modify (m : HashMap κ ν n) (k : κ) (f : ν → ν) : HashMap κ ν n where
  lookup := Function.update m.lookup k ((m.lookup k).map f)
  keys := m.keys
  mem_keys j := by
    by_cases hj : j = k
    · subst hj; simp [m.mem_keys]
    · simp [hj, m.mem_keys]
  card_le := m.card_le

/-- Remove the entry of `k`, if there is one. -/
def delete (m : HashMap κ ν n) (k : κ) : HashMap κ ν n where
  lookup := Function.update m.lookup k none
  keys := m.keys.erase k
  mem_keys j := by
    by_cases hj : j = k
    · subst hj; simp
    · simp [hj, m.mem_keys]
  card_le := (Finset.card_erase_le).trans m.card_le

@[simp] theorem lookup_empty (k : κ) : (empty : HashMap κ ν n).lookup k = none := rfl

@[simp] theorem keys_empty : (empty : HashMap κ ν n).keys = ∅ := rfl

theorem accepts_of_lookup {m : HashMap κ ν n} {k : κ} {v : ν} (h : m.lookup k = some v) :
    m.Accepts k :=
  Or.inl ((m.mem_keys k).mpr (by rw [h]; rfl))

theorem accepts_of_card {m : HashMap κ ν n} (h : m.keys.card < n) (k : κ) : m.Accepts k :=
  Or.inr h

theorem lookup_update {m : HashMap κ ν n} {k : κ} (h : m.Accepts k) (v : ν) :
    (m.update k v).lookup = Function.update m.lookup k (some v) := by
  unfold update; rw [dif_pos h]

theorem lookup_update_self {m : HashMap κ ν n} {k : κ} (h : m.Accepts k) (v : ν) :
    (m.update k v).lookup k = some v := by
  rw [lookup_update h, Function.update_self]

theorem lookup_update_of_ne (m : HashMap κ ν n) {j k : κ} (hj : j ≠ k) (v : ν) :
    (m.update k v).lookup j = m.lookup j := by
  unfold update
  split_ifs
  · exact Function.update_of_ne hj _ _
  · rfl

theorem update_of_not_accepts {m : HashMap κ ν n} {k : κ} (h : ¬ m.Accepts k) (v : ν) :
    m.update k v = m := by
  unfold update; rw [dif_neg h]

theorem keys_update {m : HashMap κ ν n} {k : κ} (h : m.Accepts k) (v : ν) :
    (m.update k v).keys = insert k m.keys := by
  unfold update; rw [dif_pos h]

theorem keys_update_subset (m : HashMap κ ν n) (k : κ) (v : ν) :
    (m.update k v).keys ⊆ insert k m.keys := by
  by_cases h : m.Accepts k
  · rw [keys_update h]
  · rw [update_of_not_accepts h]; exact Finset.subset_insert k m.keys

/-- A map that refuses a key refuses it for good. -/
theorem not_accepts_update {m : HashMap κ ν n} {k : κ} (h : ¬ m.Accepts k) (j : κ) (v : ν) :
    ¬ (m.update j v).Accepts k := by
  obtain ⟨hk, hcard⟩ := not_or.mp h
  by_cases hj : m.Accepts j
  · have hmem : j ∈ m.keys := hj.resolve_right hcard
    unfold Accepts
    rw [keys_update hj, Finset.insert_eq_of_mem hmem]
    exact h
  · rw [update_of_not_accepts hj]
    exact h

@[simp] theorem lookup_modify_self (m : HashMap κ ν n) (k : κ) (f : ν → ν) :
    (m.modify k f).lookup k = (m.lookup k).map f := Function.update_self _ _ _

theorem lookup_modify_of_ne (m : HashMap κ ν n) {j k : κ} (hj : j ≠ k) (f : ν → ν) :
    (m.modify k f).lookup j = m.lookup j := Function.update_of_ne hj _ _

@[simp] theorem keys_modify (m : HashMap κ ν n) (k : κ) (f : ν → ν) :
    (m.modify k f).keys = m.keys := rfl

@[simp] theorem lookup_delete (m : HashMap κ ν n) (k : κ) :
    (m.delete k).lookup = Function.update m.lookup k none := rfl

@[simp] theorem keys_delete (m : HashMap κ ν n) (k : κ) : (m.delete k).keys = m.keys.erase k := rfl

/-- An update removes no entry. -/
theorem isSome_lookup_update {m : HashMap κ ν n} {j : κ} (h : (m.lookup j).isSome) (k : κ)
    (v : ν) : ((m.update k v).lookup j).isSome := by
  by_cases hk : m.Accepts k
  · by_cases hj : j = k
    · subst hj
      rw [lookup_update_self hk]
      rfl
    · rw [lookup_update_of_ne m hj]
      exact h
  · rw [update_of_not_accepts hk]
    exact h

theorem isSome_lookup_modify {m : HashMap κ ν n} {j : κ} (h : (m.lookup j).isSome) (k : κ)
    (f : ν → ν) : ((m.modify k f).lookup j).isSome := by
  by_cases hj : j = k
  · subst hj
    rw [lookup_modify_self, Option.isSome_map]
    exact h
  · rw [lookup_modify_of_ne m hj]
    exact h

theorem modify_modify (m : HashMap κ ν n) (k : κ) (f g : ν → ν) :
    (m.modify k f).modify k g = m.modify k (g ∘ f) := by
  unfold modify
  congr 1
  funext j
  dsimp only
  rw [Function.update_idem, Function.update_self, Option.map_map]

end HashMap
