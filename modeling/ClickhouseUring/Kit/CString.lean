import Mathlib.Algebra.Order.Ring.Int
import Mathlib.Data.List.Lex
import Mathlib.Data.List.TakeWhile
import Mathlib.Tactic.Common

/-!
# Strings of C

A string is what an array of `n` bytes holds before its first NUL.  Reading past the array for the
NUL, or writing past it, has no result.

Strings on their own are lists of bytes without a NUL.  `strcmp` compares them in the order of
their `key`s.
-/

namespace CString

variable {n : ℕ}

/-- The string in the array. -/
def chars (data : Vector (BitVec 8) n) : List (BitVec 8) := data.toList.takeWhile (· ≠ 0)

/-- `strlen`. -/
def strlen (data : Vector (BitVec 8) n) : Option ℕ :=
  if 0 ∈ data.toList then some (chars data).length else none

/-- Write the bytes from `i` on. -/
def write (data : Vector (BitVec 8) n) (i : ℕ) : List (BitVec 8) → Option (Vector (BitVec 8) n)
  | [] => some data
  | b :: bs => if h : i < n then write (data.set i b h) (i + 1) bs else none

/-- `strncat`: at most `bound` bytes of `src` and a NUL go behind the string. -/
def strncat (data : Vector (BitVec 8) n) (src : List (BitVec 8)) (bound : ℕ) :
    Option (Vector (BitVec 8) n) := do
  let i ← strlen data
  write data i (src.take bound ++ [0])

theorem write_eq {data : Vector (BitVec 8) n} {i : ℕ} {bs : List (BitVec 8)}
    (h : i + bs.length ≤ n) :
    ∃ data', write data i bs = some data' ∧
      data'.toList = data.toList.take i ++ bs ++ data.toList.drop (i + bs.length) := by
  induction bs generalizing data i with
  | nil => exact ⟨data, rfl, by simp⟩
  | cons b bs ih =>
    rw [List.length_cons] at h
    obtain ⟨data', hwrite, heq⟩ := @ih (data.set i b (by omega)) (i + 1) (by omega)
    refine ⟨data', ?_, ?_⟩
    · rw [write, dif_pos (by omega)]
      exact hwrite
    · have hi : i < data.toList.length := by
        rw [Vector.length_toList]
        omega
      have htake : (data.toList.set i b).take (i + 1) = data.toList.take i ++ [b] := by
        rw [List.take_succ_eq_append_getElem (by rwa [List.length_set]), List.getElem_set_self,
          List.take_set_of_le le_rfl]
      rw [heq, Vector.toList_set, htake, List.drop_set_of_lt (by omega), List.append_assoc _ [b],
        List.singleton_append, List.length_cons, Nat.add_assoc, Nat.add_comm 1]

/-- The bytes up to a first NUL are the string. -/
theorem chars_eq {data : Vector (BitVec 8) n} {s rest : List (BitVec 8)}
    (heq : data.toList = s ++ 0 :: rest) (hs : ∀ b ∈ s, b ≠ 0) :
    chars data = s ∧ strlen data = some s.length := by
  have hchars : chars data = s := by
    unfold chars
    rw [heq, List.takeWhile_append_of_pos (by simpa using hs),
      List.takeWhile_cons_of_neg (by simp), List.append_nil]
  refine ⟨hchars, ?_⟩
  unfold strlen
  rw [if_pos (by rw [heq]; simp), hchars]

theorem ne_zero_of_mem_chars {data : Vector (BitVec 8) n} {b : BitVec 8} (h : b ∈ chars data) :
    b ≠ 0 := by
  have := List.mem_takeWhile_imp h
  simpa using this

/-- The array of a string: its bytes, the NUL, and what is left of the array. -/
theorem toList_eq {data : Vector (BitVec 8) n} {k : ℕ} (h : strlen data = some k) :
    k = (chars data).length ∧ ∃ rest, data.toList = chars data ++ 0 :: rest := by
  unfold strlen at h
  split_ifs at h with hmem
  refine ⟨(Option.some.inj h).symm, ?_⟩
  have hne : data.toList.dropWhile (· ≠ 0) ≠ [] := by
    rw [Ne, List.dropWhile_eq_nil_iff]
    intro hall
    have := hall 0 hmem
    simp at this
  obtain ⟨b, rest, hdrop⟩ := List.exists_cons_of_ne_nil hne
  have hb : b = 0 := by
    have := List.head_dropWhile_not (· ≠ (0 : BitVec 8)) hne
    simp only [hdrop, List.head_cons] at this
    simpa using this
  refine ⟨rest, ?_⟩
  rw [← hb, ← hdrop]
  exact List.takeWhile_append_dropWhile.symm

/-- The string and its NUL. -/
theorem take_eq {data : Vector (BitVec 8) n} {k : ℕ} (h : strlen data = some k) :
    data.toList.take (k + 1) = chars data ++ [0] := by
  obtain ⟨rfl, rest, heq⟩ := toList_eq h
  rw [heq, List.take_length_add_append]
  rfl

/-- `strncat` with room for its NUL. -/
theorem strncat_eq {data : Vector (BitVec 8) n} {src : List (BitVec 8)} {k bound : ℕ}
    (hk : strlen data = some k) (hsrc : ∀ b ∈ src, b ≠ 0)
    (hroom : k + (src.take bound).length < n) :
    ∃ data', strncat data src bound = some data' ∧ chars data' = chars data ++ src.take bound ∧
      strlen data' = some (k + (src.take bound).length) := by
  obtain ⟨rfl, rest, heq⟩ := toList_eq hk
  obtain ⟨data', hwrite, hlist⟩ :=
    @write_eq n data (chars data).length (src.take bound ++ [0]) (by
      rw [List.length_append]
      exact hroom)
  have htake : data.toList.take (chars data).length = chars data := by
    rw [heq, List.take_left]
  rw [htake, ← List.append_assoc, List.append_assoc, List.singleton_append] at hlist
  obtain ⟨hchars, hlen⟩ := chars_eq hlist fun b hb => by
    rcases List.mem_append.mp hb with hb | hb
    · exact ne_zero_of_mem_chars hb
    · exact hsrc b (List.mem_of_mem_take hb)
  refine ⟨data', ?_, hchars, by rw [hlen, List.length_append]⟩
  unfold strncat
  rw [hk]
  exact hwrite

/-! ## Comparing strings -/

/-- `strcmp` of two strings, with signed characters: the difference at the first position where
they differ, the end of a string counting as a NUL. -/
def strcmp : List (BitVec 8) → List (BitVec 8) → ℤ
  | [], [] => 0
  | [], d :: _ => 0 - d.toInt
  | c :: _, [] => c.toInt - 0
  | c :: s, d :: t => if c = d then strcmp s t else c.toInt - d.toInt

/-- The place of a string in the order of `strcmp`. -/
def key (s : List (BitVec 8)) : List ℤ := s.map BitVec.toInt ++ [0]

@[simp] theorem key_cons (c : BitVec 8) (s : List (BitVec 8)) :
    key (c :: s) = c.toInt :: key s := rfl

theorem toInt_eq_zero_iff {c : BitVec 8} : c.toInt = 0 ↔ c = 0 := by
  rw [← BitVec.toInt_inj]
  rfl

theorem strcmp_swap (s t : List (BitVec 8)) : strcmp t s = -strcmp s t := by
  fun_induction strcmp s t with
  | case1 => rfl
  | case2 d t => rw [strcmp]; omega
  | case3 c s => rw [strcmp]; omega
  | case4 s d t ih => rw [strcmp, if_pos rfl, ih]
  | case5 c s d t hne => rw [strcmp, if_neg (Ne.symm hne)]; omega

theorem key_inj {s t : List (BitVec 8)} : key s = key t ↔ s = t := by
  unfold key
  rw [List.append_left_inj, List.map_inj_right]
  intro c d
  exact BitVec.toInt_inj.mp

theorem strcmp_neg_iff {s t : List (BitVec 8)} (hs : 0 ∉ s) (ht : 0 ∉ t) :
    strcmp s t < 0 ↔ key s < key t := by
  fun_induction strcmp s t with
  | case1 => exact iff_of_false (lt_irrefl _) (lt_irrefl _)
  | case2 d t =>
    have hd : d.toInt ≠ 0 := mt toInt_eq_zero_iff.mp (List.ne_of_not_mem_cons ht).symm
    show _ ↔ [0] < d.toInt :: key t
    rw [List.cons_lt_cons_iff]
    omega
  | case3 c s =>
    have hc : c.toInt ≠ 0 := mt toInt_eq_zero_iff.mp (List.ne_of_not_mem_cons hs).symm
    show _ ↔ c.toInt :: key s < [0]
    rw [List.cons_lt_cons_iff]
    omega
  | case4 s d t ih =>
    rw [ih (List.not_mem_of_not_mem_cons hs) (List.not_mem_of_not_mem_cons ht), key_cons, key_cons,
      List.cons_lt_cons_self]
  | case5 c s d t hne =>
    have hcd : c.toInt ≠ d.toInt := mt BitVec.toInt_inj.mp hne
    rw [key_cons, key_cons, List.cons_lt_cons_iff]
    omega

theorem strcmp_pos_iff {s t : List (BitVec 8)} (hs : 0 ∉ s) (ht : 0 ∉ t) :
    0 < strcmp s t ↔ key t < key s := by
  rw [← strcmp_neg_iff ht hs, strcmp_swap]
  omega

theorem strcmp_nonpos_iff {s t : List (BitVec 8)} (hs : 0 ∉ s) (ht : 0 ∉ t) :
    strcmp s t ≤ 0 ↔ key s ≤ key t := by
  rw [← not_lt, strcmp_pos_iff hs ht, not_lt]

theorem strcmp_eq_zero_iff {s t : List (BitVec 8)} (hs : 0 ∉ s) (ht : 0 ∉ t) :
    strcmp s t = 0 ↔ s = t := by
  rw [← key_inj, le_antisymm_iff, le_antisymm_iff, strcmp_nonpos_iff hs ht,
    ← strcmp_nonpos_iff ht hs, strcmp_swap s t, neg_nonpos]

/-- The first `k` characters decide when one string is shorter. -/
theorem strcmp_take {s t : List (BitVec 8)} {k : ℕ} (h : s.length < k ∨ t.length < k) :
    strcmp (s.take k) (t.take k) = strcmp s t := by
  cases k with
  | zero => omega
  | succ k =>
    fun_induction strcmp s t generalizing k with
    | case1 => rfl
    | case2 d t => rfl
    | case3 c s => rfl
    | case4 s d t ih =>
      rw [List.length_cons, List.length_cons] at h
      rw [List.take_succ_cons, List.take_succ_cons, strcmp, if_pos rfl]
      cases k with
      | zero => omega
      | succ k => exact ih k (by omega)
    | case5 c s d t hne => exact if_neg hne

/-- The bytes that differ first. -/
def DifferAt (s t : List (BitVec 8)) (i : ℕ) (c d : BitVec 8) : Prop :=
  (∀ j < i, s[j]? = t[j]?) ∧ s[i]? = some c ∧ t[i]? = some d ∧ c ≠ d

theorem DifferAt.cons {s t : List (BitVec 8)} {i : ℕ} {c d : BitVec 8} (h : DifferAt s t i c d)
    (b : BitVec 8) : DifferAt (b :: s) (b :: t) (i + 1) c d := by
  refine ⟨fun j hj => ?_, h.2⟩
  cases j with
  | zero => rfl
  | succ j => exact h.1 j (Nat.lt_of_succ_lt_succ hj)

theorem differAt_zero {s t : List (BitVec 8)} {c d : BitVec 8} (hne : c ≠ d) :
    DifferAt (c :: s) (d :: t) 0 c d :=
  ⟨fun _ hj => absurd hj (Nat.not_lt_zero _), rfl, rfl, hne⟩

/-- Different strings with their NULs differ somewhere first, and there is the result. -/
theorem exists_differAt {s t : List (BitVec 8)} (hs : 0 ∉ s) (ht : 0 ∉ t) (hne : s ≠ t) :
    ∃ i c d, DifferAt (s ++ [0]) (t ++ [0]) i c d ∧ strcmp s t = c.toInt - d.toInt := by
  fun_induction strcmp s t with
  | case1 => exact absurd rfl hne
  | case2 d t => exact ⟨0, 0, d, differAt_zero (List.ne_of_not_mem_cons ht), rfl⟩
  | case3 c s => exact ⟨0, c, 0, differAt_zero (List.ne_of_not_mem_cons hs).symm, rfl⟩
  | case4 s d t ih =>
    obtain ⟨i, c, d', hdiff, heq⟩ := ih (List.not_mem_of_not_mem_cons hs)
      (List.not_mem_of_not_mem_cons ht) (fun heq => hne (congrArg _ heq))
    exact ⟨i + 1, c, d', hdiff.cons d, heq⟩
  | case5 c s d t hcd => exact ⟨0, c, d, differAt_zero hcd, rfl⟩

end CString
