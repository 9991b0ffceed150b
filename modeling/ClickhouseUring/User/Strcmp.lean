import ClickhouseUring.Kit.CString

/-!
# `bpf_strcmp` of `IO_syscall_patch/user.bpf.c`

The loop compares at most `MAX_STR_LEN` characters.  The bytes of a string are those up to its
NUL, and reading past them has no result.  `bpfStrcmp_eq` compares the loop with `strcmp` of the
first characters.
-/

namespace ClickhouseUring.User

open CString

/-- `MAX_STR_LEN`. -/
def maxStrLen : ℕ := 128

/-- The loop of `bpf_strcmp` from `i` on, with `k` iterations left. -/
def bpfStrcmpFrom (s1 s2 : List (BitVec 8)) : ℕ → ℕ → Option ℤ
  | 0, _ => some 0
  | k + 1, i => do
    let c1 ← s1[i]?
    let c2 ← s2[i]?
    if c1 ≠ c2 then some (c1.toInt - c2.toInt)
    else if c1 = 0 then some 0
    else bpfStrcmpFrom s1 s2 k (i + 1)

/-- `bpf_strcmp`. -/
def bpfStrcmp (s1 s2 : List (BitVec 8)) : Option ℤ := bpfStrcmpFrom s1 s2 maxStrLen 0

theorem getElem?_append_length (past s : List (BitVec 8)) :
    (past ++ s)[past.length]? = s.head? := by
  rw [List.getElem?_append_right le_rfl, Nat.sub_self, List.head?_eq_getElem?]

theorem bpfStrcmpFrom_succ {past past' s t : List (BitVec 8)} (hpast : past.length = past'.length)
    {c d : BitVec 8} (k : ℕ) :
    bpfStrcmpFrom (past ++ c :: s) (past' ++ d :: t) (k + 1) past.length =
      if c ≠ d then some (c.toInt - d.toInt)
      else if c = 0 then some 0
      else bpfStrcmpFrom (past ++ c :: s) (past' ++ d :: t) k (past.length + 1) := by
  rw [bpfStrcmpFrom, getElem?_append_length, hpast, getElem?_append_length]
  rfl

/-- Past characters that were equal, the loop compares the next `k`. -/
theorem bpfStrcmpFrom_eq {past past' s t : List (BitVec 8)} (hpast : past.length = past'.length)
    (hs : 0 ∉ s) (ht : 0 ∉ t) (k : ℕ) :
    bpfStrcmpFrom (past ++ (s ++ [0])) (past' ++ (t ++ [0])) k past.length =
      some (strcmp (s.take k) (t.take k)) := by
  induction k generalizing past past' s t with
  | zero => rfl
  | succ k ih =>
    cases s with
    | nil =>
      cases t with
      | nil => exact bpfStrcmpFrom_succ hpast k
      | cons d t =>
        rw [List.nil_append, List.cons_append, bpfStrcmpFrom_succ hpast,
          if_pos (List.ne_of_not_mem_cons ht)]
        rfl
    | cons c s =>
      have hc : c ≠ 0 := (List.ne_of_not_mem_cons hs).symm
      cases t with
      | nil =>
        rw [List.nil_append, List.cons_append, bpfStrcmpFrom_succ hpast, if_pos hc]
        rfl
      | cons d t =>
        rw [List.cons_append, List.cons_append, bpfStrcmpFrom_succ hpast, List.take_succ_cons,
          List.take_succ_cons, strcmp]
        by_cases hcd : c = d
        · subst hcd
          have hpast' : (past ++ [c]).length = (past' ++ [c]).length := by
            rw [List.length_append, List.length_append, hpast]
          have hnext := ih hpast' (List.not_mem_of_not_mem_cons hs)
            (List.not_mem_of_not_mem_cons ht)
          rw [List.append_assoc, List.append_assoc, List.length_append] at hnext
          rw [if_neg (not_not.mpr rfl), if_neg hc, if_pos rfl]
          exact hnext
        · rw [if_pos hcd, if_neg hcd]

/-- `bpf_strcmp` stays within its strings, and compares their first characters. -/
theorem bpfStrcmp_eq {s t : List (BitVec 8)} (hs : 0 ∉ s) (ht : 0 ∉ t) :
    bpfStrcmp (s ++ [0]) (t ++ [0]) =
      some (strcmp (s.take maxStrLen) (t.take maxStrLen)) :=
  @bpfStrcmpFrom_eq [] [] s t rfl hs ht maxStrLen

/-! ## The comparison -/

/-- `bpf_strcmp` of two strings has a result, and it is what `p` allows. -/
def Compares (s t : List (BitVec 8)) (p : ℤ → Prop) : Prop :=
  ∃ r, bpfStrcmp (s ++ [0]) (t ++ [0]) = some r ∧ p r

theorem compares_iff {s t : List (BitVec 8)} (hs : 0 ∉ s) (ht : 0 ∉ t) {p : ℤ → Prop} :
    Compares s t p ↔ p (strcmp (s.take maxStrLen) (t.take maxStrLen)) := by
  unfold Compares
  rw [bpfStrcmp_eq hs ht]
  simp

/-- `bpf_strcmp` decides the order of two strings: it is 0 for equal strings only, else the
difference of the first characters that differ, and the negative of the comparison the other way
round. -/
def Decides (s t : List (BitVec 8)) : Prop :=
  Compares s t fun r => (r = 0 ↔ s = t) ∧
    (s ≠ t → ∃ i c d, DifferAt (s ++ [0]) (t ++ [0]) i c d ∧ r = c.toInt - d.toInt) ∧
    bpfStrcmp (t ++ [0]) (s ++ [0]) = some (-r)

/-- What is before or the same as what is before or the same as `u`, is so, and it is before `u`
when one of the two is before the other. -/
def SignTransitive (s t u : List (BitVec 8)) : Prop :=
  Compares s t (· ≤ 0) → Compares t u (· ≤ 0) →
    Compares s u (· ≤ 0) ∧ (Compares s t (· < 0) ∨ Compares t u (· < 0) → Compares s u (· < 0))

theorem signTransitive {s t u : List (BitVec 8)} (hs : 0 ∉ s) (ht : 0 ∉ t) (hu : 0 ∉ u) :
    SignTransitive s t u := by
  have hs' : 0 ∉ s.take maxStrLen := mt List.mem_of_mem_take hs
  have ht' : 0 ∉ t.take maxStrLen := mt List.mem_of_mem_take ht
  have hu' : 0 ∉ u.take maxStrLen := mt List.mem_of_mem_take hu
  unfold SignTransitive
  simp only [compares_iff, hs, ht, hu, strcmp_nonpos_iff, strcmp_neg_iff, hs', ht', hu',
    not_false_eq_true]
  intro hst htu
  refine ⟨hst.trans htu, ?_⟩
  rintro (hlt | hlt)
  · exact hlt.trans_le htu
  · exact hst.trans_lt hlt

/-- The comparison of any two strings one of which is shorter than the bound. -/
theorem bpfStrcmp_decides {s t : List (BitVec 8)} (hs : 0 ∉ s) (ht : 0 ∉ t)
    (hlen : s.length < maxStrLen ∨ t.length < maxStrLen) :
    Decides s t ∧ ∀ u, 0 ∉ u → SignTransitive s t u := by
  refine ⟨?_, fun u hu => signTransitive hs ht hu⟩
  unfold Decides
  rw [compares_iff hs ht, strcmp_take hlen, bpfStrcmp_eq ht hs, strcmp_take hlen.symm,
    strcmp_swap s t]
  exact ⟨strcmp_eq_zero_iff hs ht, exists_differAt hs ht, rfl⟩

/-- The end of a string counts as 0, so a character above 127 is before it. -/
theorem bpfStrcmp_decides_signed :
    (bpfStrcmp [0x61, 0x80, 0] [0x61, 0] = some (-128)) ∧ Decides [0x61, 0x80] [0x61] :=
  ⟨by decide, (bpfStrcmp_decides (by decide) (by decide) (by decide)).1⟩

end ClickhouseUring.User
