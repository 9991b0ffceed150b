import Mathlib.Data.List.Infix
import ClickhouseUring.FileCopy.Loop

/-!
# Whether the copy programs copy

Here the reads are of a file that keeps its content.  A read returns some of the bytes at its
position, at least one before the end of the file.

`copies_iff` says for which files a program that returns `EXIT_SUCCESS` leaves a copy.
-/

namespace ClickhouseUring.FileCopy

open CInt

/-- What a read may return: bytes from the position on, or an error. -/
def ReadFrom (src : List UInt8) (position length : ℤ) : Option (List UInt8) → Prop
  | none => True
  | some bytes => 0 ≤ position ∧ bytes <+: src.drop position.toNat ∧ (bytes.length : ℤ) ≤ length ∧
      (bytes = [] → src.length ≤ position.toNat)

/-- The result is that of a read of the file. -/
def Posix (p : Program) (src : List UInt8) (s : State) (result : Option (List UInt8)) : Prop :=
  match s with
  | .looping c => ReadFrom src (p.position c) c.request result
  | .exitSuccess _ => True
  | .exitFailure _ => True

theorem posix_looping {p : Program} {src : List UInt8} {c : Copy}
    {result : Option (List UInt8)} :
    Posix p src (.looping c) result ↔ ReadFrom src (p.position c) c.request result := Iff.rfl

/-- The program may return `EXIT_SUCCESS` with these bytes in `temp.txt`. -/
def Succeeds (p : Program) (src temp : List UInt8) : Prop :=
  ∃ results, p.main.Steps (Posix p src) (start src.length) results ∧
    p.main.after (start src.length) results = .exitSuccess temp

/-- Both programs leave a copy, the same one, if they return `EXIT_SUCCESS`. -/
def Copies (src : List UInt8) : Prop :=
  (∀ p temp, Succeeds p src temp → temp = src) ∧
  ∀ temp temp', Succeeds .victim src temp → Succeeds .testSpeed src temp' → temp = temp'

/-! ## Files that fit in an `int` -/

/-- Where the program is.  After a short read `victim` is behind its position for good, and never
gets to the end. -/
def Place (src : List UInt8) (c : Copy) : Program → Prop
  | .victim => ∃ k : ℕ, c.count = k ∧ k ≤ 2 ^ 21 ∧ c.temp.length ≤ k * 1024 ∧
      (c.temp.length = k * 1024 → c.temp <+: src)
  | .testSpeed => c.offset = c.temp.length ∧ c.temp <+: src

/-- What has been copied is counted, and the end is not reached. -/
structure Copying (p : Program) (src : List UInt8) (c : Copy) : Prop where
  remaining : c.remainingBytes = src.length - c.temp.length
  pos : c.temp.length < src.length
  place : Place src c p

/-- The states in which nothing is lost. -/
inductive Good (p : Program) (src : List UInt8) : State → Prop
  | looping {c} (h : Copying p src c) : Good p src (.looping c)
  | success : Good p src (.exitSuccess src)
  | failure {temp} : Good p src (.exitFailure temp)

/-- More bytes of the file behind those that are there. -/
theorem append_prefix {src temp bytes : List UInt8} (h : temp <+: src)
    (hbytes : bytes <+: src.drop temp.length) : temp ++ bytes <+: src := by
  obtain ⟨rest, rfl⟩ := h
  rw [List.drop_left] at hbytes
  exact (List.prefix_append_right_inj temp).mpr hbytes

theorem good_start (p : Program) {src : List UInt8} (h : src.length < 2 ^ 31) :
    Good p src (start src.length) := by
  have hwrap : wrap 32 src.length = src.length :=
    wrap_eq_self (fits_of_nonneg (Int.natCast_nonneg _) (by omega))
  unfold start Copy.head
  dsimp only
  rw [hwrap]
  split_ifs with hpos
  · refine .looping ⟨(Int.sub_zero _).symm, by simpa using hpos, ?_⟩
    cases p with
    | testSpeed => exact ⟨rfl, List.nil_prefix⟩
    | victim => exact ⟨0, rfl, Nat.zero_le _, le_rfl, fun _ => List.nil_prefix⟩
  · obtain rfl : src = [] := List.length_eq_zero_iff.mp (by omega)
    exact .success

/-- The position of `victim` after `k` reads. -/
theorem position_victim {c : Copy} {k : ℕ} (hk : c.count = k) (hle : k ≤ 2 ^ 21)
    (hpos : 0 ≤ Program.victim.position c) :
    k < 2 ^ 21 ∧ (Program.victim.position c).toNat = k * 1024 := by
  unfold Program.position bufferSize at hpos ⊢
  dsimp only at hpos ⊢
  rw [hk] at hpos ⊢
  rcases Nat.lt_or_eq_of_le hle with hlt | rfl
  · rw [wrap_eq_self (fits_of_nonneg (by omega) (by omega))]
    exact ⟨hlt, by omega⟩
  · exact absurd hpos (by decide)

theorem place_step {p : Program} {src : List UInt8} {c : Copy} (hc : Copying p src c)
    {bytes : List UInt8} (hread : ReadFrom src (p.position c) c.request (some bytes))
    (hlength : (bytes.length : ℤ) ≤ bufferSize) (remainingBytes : ℤ) :
    Place src ⟨remainingBytes, wrap 32 (c.count + 1), p.moved c bytes.length, c.temp ++ bytes⟩ p ∧
    (c.temp.length + bytes.length = src.length → c.temp ++ bytes = src) := by
  obtain ⟨hnonneg, hprefix, -, -⟩ := hread
  have hlen := hprefix.length_le
  rw [List.length_drop] at hlen
  have hpos := hc.pos
  have hplace := hc.place
  unfold bufferSize at hlength
  cases p with
  | testSpeed =>
    obtain ⟨hoffset, htemp⟩ := hplace
    have hposition : (Program.testSpeed.position c).toNat = c.temp.length := hoffset
    rw [hposition] at hprefix
    have happend := append_prefix htemp hprefix
    refine ⟨⟨?_, happend⟩, fun hall => happend.eq_of_length ?_⟩
    · show c.offset + bytes.length = (c.temp ++ bytes).length
      rw [List.length_append, hoffset]
    · rw [List.length_append, hall]
  | victim =>
    obtain ⟨k, hk, hle, hbehind, hprefix_temp⟩ := hplace
    obtain ⟨hlt, hposition⟩ := position_victim hk hle hnonneg
    rw [hposition] at hprefix hlen
    have hcount : wrap 32 (c.count + 1) = (k + 1 : ℕ) := by
      rw [hk, wrap_eq_self (fits_of_nonneg (by omega) (by omega))]
      rfl
    have happend : c.temp.length = k * 1024 → c.temp ++ bytes <+: src := by
      intro heq
      rw [← heq] at hprefix
      exact append_prefix (hprefix_temp heq) hprefix
    refine ⟨⟨k + 1, hcount, hlt, ?_, ?_⟩, ?_⟩
    · rw [List.length_append]
      omega
    · intro heq
      rw [List.length_append] at heq
      exact happend (by omega)
    · intro hall
      refine (happend ?_).eq_of_length ?_
      · omega
      · rw [List.length_append, hall]

theorem good_step {p : Program} {src : List UInt8} (h : src.length < 2 ^ 31) {s : State}
    {result : Option (List UInt8)} (hs : Good p src s) (hread : Posix p src s result) :
    Good p src (p.main.step s result) := by
  cases hs with
  | success => exact .success
  | failure => exact .failure
  | @looping c hc =>
    cases result with
    | none => exact .failure
    | some bytes =>
      have hremaining := hc.remaining
      have hpos := hc.pos
      obtain ⟨-, hbuffer, hreq⟩ := request_bounds (c := c) (by omega)
      have hle : (bytes.length : ℤ) ≤ c.request := hread.2.2.1
      have hfits : Fits 32 c.remainingBytes := fits_of_nonneg (by omega) (by omega)
      have hbody : p.main.step (.looping c) (some bytes) = _ :=
        body_some p hfits (by omega) hle
      obtain ⟨hplace, hall⟩ :=
        place_step hc hread (hle.trans hbuffer) (c.remainingBytes - bytes.length)
      rw [hbody]
      unfold Copy.head
      dsimp only
      split_ifs with hmore
      · refine .looping ⟨?_, ?_, hplace⟩
        · dsimp only
          rw [List.length_append, hremaining, Nat.cast_add]
          omega
        · dsimp only
          rw [List.length_append]
          omega
      · rw [hall (by omega)]
        exact .success

/-- A file that fits in an `int` is copied. -/
theorem eq_of_succeeds {p : Program} {src temp : List UInt8} (h : src.length < 2 ^ 31)
    (hsucceeds : Succeeds p src temp) : temp = src := by
  obtain ⟨results, hposix, hafter⟩ := hsucceeds
  have hstart := good_start p h
  have hgood : Good p src (p.main.after (start src.length) results) :=
    p.main.after_of_invariant (fun _ _ hs hread => good_step h hs hread) hstart hposix
  rw [hafter] at hgood
  cases hgood
  rfl

/-! ## Larger files -/

/-- The variables after `k` reads that were not short. -/
def Program.full (p : Program) (src : List UInt8) (size : ℤ) (k : ℕ) : Copy where
  remainingBytes := size - k * 1024
  count := k
  offset := match p with
    | .victim => 0
    | .testSpeed => k * 1024
  temp := src.take (k * 1024)

section Full

variable {p : Program} {src : List UInt8} {size : ℤ} {k : ℕ}

theorem full_zero (p : Program) (src : List UInt8) (size : ℤ) :
    p.full src size 0 = ⟨size, 0, 0, []⟩ := by
  have hsub : size - (0 : ℕ) * 1024 = size := by omega
  cases p with
  | victim => exact congrArg (Copy.mk · 0 0 []) hsub
  | testSpeed => exact congrArg (Copy.mk · 0 0 []) hsub

theorem position_full (hsize : size < 2 ^ 31) (hk : k * 1024 < size) :
    p.position (p.full src size k) = k * 1024 := by
  cases p with
  | victim =>
    have hfits : Fits 32 ((k : ℤ) * 1024) := fits_of_nonneg (by omega) (by omega)
    exact wrap_eq_self hfits
  | testSpeed => rfl

/-- The bytes of a read that is not short. -/
def chunk (src : List UInt8) (size : ℤ) (k : ℕ) : List UInt8 :=
  (src.drop (k * 1024)).take (min 1024 (size.toNat - k * 1024))

theorem length_chunk (hle : size ≤ src.length) :
    (chunk src size k).length = min 1024 (size.toNat - k * 1024) := by
  unfold chunk
  rw [List.length_take, List.length_drop]
  omega

theorem request_full (hk : k * 1024 < size) :
    (p.full src size k).request = (min 1024 (size.toNat - k * 1024) : ℕ) := by
  unfold Copy.request Program.full bufferSize
  dsimp only
  split_ifs
  · omega
  · omega

theorem posix_full (hsize : size < 2 ^ 31) (hle : size ≤ src.length) (hk : k * 1024 < size) :
    Posix p src (.looping (p.full src size k)) (some (chunk src size k)) := by
  rw [posix_looping, position_full hsize hk, request_full hk]
  have hlength := length_chunk (k := k) hle
  refine ⟨by omega, List.take_prefix _ _, by omega, fun hnil => ?_⟩
  rw [hnil, List.length_nil] at hlength
  omega

theorem take_append_chunk (src : List UInt8) (size : ℤ) (k : ℕ) :
    src.take (k * 1024) ++ chunk src size k =
      src.take (k * 1024 + min 1024 (size.toNat - k * 1024)) := List.take_add.symm

/-- The variables after one more read, if it is not the last. -/
theorem full_succ (hsize : size < 2 ^ 31) (hle : size ≤ src.length)
    (hmore : (k + 1 : ℕ) * 1024 < size) :
    (⟨size - k * 1024 - (chunk src size k).length, wrap 32 (k + 1),
      p.moved (p.full src size k) (chunk src size k).length,
      src.take (k * 1024) ++ chunk src size k⟩ : Copy) = p.full src size (k + 1) := by
  have hlength : (chunk src size k).length = 1024 := by
    rw [length_chunk hle]
    omega
  have htaken : k * 1024 + min 1024 (size.toNat - k * 1024) = (k + 1) * 1024 := by omega
  have hcount : wrap 32 (k + 1 : ℤ) = (k + 1 : ℕ) :=
    wrap_eq_self (fits_of_nonneg (by omega) (by omega))
  rw [take_append_chunk, htaken, hlength, hcount]
  unfold Program.full
  rw [Copy.mk.injEq]
  refine ⟨by omega, rfl, ?_, rfl⟩
  cases p with
  | victim => rfl
  | testSpeed => exact (Nat.succ_mul k 1024).symm

theorem step_full (hsize : size < 2 ^ 31) (hle : size ≤ src.length) (hk : k * 1024 < size) :
    p.main.step (.looping (p.full src size k)) (some (chunk src size k)) =
      if (k + 1 : ℕ) * 1024 < size then .looping (p.full src size (k + 1))
      else .exitSuccess (src.take size.toNat) := by
  have hlength := length_chunk (k := k) hle
  have hfits : Fits 32 (size - k * 1024) := fits_of_nonneg (by omega) (by omega)
  have hpos : 0 < size - (k : ℤ) * 1024 := by omega
  have hbody : p.main.step (.looping (p.full src size k)) (some (chunk src size k)) =
      Copy.head ⟨size - k * 1024 - (chunk src size k).length, wrap 32 (k + 1),
        p.moved (p.full src size k) (chunk src size k).length,
        src.take (k * 1024) ++ chunk src size k⟩ :=
    body_some p hfits hpos (by rw [request_full hk, hlength])
  rw [hbody]
  by_cases hmore : (k + 1 : ℕ) * 1024 < size
  · have hpos' : 0 < (p.full src size (k + 1)).remainingBytes := by
      show 0 < size - (k + 1 : ℕ) * 1024
      omega
    rw [full_succ hsize hle hmore, if_pos hmore]
    exact if_pos hpos'
  · have htaken : k * 1024 + min 1024 (size.toNat - k * 1024) = size.toNat := by omega
    have hend : ¬ 0 < size - (k : ℤ) * 1024 - (chunk src size k).length := by omega
    rw [take_append_chunk, htaken, if_neg hmore]
    exact if_neg hend

/-- From any number of reads on, the rest may be read in full. -/
theorem exists_full_run (hsize : size < 2 ^ 31) (hle : size ≤ src.length) (hk : k * 1024 < size) :
    ∃ results, p.main.Steps (Posix p src) (.looping (p.full src size k)) results ∧
      p.main.after (.looping (p.full src size k)) results = .exitSuccess (src.take size.toNat) := by
  induction hn : size.toNat - k * 1024 using Nat.strongRecOn generalizing k with
  | ind n ih =>
    have hposix := posix_full (p := p) hsize hle hk
    have hstep := step_full (p := p) hsize hle hk
    split_ifs at hstep with hmore
    · obtain ⟨results, hsteps, hafter⟩ := ih _ (by omega) hmore rfl
      refine ⟨some (chunk src size k) :: results, ?_, ?_⟩
      · rw [Machine.steps_cons, hstep]
        exact ⟨hposix, hsteps⟩
      · rw [Machine.after_cons, hstep]
        exact hafter
    · refine ⟨[some (chunk src size k)], ⟨hposix, trivial⟩, ?_⟩
      rw [Machine.after_cons, hstep]
      rfl

end Full

theorem succeeds_of_start (p : Program) {src temp : List UInt8}
    (h : start src.length = .exitSuccess temp) : Succeeds p src temp := by
  refine ⟨[], p.main.steps_nil _ _, ?_⟩
  rw [Machine.after_nil, h]

/-- A file that does not fit in an `int`: the program may succeed without a copy of it. -/
theorem exists_succeeds (p : Program) {src : List UInt8} (h : 2 ^ 31 ≤ src.length) :
    ∃ temp, Succeeds p src temp ∧ temp.length < src.length := by
  have hmax := wrap_lt src.length
  rcases le_or_gt (wrap 32 src.length) 0 with hpos | hpos
  · refine ⟨[], succeeds_of_start p (start_of_nonpos hpos), ?_⟩
    rw [List.length_nil]
    omega
  · have hstart := start_of_pos hpos
    rw [← full_zero p src] at hstart
    generalize wrap 32 src.length = size at hmax hpos hstart
    have hle : size ≤ src.length := by omega
    have hlt : ((0 : ℕ) : ℤ) * 1024 < size := by omega
    obtain ⟨results, hsteps, hafter⟩ := exists_full_run (p := p) hmax hle hlt
    refine ⟨src.take size.toNat, ⟨results, ?_, ?_⟩, ?_⟩
    · rw [hstart]
      exact hsteps
    · rw [hstart]
      exact hafter
    · rw [List.length_take]
      omega

/-- The programs copy exactly the files of less than 2 GiB. -/
theorem copies_iff (src : List UInt8) : Copies src ↔ src.length < 2 ^ 31 := by
  constructor
  · rintro ⟨hcopies, -⟩
    by_contra hlarge
    obtain ⟨temp, hsucceeds, hlt⟩ := exists_succeeds .victim (not_lt.mp hlarge)
    rw [hcopies .victim temp hsucceeds] at hlt
    exact lt_irrefl _ hlt
  · intro h
    refine ⟨fun p temp => eq_of_succeeds h, fun temp temp' hvictim htest => ?_⟩
    rw [eq_of_succeeds h hvictim, eq_of_succeeds h htest]

/-- A file of 2 GiB: both programs return `EXIT_SUCCESS` at once. -/
theorem not_copies_two_gib : ¬ Copies (List.replicate (2 ^ 31) 0) := by
  rintro ⟨hcopies, -⟩
  have hwrap : wrap 32 ((List.replicate (2 ^ 31) (0 : UInt8)).length : ℕ) ≤ 0 := by
    rw [List.length_replicate]
    decide
  have hnil := hcopies .victim [] (succeeds_of_start .victim (start_of_nonpos hwrap))
  have hlength := congrArg List.length hnil
  rw [List.length_replicate] at hlength
  exact absurd hlength (by decide)

end ClickhouseUring.FileCopy
