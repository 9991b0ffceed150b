import Mathlib.Algebra.Order.Ring.Nat
import Mathlib.Data.Nat.Find
import ClickhouseUring.Kit.CInt
import ClickhouseUring.Kit.Run

/-!
# The copy loops of `IO_syscall_patch/victim.c` and `IO_syscall_patch/test_speed.c`

Both programs copy a file to `temp.txt` in chunks of `BUFFER_SIZE` bytes.  `victim` reads with
`pread` at `count * BUFFER_SIZE`, `test_speed` with `read` through `wrapper`.  The size of the file
becomes an `int`.

The result of a read is an input: the bytes, or nothing for -1.  A write transfers all of its
bytes, and fails if their number is negative.  Results after the end of the loop are not used.

`ends_iff` says for which results the loop ends.
-/

namespace ClickhouseUring.FileCopy

open CInt

/-- `BUFFER_SIZE`. -/
def bufferSize : ℤ := 1024

/-- The programs. -/
inductive Program
  | victim
  | testSpeed
deriving DecidableEq, Repr

/-- The variables of `main`, the offset of the open source file and the content of `temp.txt`. -/
structure Copy where
  remainingBytes : ℤ
  count : ℤ
  offset : ℕ
  temp : List UInt8
deriving DecidableEq, Repr

/-- In the loop, or returned with what is in `temp.txt`. -/
inductive State
  | looping (c : Copy)
  | exitSuccess (temp : List UInt8)
  | exitFailure (temp : List UInt8)
deriving DecidableEq, Repr

/-- A read: where, how many bytes, and what it returned. -/
structure Read where
  position : ℤ
  length : ℤ
  result : Option (List UInt8)
deriving DecidableEq, Repr

/-! ## The functions of the source -/

/-- The position that a read is from. -/
def Program.position (p : Program) (c : Copy) : ℤ :=
  match p with
  | victim => wrap 32 (c.count * bufferSize)
  | testSpeed => c.offset

/-- The offset of the open file after a read of `n` bytes; `pread` leaves it alone. -/
def Program.moved (p : Program) (c : Copy) (n : ℕ) : ℕ :=
  match p with
  | victim => c.offset
  | testSpeed => c.offset + n

/-- The length that is asked for. -/
def Copy.request (c : Copy) : ℤ :=
  if c.remainingBytes < bufferSize then c.remainingBytes else bufferSize

/-- The head of the loop. -/
def Copy.head (c : Copy) : State :=
  if 0 < c.remainingBytes then .looping c else .exitSuccess c.temp

/-- The return value of a read. -/
def returned : Option (List UInt8) → ℤ
  | some bytes => bytes.length
  | none => -1

/-- The return value of `write`. -/
def write (length : ℤ) : ℤ := if length < 0 then -1 else length

/-- The body of the loop. -/
def Program.body (p : Program) (c : Copy) (result : Option (List UInt8)) : State :=
  let bytesRead := returned result
  let remainingBytes := wrap 32 (c.remainingBytes - bytesRead)
  let bytesWritten := write bytesRead
  if bytesWritten = -1 then .exitFailure c.temp
  else
    Copy.head
      { remainingBytes
        count := wrap 32 (c.count + 1)
        offset := p.moved c bytesRead.toNat
        temp := c.temp ++ result.getD [] }

/-- `main` after `fstat`, for a file of `stSize` bytes. -/
def start (stSize : ℤ) : State := Copy.head ⟨wrap 32 stSize, 0, 0, []⟩

/-- The program, driven by the results of its reads. -/
def Program.main (p : Program) : Machine State (Option (List UInt8)) Read where
  step s result := match s with
    | .looping c => p.body c result
    | .exitSuccess temp => .exitSuccess temp
    | .exitFailure temp => .exitFailure temp
  out s result := match s with
    | .looping c => [⟨p.position c, c.request, result⟩]
    | .exitSuccess _ => []
    | .exitFailure _ => []

/-! ## What the body does -/

theorem wrap_lt (x : ℤ) : wrap 32 x < 2 ^ 31 := (fits_wrap 31 x).2

theorem start_of_pos {stSize : ℤ} (h : 0 < wrap 32 stSize) :
    start stSize = .looping ⟨wrap 32 stSize, 0, 0, []⟩ := if_pos h

theorem start_of_nonpos {stSize : ℤ} (h : wrap 32 stSize ≤ 0) : start stSize = .exitSuccess [] :=
  if_neg (not_lt.mpr h)

theorem body_none (p : Program) (c : Copy) : p.body c none = .exitFailure c.temp := rfl

/-- The length asked for, in the loop. -/
theorem request_bounds {c : Copy} (h : 0 < c.remainingBytes) :
    0 < c.request ∧ c.request ≤ bufferSize ∧ c.request ≤ c.remainingBytes := by
  unfold Copy.request bufferSize
  split_ifs with hlt
  · omega
  · omega

theorem body_some (p : Program) {c : Copy} {bytes : List UInt8} (hfits : Fits 32 c.remainingBytes)
    (hpos : 0 < c.remainingBytes) (hle : (bytes.length : ℤ) ≤ c.request) :
    p.body c (some bytes) = Copy.head ⟨c.remainingBytes - bytes.length, wrap 32 (c.count + 1),
      p.moved c bytes.length, c.temp ++ bytes⟩ := by
  obtain ⟨-, -, hreq⟩ := request_bounds hpos
  have hfits' : Fits 32 (c.remainingBytes - bytes.length) :=
    fits_of_nonneg (by omega) (by have := hfits.2; omega)
  have hwrite : write bytes.length ≠ -1 := by
    unfold write
    split_ifs
    · omega
    · omega
  show (if write bytes.length = -1 then State.exitFailure c.temp else
    Copy.head ⟨wrap 32 (c.remainingBytes - bytes.length), _, _, _⟩) = _
  rw [if_neg hwrite, wrap_eq_self hfits']
  rfl

/-! ## The end of the loop -/

/-- The first `n` results. -/
def firstResults (results : ℕ → Option (List UInt8)) (n : ℕ) : List (Option (List UInt8)) :=
  (List.range n).map results

/-- The state after `n` results. -/
def Program.stateAfter (p : Program) (stSize : ℤ) (results : ℕ → Option (List UInt8)) (n : ℕ) :
    State :=
  p.main.after (start stSize) (firstResults results n)

/-- The loop is over after finitely many iterations. -/
def Ends (p : Program) (stSize : ℤ) (results : ℕ → Option (List UInt8)) : Prop :=
  ∃ n, ∀ c, p.stateAfter stSize results n ≠ .looping c

/-- No read returns more than it was asked for. -/
def Allowed (p : Program) (stSize : ℤ) (results : ℕ → Option (List UInt8)) : Prop :=
  ∀ n c, p.stateAfter stSize results n = .looping c →
    ∀ bytes, results n = some bytes → (bytes.length : ℤ) ≤ c.request

/-- The bytes in the first `n` results. -/
def total (results : ℕ → Option (List UInt8)) : ℕ → ℕ
  | 0 => 0
  | n + 1 => total results n + ((results n).getD []).length

section Ends

variable {p : Program} {stSize : ℤ} {results : ℕ → Option (List UInt8)}

theorem stateAfter_succ (n : ℕ) :
    p.stateAfter stSize results (n + 1) =
      p.main.step (p.stateAfter stSize results n) (results n) := by
  unfold Program.stateAfter firstResults
  rw [List.range_succ, List.map_append, List.map_singleton, Machine.after_concat]

theorem total_mono {m n : ℕ} (h : m ≤ n) : total results m ≤ total results n := by
  induction n, h using Nat.le_induction with
  | base => exact le_rfl
  | succ n _ ih => exact ih.trans (Nat.le_add_right _ _)

/-- The loop is entered with bytes remaining. -/
theorem remainingBytes_pos {n : ℕ} {c : Copy} (h : p.stateAfter stSize results n = .looping c) :
    0 < c.remainingBytes := by
  have hhead : ∀ d : Copy, d.head = .looping c → 0 < c.remainingBytes := by
    intro d hd
    unfold Copy.head at hd
    split_ifs at hd with hpos
    cases hd
    exact hpos
  cases n with
  | zero => exact hhead _ h
  | succ n =>
    rw [stateAfter_succ] at h
    cases hstate : p.stateAfter stSize results n with
    | looping d =>
      rw [hstate] at h
      have hbody : p.body d (results n) = .looping c := h
      unfold Program.body at hbody
      dsimp only at hbody
      split_ifs at hbody
      exact hhead _ hbody
    | exitSuccess temp => rw [hstate] at h; cases h
    | exitFailure temp => rw [hstate] at h; cases h

/-- A read that succeeds takes its bytes off those that remain. -/
theorem stateAfter_succ_some (h : Allowed p stSize results) {n : ℕ} {c : Copy}
    {bytes : List UInt8} (hstate : p.stateAfter stSize results n = .looping c)
    (hremaining : c.remainingBytes = wrap 32 stSize - total results n)
    (hbytes : results n = some bytes) :
    p.stateAfter stSize results (n + 1) = Copy.head ⟨wrap 32 stSize - total results (n + 1),
      wrap 32 (c.count + 1), p.moved c bytes.length, c.temp ++ bytes⟩ := by
  have hpos := remainingBytes_pos hstate
  have hmax := wrap_lt stSize
  have hfits : Fits 32 c.remainingBytes := fits_of_nonneg hpos.le (by omega)
  have htotal : wrap 32 stSize - total results (n + 1) = c.remainingBytes - bytes.length := by
    rw [total, hbytes, hremaining, Nat.cast_add]
    exact (Int.sub_sub _ _ _).symm
  rw [stateAfter_succ, hstate, hbytes, htotal]
  exact body_some p hfits hpos (h n c hstate bytes hbytes)

/-- As long as all reads succeed and return less than the size, the loop goes on. -/
theorem stateAfter_looping (h : Allowed p stSize results) {n : ℕ}
    (hsome : ∀ i < n, results i ≠ none) (hlt : (total results n : ℤ) < wrap 32 stSize) :
    ∃ c, p.stateAfter stSize results n = .looping c ∧
      c.remainingBytes = wrap 32 stSize - total results n := by
  induction n with
  | zero =>
    have hpos : 0 < wrap 32 stSize := hlt
    exact ⟨_, start_of_pos hpos, (Int.sub_zero _).symm⟩
  | succ n ih =>
    have hmono : total results n ≤ total results (n + 1) := total_mono (Nat.le_succ n)
    obtain ⟨c, hstate, hremaining⟩ :=
      ih (fun i hi => hsome i (Nat.lt_succ_of_lt hi)) (by omega)
    obtain ⟨bytes, hbytes⟩ := Option.ne_none_iff_exists'.mp (hsome n (Nat.lt_succ_self n))
    rw [stateAfter_succ_some h hstate hremaining hbytes]
    exact ⟨_, if_pos (Int.sub_pos_of_lt hlt), rfl⟩

/-- The loop goes on after result `n`. -/
def GoesOn (stSize : ℤ) (results : ℕ → Option (List UInt8)) (n : ℕ) : Prop :=
  results n ≠ none ∧ (total results (n + 1) : ℤ) < wrap 32 stSize

theorem not_goesOn_iff {n : ℕ} : ¬ GoesOn stSize results n ↔
    results n = none ∨ wrap 32 stSize ≤ total results (n + 1) := by
  unfold GoesOn
  rw [not_and_or, not_ne_iff, not_lt]

/-- Where the loop goes on after every result so far, it is not over. -/
theorem stateAfter_of_goesOn (h : Allowed p stSize results) (hpos : 0 < wrap 32 stSize) {n : ℕ}
    (hgoes : ∀ i < n, GoesOn stSize results i) :
    ∃ c, p.stateAfter stSize results n = .looping c ∧
      c.remainingBytes = wrap 32 stSize - total results n := by
  have hlt : (total results n : ℤ) < wrap 32 stSize := by
    cases n with
    | zero => exact hpos
    | succ n => exact (hgoes n (Nat.lt_succ_self n)).2
  exact stateAfter_looping h (fun i hi => (hgoes i hi).1) hlt

/-- Otherwise it is over after that result. -/
theorem stateAfter_succ_of_not_goesOn (h : Allowed p stSize results) {n : ℕ} {c : Copy}
    (hstate : p.stateAfter stSize results n = .looping c)
    (hremaining : c.remainingBytes = wrap 32 stSize - total results n)
    (hlast : ¬ GoesOn stSize results n) (c' : Copy) :
    p.stateAfter stSize results (n + 1) ≠ .looping c' := by
  rw [not_goesOn_iff] at hlast
  cases hresult : results n with
  | none =>
    rw [stateAfter_succ, hstate, hresult]
    show p.body c none ≠ _
    rw [body_none]
    exact State.noConfusion
  | some bytes =>
    rw [hresult, or_iff_right (Option.some_ne_none bytes)] at hlast
    rw [stateAfter_succ_some h hstate hremaining hresult]
    unfold Copy.head
    rw [if_neg (not_lt.mpr (Int.sub_nonpos_of_le hlast))]
    exact State.noConfusion

/-- Whether the loop ends is decided by the results, not by the program: it does so exactly when
the size as an `int` is not positive, a read fails, or the reads return that many bytes in all. -/
theorem ends_iff (h : Allowed p stSize results) :
    Ends p stSize results ↔ wrap 32 stSize ≤ 0 ∨
      ∃ n, results n = none ∨ wrap 32 stSize ≤ total results (n + 1) := by
  simp only [← not_goesOn_iff]
  rcases le_or_gt (wrap 32 stSize) 0 with hpos | hpos
  · refine iff_of_true ⟨0, fun c hstate => ?_⟩ (Or.inl hpos)
    exact State.noConfusion ((start_of_nonpos hpos).symm.trans hstate)
  rw [or_iff_right (not_le.mpr hpos)]
  constructor
  · rintro ⟨n, hn⟩
    by_contra! hgoes
    obtain ⟨c, hstate, -⟩ := stateAfter_of_goesOn h hpos fun i _ => hgoes i
    exact hn c hstate
  · intro hex
    classical
    -- the first result after which the loop cannot go on
    have hmin : ∀ i < Nat.find hex, GoesOn stSize results i :=
      fun i hi => not_not.mp (Nat.find_min hex hi)
    obtain ⟨c, hstate, hremaining⟩ := stateAfter_of_goesOn h hpos hmin
    exact ⟨_, stateAfter_succ_of_not_goesOn h hstate hremaining (Nat.find_spec hex)⟩

end Ends

/-- A file of one byte that is read. -/
theorem ends_one_byte : Ends .victim 1 fun n => if n = 0 then some [7] else none := by
  refine (ends_iff ?_).mpr (Or.inr ⟨0, Or.inr (by decide)⟩)
  intro n c hstate bytes hbytes
  cases n with
  | zero =>
    obtain rfl : [7] = bytes := Option.some.inj hbytes
    obtain rfl : ⟨1, 0, 0, []⟩ = c := State.looping.inj hstate
    decide
  | succ n => cases hbytes

/-- A file that was truncated after `fstat`: the reads are at its end and return nothing. -/
theorem loops_truncated (p : Program) :
    (Allowed p 1 fun _ => some []) ∧ ¬ Ends p 1 fun _ => some [] := by
  have hallowed : Allowed p 1 fun _ => some [] := by
    intro n c hstate bytes hbytes
    obtain rfl : [] = bytes := Option.some.inj hbytes
    exact (request_bounds (remainingBytes_pos hstate)).1.le
  refine ⟨hallowed, ?_⟩
  rintro ⟨n, hn⟩
  have htotal : ∀ n, total (fun _ => some []) n = 0 := by
    intro n
    induction n with
    | zero => rfl
    | succ n ih => exact ih
  obtain ⟨c, hstate, -⟩ := stateAfter_looping hallowed (n := n) (fun _ _ => Option.some_ne_none _)
    (by rw [htotal]; decide)
  exact hn c hstate

theorem not_ends_truncated :
    ((Allowed .victim 1 fun _ => some []) ∧ ¬ Ends .victim 1 fun _ => some []) ∧
    (Allowed .testSpeed 1 fun _ => some []) ∧ ¬ Ends .testSpeed 1 fun _ => some [] :=
  ⟨loops_truncated .victim, loops_truncated .testSpeed⟩

end ClickhouseUring.FileCopy
