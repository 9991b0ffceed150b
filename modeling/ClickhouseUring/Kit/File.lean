import Mathlib.Data.List.Basic
import Mathlib.Tactic.Common

/-!
# Files and byte streams

An open file has a position that a write moves past what it has written; writes in a row are one
write (`File.foldl_write`).  `pwrite` writes at an offset of its own, where a gap reads as zeros.
A byte stream is read in parts of at most `k` bytes, which may be cut anywhere.
-/

/-- The bytes of a file and the position of its descriptor. -/
structure File where
  content : List UInt8
  pos : ℕ
  pos_le : pos ≤ content.length

namespace File

/-- A file just opened, with what it holds. -/
def opened (content : List UInt8) : File := ⟨content, 0, Nat.zero_le _⟩

/-- `write`, in full. -/
def write (f : File) (bytes : List UInt8) : File where
  content := f.content.take f.pos ++ bytes ++ f.content.drop (f.pos + bytes.length)
  pos := f.pos + bytes.length
  pos_le := by
    rw [List.length_append, List.length_append, List.length_take, Nat.min_eq_left f.pos_le]
    omega

theorem content_write_opened (old bytes : List UInt8) :
    ((opened old).write bytes).content = bytes ++ old.drop bytes.length := by
  show old.take 0 ++ bytes ++ old.drop (0 + bytes.length) = _
  rw [List.take_zero, List.nil_append, Nat.zero_add]

theorem write_nil (f : File) : f.write [] = f := by
  obtain ⟨content, pos, hpos⟩ := f
  unfold write
  simp

/-- Two writes in a row are one. -/
theorem write_write (f : File) (a b : List UInt8) : (f.write a).write b = f.write (a ++ b) := by
  have hlen : (f.content.take f.pos ++ a).length = f.pos + a.length := by
    rw [List.length_append, List.length_take, Nat.min_eq_left f.pos_le]
  have htake : (f.write a).content.take (f.pos + a.length) = f.content.take f.pos ++ a :=
    List.take_left' hlen
  have hdrop : (f.write a).content.drop (f.pos + a.length + b.length) =
      f.content.drop (f.pos + (a ++ b).length) := by
    show (f.content.take f.pos ++ a ++ f.content.drop (f.pos + a.length)).drop _ = _
    rw [← hlen, List.drop_length_add_append, hlen, List.drop_drop, List.length_append,
      Nat.add_assoc]
  have hcontent : ((f.write a).write b).content = (f.write (a ++ b)).content := by
    show (f.write a).content.take (f.pos + a.length) ++ b ++
      (f.write a).content.drop (f.pos + a.length + b.length) = _
    rw [htake, hdrop, List.append_assoc _ a b]
    rfl
  have hpos : ((f.write a).write b).pos = (f.write (a ++ b)).pos := by
    show f.pos + a.length + b.length = f.pos + (a ++ b).length
    rw [List.length_append, Nat.add_assoc]
  generalize (f.write a).write b = g, f.write (a ++ b) = g' at hcontent hpos
  obtain ⟨c, p, h⟩ := g
  obtain ⟨c', p', h'⟩ := g'
  obtain rfl : c = c' := hcontent
  obtain rfl : p = p' := hpos
  rfl

/-- Writes in a row are one write. -/
theorem foldl_write (f : File) (parts : List (List UInt8)) :
    parts.foldl write f = f.write parts.flatten := by
  induction parts generalizing f with
  | nil => exact f.write_nil.symm
  | cons p parts ih => rw [List.foldl_cons, ih, write_write, List.flatten_cons]

end File

/-! ## Writes at an offset -/

/-- The bytes filled up with zeros to length `n`. -/
def padTo (n : ℕ) (content : List UInt8) : List UInt8 :=
  content ++ List.replicate (n - content.length) 0

/-- `pwrite` at an offset; a gap before the offset reads as zeros, and writing nothing does
nothing. -/
def pwrite (content : List UInt8) (offset : ℕ) (bytes : List UInt8) : List UInt8 :=
  if bytes = [] then content
  else padTo offset (content.take offset) ++ bytes ++ content.drop (offset + bytes.length)

theorem length_padTo (n : ℕ) (content : List UInt8) :
    (padTo n content).length = max n content.length := by
  unfold padTo
  rw [List.length_append, List.length_replicate]
  omega

/-- Filling up in two steps. -/
theorem padTo_padTo {m n : ℕ} (h : m ≤ n) (content : List UInt8) :
    padTo n (padTo m content) = padTo n content := by
  have hlen := length_padTo m content
  unfold padTo at hlen ⊢
  rw [hlen, List.append_assoc, List.replicate_append_replicate]
  congr 2
  omega

/-- Filling up what is behind a full part. -/
theorem padTo_append {m n : ℕ} {a : List UInt8} (h : a.length = m) (b : List UInt8) :
    padTo (m + n) (a ++ b) = a ++ padTo n b := by
  unfold padTo
  rw [List.length_append, h, List.append_assoc, Nat.add_sub_add_left]

/-- A write behind the end. -/
theorem pwrite_of_le {content bytes : List UInt8} {offset : ℕ} (h : content.length ≤ offset)
    (hbytes : bytes ≠ []) : pwrite content offset bytes = padTo offset content ++ bytes := by
  unfold pwrite
  rw [if_neg hbytes, List.take_of_length_le h, List.drop_eq_nil_of_le (by omega),
    List.append_nil]

theorem length_pwrite_le (content bytes : List UInt8) (offset : ℕ) :
    (pwrite content offset bytes).length ≤ max content.length (offset + bytes.length) := by
  unfold pwrite
  split_ifs
  · exact Nat.le_max_left _ _
  · rw [List.length_append, List.length_append, length_padTo, List.length_take, List.length_drop]
    omega

/-- A write behind the end, filled up to the length it should have had. -/
theorem padTo_pwrite {content : List UInt8} {offset : ℕ} (h : content.length ≤ offset)
    (n : ℕ) (bytes : List UInt8) :
    padTo (offset + n) (pwrite content offset bytes) = padTo offset content ++ padTo n bytes := by
  have hfull : (padTo offset content).length = offset :=
    (length_padTo offset content).trans (Nat.max_eq_left h)
  by_cases hbytes : bytes = []
  · have hnone : pwrite content offset bytes = content := if_pos hbytes
    rw [hnone, ← padTo_padTo (Nat.le_add_right offset n), hbytes, ← padTo_append hfull,
      List.append_nil]
  · rw [pwrite_of_le h hbytes, padTo_append hfull]

/-! ## Streams -/

/-- Streams of parts that agree in length are equal only part by part. -/
theorem flatMap_append_inj {ι : Type*} {f g : ι → List UInt8} {is : List ι}
    (hlen : ∀ i ∈ is, (f i).length = (g i).length) {as bs : List UInt8}
    (h : is.flatMap f ++ as = is.flatMap g ++ bs) : (∀ i ∈ is, f i = g i) ∧ as = bs := by
  induction is with
  | nil => exact ⟨List.forall_mem_nil _, h⟩
  | cons i is ih =>
    obtain ⟨hi, his⟩ := List.forall_mem_cons.mp hlen
    rw [List.flatMap_cons, List.flatMap_cons, List.append_assoc, List.append_assoc] at h
    obtain ⟨hhead, htail⟩ := List.append_inj h hi
    obtain ⟨hall, hrest⟩ := ih his htail
    exact ⟨List.forall_mem_cons.mpr ⟨hhead, hall⟩, hrest⟩

/-- What the reads of a stream return until its end, with a buffer of `k` bytes. -/
structure Segmentation (k : ℕ) (stream : List UInt8) where
  parts : List (List UInt8)
  flatten_eq : parts.flatten = stream
  bounds : ∀ p ∈ parts, 0 < p.length ∧ p.length ≤ k

namespace Segmentation

variable {k : ℕ} {stream : List UInt8}

/-- A stream that comes in one part. -/
def single (h : 0 < stream.length ∧ stream.length ≤ k) : Segmentation k stream :=
  ⟨[stream], List.append_nil _, fun _ hp => List.mem_singleton.mp hp ▸ h⟩

end Segmentation

/-- A loop `while ((n = read(fd, buf, k)) > 0)` whose body hands the first `n` bytes of the buffer
on, run until the end of the stream. -/
def copyLoop {σ : Type*} (emit : σ → List UInt8 → σ) (buf : List UInt8) (s : σ) :
    List (List UInt8) → σ
  | [] => s
  | p :: parts =>
    let buf := p ++ buf.drop p.length
    copyLoop emit buf (emit s (buf.take p.length)) parts

/-- The loop hands on what it reads. -/
theorem copyLoop_eq {σ : Type*} (emit : σ → List UInt8 → σ) (buf : List UInt8) (s : σ)
    (parts : List (List UInt8)) : copyLoop emit buf s parts = parts.foldl emit s := by
  induction parts generalizing buf s with
  | nil => rfl
  | cons p parts ih =>
    unfold copyLoop
    dsimp only
    rw [ih, List.take_left]
    rfl
