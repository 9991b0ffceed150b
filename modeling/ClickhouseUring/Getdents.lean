import ClickhouseUring.Kit.CString
import ClickhouseUring.Kit.LittleEndian
import ClickhouseUring.Kit.Records

/-!
# Listing a directory with `getdents64`

`getdents64_main` of `bpf/bench.cpp` calls `getdents64` until it answers 0.  Each answer is a
block of records at the front of one buffer, what was there before stays behind it, and the record
loop goes from record to record by `d_reclen`.

An `Entry` is a record as the kernel writes it, with any bytes behind the name's NUL.
`records_iff` says that the loop finds records that fit exactly in blocks of entries, and when it
never ends.  `listing_blocks` is about the whole directory.
-/

namespace ClickhouseUring.Getdents

open LittleEndian Records

/-- `BUF_SIZE`. -/
def bufSize : ℕ := 2048

/-! ## Records -/

/-- What is printed of a `struct linux_dirent64`; the name is a string. -/
structure Dirent where
  dIno : BitVec 64
  dOff : BitVec 64
  dReclen : BitVec 16
  dType : BitVec 8
  dName : List (BitVec 8)
  deriving DecidableEq, Repr

/-- What the position grows by. -/
def Dirent.size (d : Dirent) : ℕ := d.dReclen.toNat

/-- The record at the front of the rest of the buffer.  Without a NUL in it, printing the name
reads behind the buffer. -/
def dirent (p : List (BitVec 8)) : Option Dirent :=
  let name := (p.drop 19).toArray.toVector
  (CString.strlen name).map fun _ =>
    ⟨load 64 8 p, load 64 8 (p.drop 8), load 16 2 (p.drop 16), load 8 1 (p.drop 18),
      CString.chars name⟩

/-- A record with what stands behind the NUL of its name. -/
def Dirent.encode (d : Dirent) (pad : List (BitVec 8)) : List (BitVec 8) :=
  store 8 d.dIno ++ (store 8 d.dOff ++ (store 2 d.dReclen ++ (store 1 d.dType ++
    (d.dName ++ 0 :: pad))))

/-- The NUL of the name belongs to the record. -/
def Dirent.Fits (d : Dirent) : Prop := 19 + d.dName.length < d.size

instance (d : Dirent) : Decidable d.Fits := inferInstanceAs (Decidable (_ < _))

theorem Dirent.encode_append (d : Dirent) (pad rest : List (BitVec 8)) :
    d.encode pad ++ rest = d.encode (pad ++ rest) := by
  simp only [encode, List.append_assoc, List.cons_append]

@[simp] theorem Dirent.length_encode (d : Dirent) (pad : List (BitVec 8)) :
    (d.encode pad).length = 20 + d.dName.length + pad.length := by
  simp only [encode, List.length_append, List.length_cons, length_store]
  omega

theorem dirent_encode {d : Dirent} (h : ∀ b ∈ d.dName, b ≠ 0) (pad : List (BitVec 8)) :
    dirent (d.encode pad) = some d := by
  have h8 : (d.encode pad).drop 8 = store 8 d.dOff ++ (store 2 d.dReclen ++ (store 1 d.dType ++
      (d.dName ++ 0 :: pad))) := List.drop_left' (length_store 8 _)
  have h16 : (d.encode pad).drop 16 = store 2 d.dReclen ++ (store 1 d.dType ++
      (d.dName ++ 0 :: pad)) := by
    rw [← List.drop_drop (i := 8) (j := 8), h8, List.drop_left' (length_store 8 _)]
  have h18 : (d.encode pad).drop 18 = store 1 d.dType ++ (d.dName ++ 0 :: pad) := by
    rw [← List.drop_drop (i := 2) (j := 16), h16, List.drop_left' (length_store 2 _)]
  have h19 : (d.encode pad).drop 19 = d.dName ++ 0 :: pad := by
    rw [← List.drop_drop (i := 1) (j := 18), h18, List.drop_left' (length_store 1 _)]
  have hvec : ((d.encode pad).drop 19).toArray.toVector.toList = d.dName ++ 0 :: pad := by
    simpa using h19
  obtain ⟨hchars, hlen⟩ := CString.chars_eq hvec h
  rw [dirent, hlen, hchars, Option.map_some, h8, h16, h18, load_store (by norm_num),
    load_store (by norm_num), load_store (by norm_num), Dirent.encode, load_store (by norm_num)]

/-- What is read as a record is the encoding of one. -/
theorem encode_of_dirent {p : List (BitVec 8)} {d : Dirent} (h : dirent p = some d) :
    (∀ b ∈ d.dName, b ≠ 0) ∧ ∃ pad, p = d.encode pad := by
  unfold dirent at h
  obtain ⟨k, hk, rfl⟩ := Option.map_eq_some_iff.mp h
  obtain ⟨-, pad, hpad⟩ := CString.toList_eq hk
  replace hpad : p.drop 19 = CString.chars (p.drop 19).toArray.toVector ++ 0 :: pad := by
    simpa using hpad
  have hlen : 19 < p.length := by
    have := congrArg List.length hpad
    rw [List.length_drop, List.length_append, List.length_cons] at this
    omega
  have hrest (i : ℕ) (k : ℕ) : (p.drop i).take k ++ p.drop (i + k) = p.drop i := by
    rw [← List.drop_drop, List.take_append_drop]
  refine ⟨fun b => CString.ne_zero_of_mem_chars, pad, ?_⟩
  simp only [Dirent.encode]
  rw [← hpad, store_load (by norm_num) (by omega),
    store_load (by norm_num) (by rw [List.length_drop]; omega),
    store_load (by norm_num) (by rw [List.length_drop]; omega),
    store_load (by norm_num) (by rw [List.length_drop]; omega), hrest 18 1, hrest 16 2, hrest 8 8]
  exact (List.take_append_drop 8 p).symm

/-! ## Entries -/

/-- A record as the kernel writes it. -/
structure Entry where
  dirent : Dirent
  pad : List (BitVec 8)
  name : ∀ b ∈ dirent.dName, b ≠ 0
  reclen : (dirent.encode pad).length = dirent.size

def Entry.bytes (e : Entry) : List (BitVec 8) := e.dirent.encode e.pad

theorem Entry.encodes (e : Entry) : Encodes Getdents.dirent Dirent.size e.bytes e.dirent := by
  refine ⟨e.reclen, fun rest => ?_⟩
  rw [bytes, Dirent.encode_append]
  exact dirent_encode e.name _

theorem encodes_iff {cells : List (BitVec 8)} {d : Dirent} :
    Encodes dirent Dirent.size cells d ↔ ∃ e : Entry, e.bytes = cells ∧ e.dirent = d := by
  constructor
  · rintro ⟨hlen, hitem⟩
    have h := hitem []
    rw [List.append_nil] at h
    obtain ⟨hname, pad, rfl⟩ := encode_of_dirent h
    exact ⟨⟨d, pad, hname, hlen⟩, rfl, rfl⟩
  · rintro ⟨e, rfl, rfl⟩
    exact e.encodes

theorem forall₂_encodes_iff {chunks : List (List (BitVec 8))} {ds : List Dirent} :
    List.Forall₂ (Encodes dirent Dirent.size) chunks ds ↔
      ∃ es : List Entry, es.map Entry.bytes = chunks ∧ es.map Entry.dirent = ds := by
  constructor
  · intro h
    induction h with
    | nil => exact ⟨[], rfl, rfl⟩
    | cons hcells _ ih =>
      obtain ⟨e, rfl, rfl⟩ := encodes_iff.mp hcells
      obtain ⟨es, rfl, rfl⟩ := ih
      exact ⟨e :: es, rfl, rfl⟩
  · rintro ⟨es, rfl, rfl⟩
    rw [List.forall₂_map_left_iff, List.forall₂_map_right_iff, List.forall₂_same]
    exact fun e _ => e.encodes

theorem Entry.fits (e : Entry) : e.dirent.Fits := by
  have h := e.reclen
  rw [Dirent.length_encode] at h
  unfold Dirent.Fits
  omega

/-- A record that fits its length is read from its own bytes. -/
theorem encodes_take {cells : List (BitVec 8)} {d : Dirent} (h : dirent cells = some d)
    (hfits : d.Fits) (hlen : d.size ≤ cells.length) :
    Encodes dirent Dirent.size (cells.take d.size) d := by
  obtain ⟨hname, pad, rfl⟩ := encode_of_dirent h
  have htake : (d.encode pad).take d.size =
      d.encode (pad.take (d.size - (20 + d.dName.length))) := by
    unfold Dirent.Fits at hfits
    have hsplit : d.encode pad = d.encode [] ++ pad := by
      rw [Dirent.encode_append, List.nil_append]
    rw [hsplit, List.take_append, List.take_of_length_le (by simp; omega), Dirent.encode_append,
      List.nil_append, Dirent.length_encode]
    rfl
  have hreclen : ((d.encode pad).take d.size).length = d.size := by
    rw [List.length_take, Nat.min_eq_left hlen]
  rw [htake] at hreclen ⊢
  exact encodes_iff.mpr ⟨⟨d, _, hname, hreclen⟩, rfl, rfl⟩

/-! ## The record loop -/

/-- The loop over the `nread` bytes of an answer, for at most `rounds` rounds. -/
def records (buf : List (BitVec 8)) (nread rounds : ℕ) : List Dirent × Stop :=
  walk dirent Dirent.size buf nread rounds 0

/-- The loop finds records that fit and leave no remainder exactly when the bytes are entries. -/
theorem records_ended_iff {buf : List (BitVec 8)} {nread rounds : ℕ} (hn : nread ≤ buf.length)
    (hrounds : nread < rounds) (ds : List Dirent) :
    records buf nread rounds = (ds, .ended) ∧ (∀ d ∈ ds, d.Fits) ∧
        (ds.map Dirent.size).sum = nread ↔
      ∃ es : List Entry, buf.take nread = es.flatMap Entry.bytes ∧ ds = es.map Entry.dirent := by
  have hpos : ∀ d : Dirent, d.Fits → d.size ≠ 0 := fun d h => Nat.ne_of_gt (Nat.zero_lt_of_lt h)
  have hfits : ∀ cells d, Encodes dirent Dirent.size cells d → d.Fits := fun cells d h => by
    obtain ⟨e, -, rfl⟩ := encodes_iff.mp h
    exact e.fits
  rw [records, walk_iff hpos (fun _ _ => encodes_take) hfits hn hrounds]
  simp only [forall₂_encodes_iff]
  constructor
  · rintro ⟨chunks, ⟨es, rfl, rfl⟩, hflat⟩
    exact ⟨es, by rw [hflat, List.flatMap_def], rfl⟩
  · rintro ⟨es, hflat, rfl⟩
    exact ⟨es.map Entry.bytes, ⟨es, rfl, rfl⟩, by rw [hflat, List.flatMap_def]⟩

/-- The loop finds records that fit and leave no remainder exactly when the bytes are entries.  It
has not ended after more rounds than there are bytes exactly when it has come to a record of
length zero, and then it never ends. -/
theorem records_iff {buf : List (BitVec 8)} {nread rounds : ℕ} (hn : nread ≤ buf.length)
    (hrounds : nread < rounds) :
    (∀ ds, records buf nread rounds = (ds, .ended) ∧ (∀ d ∈ ds, d.Fits) ∧
        (ds.map Dirent.size).sum = nread ↔
      ∃ es : List Entry, buf.take nread = es.flatMap Entry.bytes ∧ ds = es.map Entry.dirent) ∧
    ((records buf nread rounds).2 = .running ↔
      ∃ d ∈ (records buf nread rounds).1, d.dReclen = 0) ∧
    ((records buf nread rounds).2 = .running →
      ∀ more, (records buf nread more).2 = .running) := by
  have hsize : ∀ d : Dirent, d.size = 0 ↔ d.dReclen = 0 := fun d => by
    rw [Dirent.size, ← BitVec.toNat_inj]
    rfl
  refine ⟨records_ended_iff hn hrounds, ?_⟩
  obtain ⟨rounds, rfl⟩ := Nat.exists_eq_add_of_lt (Nat.zero_lt_of_lt hrounds)
  rw [Nat.zero_add] at hrounds ⊢
  have hle : nread ≤ 0 + rounds := by omega
  unfold records
  refine ⟨?_, forever_of_running hle⟩
  rw [running_iff hle]
  simp only [hsize]

/-- The entry of the directory itself. -/
def dot : Entry := ⟨⟨1, 2, 24, 4, [46]⟩, [0, 0, 0], by decide, by decide⟩

theorem records_iff_dot : records dot.bytes 24 25 = ([dot.dirent], .ended) := by
  have h := (@records_iff dot.bytes 24 25 (by decide) (by decide)).1 [dot.dirent]
  exact (h.mpr ⟨[dot], rfl, rfl⟩).1

/-! ## The whole directory -/

/-- `buf`. -/
def Buffer : Type := {bytes : List (BitVec 8) // bytes.length = bufSize}

/-- What `getdents64` answers: an error, or `nread` bytes that are now at the front of `buf`. -/
inductive Answer
  | failed
  | read (bytes : List (BitVec 8)) (h : bytes.length ≤ bufSize)

def Buffer.fill (buf : Buffer) (bytes : List (BitVec 8)) (h : bytes.length ≤ bufSize) : Buffer :=
  ⟨bytes ++ buf.1.drop bytes.length, by
    rw [List.length_append, List.length_drop, buf.2]
    omega⟩

/-- How the listing stands.  `listed` goes on to the measurement and returns 0. -/
inductive Status
  | waiting
  | listed
  | exitFailure
  | outside
  | forever
  deriving DecidableEq, Repr

/-- The loop over the answers, with the lines it prints. -/
def listing : Buffer → List Answer → List Dirent × Status
  | _, [] => ([], .waiting)
  | _, .failed :: _ => ([], .exitFailure)
  | buf, .read bytes h :: answers =>
    if bytes = [] then ([], .listed)
    else
      let buf := buf.fill bytes h
      match records buf.1 bytes.length (bufSize + 1) with
      | (ds, .outside) => (ds, .outside)
      | (ds, .running) => (ds, .forever)
      | (ds, .ended) =>
        let r := listing buf answers
        (ds ++ r.1, r.2)

/-- `getdents64_main` from the result of `open` on. -/
def getdents64Main (fd : ℤ) (buf : Buffer) (answers : List Answer) : List Dirent × Status :=
  if fd < 0 then ([], .exitFailure) else listing buf answers

/-- Entries that the kernel answers with at once. -/
structure Block where
  entries : List Entry
  nonempty : entries ≠ []
  room : (entries.flatMap Entry.bytes).length ≤ bufSize

def Block.answer (b : Block) : Answer := .read (b.entries.flatMap Entry.bytes) b.room

def Block.dirents (b : Block) : List Dirent := b.entries.map Entry.dirent

/-- The answer that ends a listing. -/
def Answer.done : Answer := .read [] (Nat.zero_le _)

theorem Block.bytes_ne_nil (b : Block) : b.entries.flatMap Entry.bytes ≠ [] := by
  obtain ⟨e, es, heq⟩ := List.exists_cons_of_ne_nil b.nonempty
  have hlen : e.bytes ≠ [] := List.ne_nil_of_length_pos (by
    rw [Entry.bytes, Dirent.length_encode]
    omega)
  rw [heq, List.flatMap_cons]
  exact List.append_ne_nil_of_left_ne_nil hlen _

/-- A block is printed entry by entry, whatever the buffer held. -/
theorem listing_block (b : Block) (buf : Buffer) (answers : List Answer) :
    ∃ buf', listing buf (b.answer :: answers) =
      (b.dirents ++ (listing buf' answers).1, (listing buf' answers).2) := by
  have hn : (b.entries.flatMap Entry.bytes).length ≤ (buf.fill _ b.room).1.length := by
    rw [(buf.fill _ b.room).2]
    exact b.room
  have hrec : records (buf.fill _ b.room).1 (b.entries.flatMap Entry.bytes).length (bufSize + 1) =
      (b.dirents, .ended) :=
    ((records_ended_iff hn (Nat.lt_succ_of_le b.room) b.dirents).mpr
      ⟨b.entries, List.take_left, rfl⟩).1
  refine ⟨buf.fill _ b.room, ?_⟩
  rw [Block.answer, listing, if_neg b.bytes_ne_nil]
  simp only [hrec]

theorem listing_append (blocks : List Block) (buf : Buffer) (answers : List Answer) :
    ∃ buf', listing buf (blocks.map Block.answer ++ answers) =
      (blocks.flatMap Block.dirents ++ (listing buf' answers).1, (listing buf' answers).2) := by
  induction blocks generalizing buf with
  | nil => exact ⟨buf, rfl⟩
  | cons b blocks ih =>
    obtain ⟨buf₁, h₁⟩ := listing_block b buf (blocks.map Block.answer ++ answers)
    obtain ⟨buf₂, h₂⟩ := ih buf₁
    refine ⟨buf₂, ?_⟩
    rw [List.map_cons, List.cons_append, h₁, h₂, List.flatMap_cons, List.append_assoc]

/-- The listing prints every entry of the directory once and in order, whatever the buffer held and
however the kernel cuts the directory into blocks, and an error ends it after the blocks before. -/
theorem listing_blocks (fd : ℕ) (blocks : List Block) (buf : Buffer) (answers : List Answer) :
    getdents64Main fd buf (blocks.map Block.answer) = (blocks.flatMap Block.dirents, .waiting) ∧
    getdents64Main fd buf (blocks.map Block.answer ++ .done :: answers) =
      (blocks.flatMap Block.dirents, .listed) ∧
    getdents64Main fd buf (blocks.map Block.answer ++ .failed :: answers) =
      (blocks.flatMap Block.dirents, .exitFailure) := by
  have hfd : ¬ (fd : ℤ) < 0 := by omega
  simp only [getdents64Main, if_neg hfd]
  refine ⟨?_, ?_, ?_⟩
  · obtain ⟨buf', h⟩ := listing_append blocks buf []
    rw [List.append_nil] at h
    rw [h, listing, List.append_nil]
  · obtain ⟨buf', h⟩ := listing_append blocks buf (.done :: answers)
    rw [h, Answer.done, listing, if_pos rfl, List.append_nil]
  · obtain ⟨buf', h⟩ := listing_append blocks buf (.failed :: answers)
    rw [h, listing, List.append_nil]

/-- The entries of an empty directory, in one block. -/
example : getdents64Main 3 ⟨List.replicate bufSize 255, List.length_replicate⟩
    [Block.answer ⟨[dot, ⟨⟨2, 3, 24, 4, [46, 46]⟩, [0, 0], by decide, by decide⟩], by decide,
      by decide⟩, .done] =
    ([⟨1, 2, 24, 4, [46]⟩, ⟨2, 3, 24, 4, [46, 46]⟩], .listed) := by
  decide

end ClickhouseUring.Getdents
