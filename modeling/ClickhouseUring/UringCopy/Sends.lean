import ClickhouseUring.UringCopy.Content

/-!
# What `uring_client copy.c` sends

The first loop, on a file in chunks of 4 bytes.  The send of a chunk goes out with the next read,
when the buffer has been cleared (`Sending.next`).  Only the last send of a batch, and the last one
of all, goes out with its chunk in the buffer, the latter filled up with zeros.
-/

namespace ClickhouseUring.UringCopy

open Uring

/-- What is sent for chunk `i`. -/
def slot (file : List UInt8) (i : ℕ) : List UInt8 :=
  if (i + 1) % batchSize = 0 ∨ i + 1 = chunks file then
    (padTo bufSize (chunk file i)).take (takenAt file i)
  else List.replicate bufSize 0

/-- What is sent for the first chunks. -/
def sendsTo (file : List UInt8) (n : ℕ) : List UInt8 := (List.range n).flatMap (slot file)

theorem sendsTo_succ (file : List UInt8) (n : ℕ) :
    sendsTo file (n + 1) = sendsTo file n ++ slot file n := by
  rw [sendsTo, List.range_succ, List.flatMap_append, List.flatMap_singleton]
  rfl

/-- `main` is before iteration `i` of its first loop. -/
structure Sending (file response : List UInt8) (i : ℕ) (c : Client) (w : World) : Prop where
  le : i ≤ chunks file
  phase : c.phase = .sending
  iteration : c.iteration = i
  fileOffset : i < chunks file → c.fileOffset = (i * bufSize : ℕ)
  ended : i = chunks file → file.length ≤ c.fileOffset
  recvFileOffset : c.recvFileOffset = 0
  lagging : Lagging (result file response) (lengths file (i / batchSize)) (i % batchSize) c
  queued : c.ring.queued =
    if i % batchSize = 0 then [] else [⟨.send (takenAt file (i - 1)), i - 1⟩]
  length_buffer : w.buffer.length = bufSize
  buffer : i ≠ 0 → w.buffer = padTo bufSize (chunk file (i - 1))
  sent : w.sent = sendsTo file (if i % batchSize = 0 then i else i - 1)
  recvTxt : w.recvTxt = []

section Sending

variable {file response : List UInt8} {i : ℕ} {c : Client} {w : World}

theorem sending_started {buffer : List UInt8} (hbuffer : buffer.length = bufSize) :
    Sending file response 0 started ⟨buffer, [], []⟩ where
  le := Nat.zero_le _
  phase := rfl
  iteration := rfl
  fileOffset _ := rfl
  ended h := by
    have hlast := (lt_chunks file (i := 0)).not.mp (by omega)
    show (file.length : ℤ) ≤ 0
    omega
  recvFileOffset := rfl
  lagging := .start rfl rfl _ _
  queued := rfl
  length_buffer := hbuffer
  buffer h := absurd rfl h
  sent := rfl
  recvTxt := rfl

/-- The read of iteration `i` gets chunk `i`. -/
theorem Sending.gets_nextRead (h : Sending file response i c w) (hi : i < chunks file) :
    gets file response (c.nextRead file.length) = chunk file i := by
  have hlt := (lt_chunks file).mp hi
  have hoffset : ((i * bufSize : ℕ) : ℤ).toNat = i * bufSize := Int.toNat_natCast _
  show (file.drop c.fileOffset.toNat).take _ = _
  rw [h.fileOffset hi, hoffset, chunk]
  split_ifs with hlast
  · rw [List.take_of_length_le, List.take_of_length_le]
    · rw [List.length_drop]
      omega
    · rw [List.length_drop]
      omega
  · rfl

theorem Sending.result_nextRead (h : Sending file response i c w) (hi : i < chunks file) :
    result file response (c.nextRead file.length) =
      lengths file (i / batchSize) (i % batchSize) := by
  show (gets file response (c.nextRead file.length)).length = _
  rw [h.gets_nextRead hi, lengths, Nat.div_add_mod]

theorem takenAt_pos (hi : i < chunks file) : 0 < takenAt file i :=
  Nat.lt_of_lt_of_le ((length_chunk_pos file).mpr hi) (length_chunk_le_takenAt file hi)

/-- A send that was queued goes out when the buffer has been cleared. -/
theorem Sending.execAll_queued (h : Sending file response i c w) (hi : i < chunks file) :
    execAll (act file response) c.ring.queued { w with buffer := List.replicate bufSize 0 } =
      ⟨List.replicate bufSize 0, sendsTo file i, []⟩ := by
  rw [h.queued, h.sent, h.recvTxt]
  split_ifs with hmod
  · rfl
  · obtain ⟨p, rfl⟩ := Nat.exists_eq_succ_of_ne_zero (n := i) (by rintro rfl; exact hmod rfl)
    have hslot : slot file p = List.replicate bufSize 0 := if_neg (by
      rintro (hfull | hlast)
      · exact hmod hfull
      · omega)
    rw [Nat.succ_eq_add_one, Nat.add_sub_cancel, takenAt_of_lt file hi, sendsTo_succ, hslot]
    rfl

/-- The terminator does not change the buffer. -/
theorem set_padTo {bytes : List UInt8} {n m : ℕ} (h : bytes.length ≤ m) :
    (padTo n bytes).set m 0 = padTo n bytes := by
  unfold padTo
  rw [List.set_append_right _ _ h]
  congr 1
  refine List.ext_getElem (List.length_set ..) fun t ht ht' => ?_
  rw [List.getElem_set]
  split_ifs
  · exact (List.getElem_replicate ht').symm
  · rfl

/-- What iteration `i` does to the world. -/
theorem Sending.turn_world (h : Sending file response i c w) (hi : i < chunks file) :
    w.turn file response c = ⟨padTo bufSize (chunk file i),
      sendsTo file (if (i + 1) % batchSize = 0 then i + 1 else i), []⟩ := by
  have hop := h.result_nextRead hi
  have hpos : 0 < Lag.taken (lengths file (i / batchSize)) (i % batchSize) := takenAt_pos hi
  have hlt := (lt_chunks file).mp hi
  have hread : execAll (act file response) [c.nextRead file.length]
      ⟨List.replicate bufSize 0, sendsTo file i, []⟩ =
        ⟨padTo bufSize (chunk file i), sendsTo file i, []⟩ := by
    show World.mk (gets file response (c.nextRead file.length) ++
      (List.replicate bufSize 0).drop (gets file response (c.nextRead file.length)).length) _ _ = _
    rw [h.gets_nextRead hi, List.drop_replicate]
    rfl
  have hset : (padTo bufSize (chunk file i)).set (takenAt file i) 0 =
      padTo bufSize (chunk file i) := set_padTo (length_chunk_le_takenAt file hi)
  unfold World.turn
  rw [h.phase]
  dsimp only
  rw [if_neg (by rw [h.fileOffset hi]; omega), h.lagging.takes_eq hop, if_pos (by omega),
    h.lagging.iterates_eq hop hpos, execAll_append, execAll_append, h.execAll_queued hi, hread,
    Int.toNat_natCast]
  obtain ⟨hfull, hmod, -⟩ | ⟨hroom, hmod, -⟩ := batch_succ i
  · rw [if_pos hfull, if_pos hmod, sendsTo_succ, slot, if_pos (Or.inl hmod)]
    show World.mk ((padTo bufSize (chunk file i)).set (takenAt file i) 0) _ [] = _
    rw [hset]
    rfl
  · rw [if_neg (Nat.ne_of_lt hroom), if_neg (by omega)]
    show World.mk ((padTo bufSize (chunk file i)).set (takenAt file i) 0) _ [] = _
    rw [hset]
    rfl

/-- An iteration of the first loop. -/
theorem Sending.next (hfit : file.length + bufSize < 2 ^ 63) (h : Sending file response i c w)
    (hi : i < chunks file) :
    ∃ c' reports, turn file.length c (promptTurn (fun op => result file response op) true) =
        some (c', reports) ∧ Sending file response (i + 1) c' (w.turn file response c) := by
  have hlt := (lt_chunks file).mp hi
  have hle := takenAt_le file i
  have hoffset := h.fileOffset hi
  have hfits : ∀ n ≤ bufSize, CInt.Fits 64 (c.fileOffset + n) := by
    intro n hn
    rw [hoffset]
    unfold CInt.Fits
    omega
  obtain ⟨c', reports, posted, hturn, hposted, hc', hoffset', hrecv⟩ :=
    h.lagging.sendChunk (h.result_nextRead hi) (takenAt_pos hi) (hfits _ le_rfl) (hfits _ hle)
  obtain ⟨hlagging, hqueued⟩ := h.lagging.next hposted hc' rfl
  refine ⟨c', reports, ?_, ?_⟩
  · unfold turn
    rw [h.phase]
    dsimp only
    rw [if_neg (by omega), hturn]
  · rw [h.turn_world hi]
    rw [h.iteration] at hqueued
    exact {
      le := hi
      phase := hc'.phase.trans h.phase
      iteration := by rw [hc'.iteration, h.iteration]
      fileOffset hi' := by
        have htaken : Lag.taken (lengths file (i / batchSize)) (i % batchSize) = bufSize :=
          takenAt_of_lt file hi'
        rw [hoffset', hoffset, htaken, Nat.succ_mul, Nat.cast_add]
      ended hlast := by
        have hchunk : min bufSize (file.length - i * bufSize) ≤
            Lag.taken (lengths file (i / batchSize)) (i % batchSize) :=
          length_chunk file i ▸ length_chunk_le_takenAt file hi
        have hend := (lt_chunks file (i := i + 1)).not.mp (by omega)
        rw [Nat.succ_mul] at hend
        rw [hoffset', hoffset]
        omega
      recvFileOffset := hrecv.trans h.recvFileOffset
      lagging := hlagging
      queued := hqueued
      length_buffer := by
        rw [length_padTo, length_chunk]
        omega
      buffer _ := rfl
      sent := rfl
      recvTxt := rfl }

/-- What `main` does after its first loop. -/
theorem Sending.finish (h : Sending file response (chunks file) c w) :
    ∃ reports, turn file.length c (promptTurn (fun op => result file response op) true) =
        some ({ c with ring := .empty, phase := .receiving, batchCount := 0, iteration := 0 },
          reports) ∧
      w.turn file response c = ⟨w.buffer, sendsTo file (chunks file), []⟩ := by
  obtain ⟨reports, hflush⟩ := h.lagging.flushRest "send" "Send error"
  refine ⟨reports, ?_, ?_⟩
  · unfold turn
    rw [h.phase]
    dsimp only
    rw [if_pos (h.ended rfl)]
    unfold finishSending
    show (UringCopy.flushRest c "send" "Send error" (.prompt _)).bind _ = _
    rw [hflush, Option.bind_some]
    dsimp only
    rw [h.phase]
    rfl
  · unfold World.turn
    rw [h.phase]
    dsimp only
    rw [if_pos (h.ended rfl), h.lagging.flushes_eq, h.queued]
    have hsent := h.sent
    have hrecvTxt := h.recvTxt
    obtain ⟨buffer, sent, recvTxt⟩ := w
    obtain rfl : recvTxt = [] := hrecvTxt
    by_cases hmod : chunks file % batchSize = 0
    · rw [if_pos hmod] at hsent ⊢
      obtain rfl : sent = _ := hsent
      rfl
    · rw [if_neg hmod] at hsent ⊢
      obtain rfl : sent = _ := hsent
      obtain ⟨p, hp⟩ := Nat.exists_eq_succ_of_ne_zero (n := chunks file) fun h0 =>
        hmod (by rw [h0]; rfl)
      have hbuffer := h.buffer (by omega)
      rw [hp, Nat.succ_eq_add_one, Nat.add_sub_cancel] at hbuffer ⊢
      obtain rfl : buffer = _ := hbuffer
      rw [sendsTo_succ, slot, if_pos (Or.inr hp.symm)]
      rfl

/-- The first loop, up to an iteration. -/
theorem exists_sending (response : List UInt8) {buffer : List UInt8}
    (hbuffer : buffer.length = bufSize)
    (hfit : file.length + bufSize < 2 ^ 63) (hi : i ≤ chunks file) :
    ∃ c w, copying file response buffer i = some (c, w) ∧ Sending file response i c w := by
  induction i with
  | zero => exact ⟨started, _, rfl, sending_started hbuffer⟩
  | succ i ih =>
    obtain ⟨c, w, hcopying, h⟩ := ih (Nat.le_of_succ_le hi)
    obtain ⟨c', reports, hturn, h'⟩ := h.next hfit hi
    exact ⟨c', _, copying_succ hcopying hturn, h'⟩

/-- `main` gets to its second loop. -/
theorem exists_receiving (response : List UInt8) {buffer : List UInt8}
    (hbuffer : buffer.length = bufSize)
    (hfit : file.length + bufSize < 2 ^ 63) :
    ∃ n fileOffset buffer', buffer'.length = bufSize ∧
      copying file response buffer n = some (⟨.receiving, fileOffset, 0, 0, 0, .empty⟩,
        ⟨buffer', sendsTo file (chunks file), []⟩) := by
  obtain ⟨c, w, hcopying, h⟩ := exists_sending response hbuffer hfit le_rfl
  obtain ⟨reports, hturn, hworld⟩ := h.finish
  have hnext := copying_succ hcopying hturn
  rw [hworld, h.recvFileOffset] at hnext
  exact ⟨_, _, w.buffer, h.length_buffer, hnext⟩

end Sending

/-! ## When the file is sent -/

section Sent

variable {file : List UInt8} {i : ℕ}

/-- The bytes of chunk `i` are sent unless it has lost its place in the buffer. -/
theorem slot_eq_iff (hi : i + 1 < chunks file) :
    slot file i = chunk file i ↔
      ((i + 1) % batchSize ≠ 0 → chunk file i = List.replicate bufSize 0) := by
  have hlen := length_chunk_of_lt file hi
  unfold slot
  split_ifs with hplace
  · have hmod : (i + 1) % batchSize = 0 := hplace.resolve_right (Nat.ne_of_lt hi)
    rw [takenAt_of_lt file hi, ← hlen]
    exact iff_of_true (List.take_left ..) fun h => absurd hmod h
  · have hmod : (i + 1) % batchSize ≠ 0 := fun h => hplace (Or.inl h)
    exact ⟨fun h _ => h.symm, fun h => (h hmod).symm⟩

theorem length_slot (hi : i + 1 < chunks file) :
    (slot file i).length = (chunk file i).length := by
  have hlen := length_chunk_of_lt file hi
  unfold slot
  split_ifs
  · rw [takenAt_of_lt file hi, List.length_take, length_padTo, hlen]
    omega
  · rw [List.length_replicate, hlen]

/-- The last chunk is sent as it is if it is a whole buffer, or the first one of its batch. -/
theorem slot_last_eq_iff (hi : i + 1 = chunks file) :
    slot file i = chunk file i ↔ bufSize ∣ file.length ∨ i % batchSize = 0 := by
  have hlast : (chunk file i).length = bufSize ↔ bufSize ∣ file.length := by
    have hle := (lt_chunks file (i := i)).mp (by omega)
    have hge := (lt_chunks file (i := i + 1)).not.mp (by omega)
    rw [length_chunk]
    unfold bufSize at *
    omega
  unfold slot
  rw [if_pos (Or.inr hi), ← hlast]
  by_cases hmod : i % batchSize = 0
  · rw [takenAt_of_mod file hmod]
    exact iff_of_true (List.take_left ..) (Or.inr hmod)
  · rw [takenAt_eq file hmod (by omega), or_iff_left hmod]
    have hfull : (padTo bufSize (chunk file i)).take bufSize = padTo bufSize (chunk file i) := by
      refine List.take_of_length_le ?_
      rw [length_padTo, length_chunk]
      omega
    rw [hfull]
    constructor
    · intro h
      have hlen := congrArg List.length h
      rw [length_padTo] at hlen
      have hle : (chunk file i).length ≤ bufSize := by
        rw [length_chunk]
        exact Nat.min_le_left _ _
      omega
    · intro h
      rw [padTo, h, Nat.sub_self, List.replicate_zero, List.append_nil]

/-- The file is sent exactly if the chunks that lose their place are zeros, and the last chunk is
sent as it is. -/
theorem sendsTo_eq_iff (file : List UInt8) :
    sendsTo file (chunks file) = file ↔
      (∀ i, i + 1 < chunks file → (i + 1) % batchSize ≠ 0 →
        chunk file i = List.replicate bufSize 0) ∧
      (bufSize ∣ file.length ∨ (chunks file - 1) % batchSize = 0) := by
  have hfile := flatMap_chunks file
  cases hk : chunks file with
  | zero =>
    rw [hk] at hfile
    rw [← hfile]
    exact iff_of_true rfl ⟨fun i hi => absurd hi (by omega), Or.inr rfl⟩
  | succ p =>
    rw [hk, List.range_succ, List.flatMap_append, List.flatMap_singleton] at hfile
    have hlt (i : ℕ) (hi : i ∈ List.range p) : i + 1 < chunks file := by
      have hi := List.mem_range.mp hi
      omega
    have hparts : sendsTo file (p + 1) = file ↔
        (∀ i ∈ List.range p, slot file i = chunk file i) ∧ slot file p = chunk file p := by
      rw [sendsTo_succ]
      constructor
      · intro h
        exact flatMap_append_inj (fun i hi => length_slot (hlt i hi)) (h.trans hfile.symm)
      · rintro ⟨hall, hlast⟩
        rw [hlast, sendsTo, List.flatMap_congr hall]
        exact hfile
    rw [hparts, slot_last_eq_iff hk.symm, Nat.add_sub_cancel]
    refine and_congr_left' (forall_congr' fun i => ?_)
    constructor
    · intro h hi
      exact (slot_eq_iff (hk ▸ hi)).mp (h (List.mem_range.mpr (Nat.lt_of_succ_lt_succ hi)))
    · intro h hi
      exact (slot_eq_iff (hlt i hi)).mpr (h (Nat.succ_lt_succ (List.mem_range.mp hi)))

end Sent

end ClickhouseUring.UringCopy
