import ClickhouseUring.UringCopy.Sends

/-!
# What `uring_client copy.c` stores

The second loop, on a response in chunks of 4 bytes.  The write of a chunk goes out before the next
receive, with its chunk still in the buffer (`Storing.next`).  But the loop ends only when it takes
the result of a receive that got nothing, and by then it has written what the buffer holds more than
once.
-/

namespace ClickhouseUring.UringCopy

open Uring

section

variable (response buffer : List UInt8)

/-- The buffer after so many receives. -/
def held : ℕ → List UInt8
  | 0 => buffer
  | i + 1 => chunk response i ++ (held i).drop (chunk response i).length

/-- What iteration `i` writes. -/
def part (i : ℕ) : List UInt8 := (held response buffer (i + 1)).take (takenAt response i)

/-- What the first iterations write. -/
def storesTo (n : ℕ) : List UInt8 := (List.range n).flatMap (part response buffer)

theorem storesTo_succ (n : ℕ) :
    storesTo response buffer (n + 1) = storesTo response buffer n ++ part response buffer n := by
  rw [storesTo, List.range_succ, List.flatMap_append, List.flatMap_singleton]
  rfl

end

section

variable {response buffer : List UInt8} {i : ℕ}

theorem length_held (hbuffer : buffer.length = bufSize) (i : ℕ) :
    (held response buffer i).length = bufSize := by
  induction i with
  | zero => exact hbuffer
  | succ i ih =>
    rw [held, List.length_append, List.length_drop, ih, length_chunk]
    omega

theorem length_part (hbuffer : buffer.length = bufSize) (i : ℕ) :
    (part response buffer i).length = takenAt response i := by
  rw [part, List.length_take, length_held hbuffer]
  exact Nat.min_eq_left (takenAt_le response i)

theorem length_storesTo (hbuffer : buffer.length = bufSize) (n : ℕ) :
    (storesTo response buffer n).length = ((List.range n).map (takenAt response)).sum := by
  rw [storesTo, List.length_flatMap]
  exact congrArg List.sum (List.map_congr_left fun i _ => length_part hbuffer i)

theorem length_storesTo_le (hbuffer : buffer.length = bufSize) (n : ℕ) :
    (storesTo response buffer n).length ≤ n * bufSize := by
  induction n with
  | zero => exact Nat.zero_le _
  | succ n ih =>
    have hle := takenAt_le response n
    rw [storesTo_succ, List.length_append, length_part hbuffer, Nat.succ_mul]
    omega

end

/-- `main` is before iteration `i` of its second loop. -/
structure Storing (file response buffer sent : List UInt8) (i : ℕ) (c : Client) (w : World) :
    Prop where
  phase : c.phase = .receiving
  iteration : c.iteration = i
  recvFileOffset : c.recvFileOffset = (storesTo response buffer i).length
  lagging : Lagging (result file response) (lengths response (i / batchSize)) (i % batchSize) c
  queued : c.ring.queued = if i % batchSize = 0 then [] else
    [⟨.write (takenAt response (i - 1)) (storesTo response buffer (i - 1)).length, i - 1⟩]
  world : w = ⟨held response buffer i, sent,
    storesTo response buffer (if i % batchSize = 0 then i else i - 1)⟩

section Storing

variable {file response buffer sent : List UInt8} {i : ℕ} {c : Client} {w : World}

theorem storing_start (file response buffer sent : List UInt8) (fileOffset : ℤ) :
    Storing file response buffer sent 0 ⟨.receiving, fileOffset, 0, 0, 0, .empty⟩
      ⟨buffer, sent, []⟩ where
  phase := rfl
  iteration := rfl
  recvFileOffset := rfl
  lagging := .start rfl rfl _ _
  queued := rfl
  world := rfl

/-- A write at the end of what is there. -/
theorem pwrite_length (content bytes : List UInt8) :
    pwrite content content.length bytes = content ++ bytes := by
  by_cases hbytes : bytes = []
  · rw [pwrite, if_pos hbytes, hbytes, List.append_nil]
  · rw [pwrite_of_le le_rfl hbytes, padTo, Nat.sub_self, List.replicate_zero, List.append_nil]

/-- The write of an iteration, with what it received still in the buffer. -/
theorem act_write (file : List UInt8) (i iteration : ℕ) :
    act file response
        ⟨.write (takenAt response i) (storesTo response buffer i).length, iteration⟩
        ⟨held response buffer (i + 1), sent, storesTo response buffer i⟩ =
      ⟨held response buffer (i + 1), sent, storesTo response buffer (i + 1)⟩ := by
  show World.mk _ _ (pwrite _ ((storesTo response buffer i).length : ℤ).toNat _) = _
  rw [Int.toNat_natCast, pwrite_length, storesTo_succ]
  rfl

theorem Storing.result_recv (h : Storing file response buffer sent i c w) :
    result file response ⟨.recv bufSize, c.iteration⟩ =
      lengths response (i / batchSize) (i % batchSize) := by
  rw [h.iteration, lengths, Nat.div_add_mod]
  rfl

/-- What has been written when the operation of the iteration is executed, and what it does. -/
theorem Storing.execAll_recv (h : Storing file response buffer sent i c w) :
    execAll (act file response) (c.ring.queued ++ [⟨.recv bufSize, c.iteration⟩]) w =
      ⟨held response buffer (i + 1), sent, storesTo response buffer i⟩ := by
  have hqueued : execAll (act file response) c.ring.queued w =
      ⟨held response buffer i, sent, storesTo response buffer i⟩ := by
    rw [h.queued, h.world]
    split_ifs with hmod
    · rfl
    · obtain ⟨p, rfl⟩ := Nat.exists_eq_succ_of_ne_zero (n := i) (by rintro rfl; exact hmod rfl)
      exact act_write file p p
  rw [execAll_append, hqueued, h.iteration]
  rfl

/-- What an iteration that takes something does to the world. -/
theorem Storing.turn_world (h : Storing file response buffer sent i c w)
    (hpos : 0 < takenAt response i) :
    w.turn file response c = ⟨held response buffer (i + 1), sent,
      storesTo response buffer (if (i + 1) % batchSize = 0 then i + 1 else i)⟩ := by
  unfold World.turn
  rw [h.phase]
  dsimp only
  rw [h.lagging.iterates_eq h.result_recv hpos, execAll_append, h.execAll_recv]
  obtain ⟨hfull, hmod, -⟩ | ⟨hroom, hmod, -⟩ := batch_succ i
  · rw [if_pos hfull, if_pos hmod, h.recvFileOffset]
    exact act_write file i c.iteration
  · rw [if_neg (Nat.ne_of_lt hroom), if_neg (by omega)]
    rfl

/-- An iteration of the second loop that takes something. -/
theorem Storing.next (hbuffer : buffer.length = bufSize)
    (hfit : (i + 1) * bufSize < 2 ^ 63) (h : Storing file response buffer sent i c w)
    (hpos : 0 < takenAt response i) :
    ∃ c' reports, turn file.length c (promptTurn (fun op => result file response op) true) =
        some (c', reports) ∧
      Storing file response buffer sent (i + 1) c' (w.turn file response c) := by
  have hadd : CInt.Fits 64 (c.recvFileOffset +
      Lag.taken (lengths response (i / batchSize)) (i % batchSize)) := by
    have hstored : (storesTo response buffer i).length ≤ i * bufSize := length_storesTo_le hbuffer i
    have hle : Lag.taken (lengths response (i / batchSize)) (i % batchSize) ≤ bufSize :=
      takenAt_le response i
    rw [Nat.succ_mul] at hfit
    rw [h.recvFileOffset]
    unfold CInt.Fits
    omega
  obtain ⟨c', reports, posted, hturn, hposted, hc', -, hrecv⟩ :=
    h.lagging.receive h.result_recv hpos hadd
  obtain ⟨hlagging, hqueued⟩ := h.lagging.next hposted hc' rfl
  refine ⟨c', reports, ?_, ?_⟩
  · unfold turn
    rw [h.phase]
    exact hturn
  · rw [h.turn_world hpos]
    rw [h.iteration, h.recvFileOffset] at hqueued
    exact {
      phase := hc'.phase.trans h.phase
      iteration := by rw [hc'.iteration, h.iteration]
      recvFileOffset := by
        rw [hrecv, h.recvFileOffset, storesTo_succ, List.length_append, length_part hbuffer,
          Nat.cast_add]
        rfl
      lagging := hlagging
      queued := hqueued
      world := rfl }

/-- The iteration that takes nothing, and what follows the loop. -/
theorem Storing.finish (h : Storing file response buffer sent i c w)
    (hzero : takenAt response i = 0) {n : ℕ} {start : List UInt8}
    (hcopying : copying file response start n = some (c, w)) :
    ∃ c', copying file response start (n + 2) = some (c', ⟨held response buffer (i + 1), sent,
      storesTo response buffer i⟩) ∧ c'.phase = .finished := by
  obtain ⟨reports, posted, hturn, hposted⟩ := h.lagging.receive_end h.result_recv hzero
  have hworld : w.turn file response c =
      ⟨held response buffer (i + 1), sent, storesTo response buffer i⟩ := by
    have htakes := h.lagging.takes_eq h.result_recv
    rw [show Lag.taken _ _ = 0 from hzero] at htakes
    unfold World.turn
    rw [h.phase]
    dsimp only
    rw [iterates, htakes, if_neg (by omega), List.append_nil, h.execAll_recv]
  have hend : turn file.length c (promptTurn (fun op => result file response op) true) =
      some ({ c with phase := .received, ring := ⟨[], [], posted⟩ }, reports) := by
    unfold turn
    rw [h.phase]
    exact hturn
  obtain ⟨reports', hflush⟩ := flushRest_prompt
    (c := { c with phase := .received, ring := ⟨[], [], posted⟩ }) rfl
    (by rw [List.length_nil, Nat.zero_add, hposted]) (fun op => result file response op)
    "write" "Write error"
  have hrest : turn file.length { c with phase := .received, ring := ⟨[], [], posted⟩ }
      (promptTurn (fun op => result file response op) true) =
        some ({ c with phase := .finished, ring := .empty }, reports') := by
    show finishReceiving _ _ = _
    unfold finishReceiving
    show (flushRest _ "write" "Write error" (.prompt _)).bind _ = _
    rw [hflush]
    rfl
  refine ⟨{ c with phase := .finished, ring := .empty }, ?_, rfl⟩
  rw [copying_succ (copying_succ hcopying hend) hrest, hworld]
  have hnone : flushes { c with phase := .received, ring := ⟨[], [], posted⟩ } = [] := by
    unfold flushes
    split_ifs <;> rfl
  show some (_, execAll _ (flushes _) _) = _
  rw [hnone]
  rfl

/-- The second loop, up to an iteration. -/
theorem exists_storing (hbuffer : buffer.length = bufSize) {start : List UInt8} {n : ℕ}
    (hcopying : copying file response start n = some (c, w))
    (h : Storing file response buffer sent 0 c w) (hfit : i * bufSize < 2 ^ 63)
    (hpos : ∀ t < i, 0 < takenAt response t) :
    ∃ n c w, copying file response start n = some (c, w) ∧
      Storing file response buffer sent i c w := by
  induction i with
  | zero => exact ⟨n, c, w, hcopying, h⟩
  | succ i ih =>
    obtain ⟨n, c, w, hcopying, h⟩ := ih
      (Nat.lt_of_le_of_lt (Nat.mul_le_mul_right _ (Nat.le_succ i)) hfit)
      fun t ht => hpos t (Nat.lt_succ_of_lt ht)
    obtain ⟨c', reports, hturn, h'⟩ := h.next hbuffer hfit (hpos i (Nat.lt_succ_self i))
    exact ⟨n + 1, c', _, copying_succ hcopying hturn, h'⟩

end Storing

/-! ## How long the second loop is -/

/-- The number of receives that are taken to have got something: twice as many as there are chunks
in the last batch, unless that is more than a batch. -/
def receives (response : List UInt8) : ℕ :=
  batchSize * (chunks response / batchSize) + min batchSize (2 * (chunks response % batchSize))

section Receives

variable {response : List UInt8} {i : ℕ}

theorem lengths_pos {b t : ℕ} : lengths response b t ≠ 0 ↔ batchSize * b + t < chunks response := by
  rw [← length_chunk_pos, lengths, Nat.pos_iff_ne_zero]

theorem takenAt_pos_of_lt (hi : i < receives response) : 0 < takenAt response i := by
  refine Nat.pos_of_ne_zero (Lag.taken_ne_zero fun t ht => lengths_pos.mpr ?_)
  have hdiv := Nat.div_add_mod i batchSize
  have hmod := Nat.mod_lt i (show 0 < batchSize by decide)
  have hchunks := Nat.div_add_mod (chunks response) batchSize
  have hlt := Nat.mod_lt (chunks response) (show 0 < batchSize by decide)
  unfold receives at hi
  unfold batchSize at *
  omega

theorem takenAt_receives (response : List UInt8) : takenAt response (receives response) = 0 := by
  have hzero {b t : ℕ} (h : chunks response ≤ batchSize * b + t) : lengths response b t = 0 := by
    by_contra hne
    exact absurd (lengths_pos.mp hne) (not_lt.mpr h)
  have hchunks := Nat.div_add_mod (chunks response) batchSize
  have hlt := Nat.mod_lt (chunks response) (show 0 < batchSize by decide)
  unfold takenAt receives
  by_cases hhalf : 2 * (chunks response % batchSize) < batchSize
  · rw [Nat.min_eq_right (Nat.le_of_lt hhalf), Nat.mul_add_div (by decide),
      Nat.div_eq_of_lt hhalf, Nat.add_zero, Nat.mul_add_mod, Nat.mod_eq_of_lt hhalf,
      Lag.taken_even]
    exact hzero (by omega)
  · rw [Nat.min_eq_left (not_lt.mp hhalf), ← Nat.mul_succ, Nat.mul_div_cancel_left _ (by decide),
      Nat.mul_mod_right, Lag.taken_zero]
    exact hzero (by rw [Nat.mul_succ]; omega)

end Receives

/-- `main` gets to its end. -/
theorem exists_finished {file response buffer : List UInt8} (hbuffer : buffer.length = bufSize)
    (hfile : file.length + bufSize < 2 ^ 63) (hresponse : response.length < 2 ^ 62) :
    ∃ n c w buffer', copying file response buffer n = some (c, w) ∧ c.phase = .finished ∧
      w.sent = sendsTo file (chunks file) ∧ buffer'.length = bufSize ∧
      w.recvTxt = storesTo response buffer' (receives response) := by
  obtain ⟨n, fileOffset, buffer', hbuffer', hcopying⟩ :=
    exists_receiving response hbuffer hfile
  have hfit : receives response * bufSize < 2 ^ 63 := by
    unfold receives chunks batchSize bufSize
    omega
  obtain ⟨n, c, w, hcopying, h⟩ := exists_storing hbuffer' hcopying
    (storing_start file response buffer' _ fileOffset) hfit fun t ht => takenAt_pos_of_lt ht
  obtain ⟨c', hfinished, hphase⟩ := h.finish (takenAt_receives response) hcopying
  exact ⟨_, c', _, buffer', hfinished, hphase, rfl, hbuffer', rfl⟩

/-! ## What is in `recv.txt` -/

section Stored

variable {response buffer : List UInt8} {i : ℕ}

/-- A chunk that fills the buffer is written as it is. -/
theorem part_eq_chunk (hbuffer : buffer.length = bufSize)
    (hlen : (chunk response i).length = bufSize) (htaken : takenAt response i = bufSize) :
    part response buffer i = chunk response i ∧
      held response buffer (i + 1) = chunk response i := by
  have hheld : held response buffer (i + 1) = chunk response i := by
    rw [held, List.drop_eq_nil_of_le, List.append_nil]
    rw [length_held hbuffer, hlen]
  rw [part, hheld, htaken]
  exact ⟨List.take_of_length_le (Nat.le_of_eq hlen), rfl⟩

/-- The batches before the last one take whole buffers. -/
theorem takenAt_full (hi : i < batchSize * (chunks response / batchSize)) :
    takenAt response i = bufSize := by
  have hchunks := Nat.div_add_mod (chunks response) batchSize
  by_cases hmod : i % batchSize = 0
  · refine takenAt_of_lt response ?_
    have hdiv := Nat.div_add_mod i batchSize
    unfold batchSize at *
    omega
  · exact takenAt_eq response hmod (by omega)

/-- When the last chunk is whole, so is everything that is taken. -/
theorem takenAt_whole (hwhole : bufSize ∣ response.length) (hi : i < receives response) :
    takenAt response i = bufSize := by
  have hpos := takenAt_pos_of_lt hi
  obtain ⟨t, -, heq⟩ := Lag.exists_taken_eq (lengths response (i / batchSize)) (i % batchSize)
  rw [takenAt, heq, lengths, length_chunk] at hpos ⊢
  unfold bufSize at *
  omega

theorem length_chunk_whole (hwhole : bufSize ∣ response.length) (hi : i < chunks response) :
    (chunk response i).length = bufSize := by
  have hlt := (lt_chunks response).mp hi
  rw [length_chunk]
  unfold bufSize at *
  omega

/-- How often the last chunk is written again. -/
def repeats (response : List UInt8) : ℕ :=
  min (chunks response % batchSize) (batchSize - chunks response % batchSize)

theorem receives_eq (response : List UInt8) :
    receives response = chunks response + repeats response := by
  have hchunks := Nat.div_add_mod (chunks response) batchSize
  have hlt := Nat.mod_lt (chunks response) (show 0 < batchSize by decide)
  unfold receives repeats
  omega

/-- After the chunks the buffer keeps the last one. -/
theorem held_whole (hbuffer : buffer.length = bufSize) (hwhole : bufSize ∣ response.length)
    (hsome : 0 < chunks response) (r : ℕ) :
    held response buffer (chunks response + r) = chunk response (chunks response - 1) := by
  induction r with
  | zero =>
    obtain ⟨p, hp⟩ := Nat.exists_eq_succ_of_ne_zero (Nat.ne_of_gt hsome)
    have hlt : p < chunks response := by omega
    rw [hp]
    exact (part_eq_chunk hbuffer (length_chunk_whole hwhole hlt) (takenAt_whole hwhole (by
      rw [receives_eq]
      omega))).2
  | succ r ih =>
    rw [← Nat.add_assoc, held, chunk_eq_nil response (Nat.le_add_right _ r), ih]
    rfl

/-- What comes after the chunks: the last one, over and over. -/
theorem storesTo_whole (hbuffer : buffer.length = bufSize) (hwhole : bufSize ∣ response.length)
    {r : ℕ} (hr : chunks response + r ≤ receives response) :
    storesTo response buffer (chunks response + r) =
      response ++ (List.replicate r (chunk response (chunks response - 1))).flatten := by
  induction r with
  | zero =>
    have hparts : ∀ i ∈ List.range (chunks response),
        part response buffer i = chunk response i := by
      intro i hi
      have hlt := List.mem_range.mp hi
      exact (part_eq_chunk hbuffer (length_chunk_whole hwhole hlt)
        (takenAt_whole hwhole (by omega))).1
    rw [Nat.add_zero, storesTo, List.flatMap_congr hparts, flatMap_chunks, List.replicate_zero,
      List.flatten_nil, List.append_nil]
  | succ r ih =>
    have hsome : 0 < chunks response := by
      unfold receives at hr
      by_contra hnone
      rw [Nat.eq_zero_of_not_pos hnone, Nat.zero_div, Nat.zero_mod] at hr
      omega
    have hlast := length_chunk_whole (i := chunks response - 1) hwhole (by omega)
    have hpart : part response buffer (chunks response + r) =
        chunk response (chunks response - 1) := by
      rw [part, Nat.add_assoc, held_whole hbuffer hwhole hsome, takenAt_whole hwhole (by omega)]
      exact List.take_of_length_le (Nat.le_of_eq hlast)
    rw [← Nat.add_assoc, storesTo_succ, ih (by omega), hpart, List.replicate_succ',
      List.flatten_append, List.flatten_singleton, List.append_assoc]

theorem sum_map_const {f : ℕ → ℕ} {is : List ℕ} {v : ℕ} (h : ∀ i ∈ is, f i = v) :
    (is.map f).sum = is.length * v := by
  rw [List.map_congr_left h, List.map_const', List.sum_replicate_nat]

/-- The results of the last batch, together. -/
theorem sum_lengths (hpos : 0 < chunks response % batchSize) :
    batchSize * (chunks response / batchSize) * bufSize +
      ((List.range (chunks response % batchSize)).map
        (lengths response (chunks response / batchSize))).sum = response.length := by
  have hchunks := Nat.div_add_mod (chunks response) batchSize
  have hfull : ∀ i ∈ List.range (batchSize * (chunks response / batchSize)),
      (chunk response i).length = bufSize := by
    intro i hi
    have hlt := List.mem_range.mp hi
    exact length_chunk_of_lt response (by omega)
  have htotal := congrArg List.length (flatMap_chunks response)
  rw [List.length_flatMap, ← hchunks, List.range_add, List.map_append, List.sum_append,
    sum_map_const hfull, List.length_range, List.map_map] at htotal
  exact htotal

/-- The last batch takes more than is left for it. -/
theorem lt_sum_taken (hpos : 0 < chunks response % batchSize) :
    response.length < batchSize * (chunks response / batchSize) * bufSize +
      ((List.range (min batchSize (2 * (chunks response % batchSize)))).map
        (Lag.taken (lengths response (chunks response / batchSize)))).sum := by
  have hchunks := Nat.div_add_mod (chunks response) batchSize
  by_cases hhalf : 2 * (chunks response % batchSize) ≤ batchSize
  · obtain ⟨p, hp⟩ := Nat.exists_eq_succ_of_ne_zero (Nat.ne_of_gt hpos)
    have hlast : Lag.taken (lengths response (chunks response / batchSize)) p ≠ 0 :=
      Lag.taken_ne_zero fun t ht => lengths_pos.mpr (by omega)
    have htotal := sum_lengths hpos
    rw [Nat.min_eq_right hhalf, Lag.sum_taken, ← Nat.add_assoc, htotal, hp, Nat.succ_eq_add_one,
      List.range_succ, List.map_append, List.sum_append, List.map_singleton, List.sum_singleton]
    omega
  · have hfull : ∀ t ∈ List.range batchSize,
        Lag.taken (lengths response (chunks response / batchSize)) t = bufSize := by
      intro t ht
      have hlt := List.mem_range.mp ht
      refine Lag.taken_eq_of_forall fun s hs => length_chunk_of_lt response ?_
      unfold batchSize at *
      omega
    have hend := (lt_chunks response (i := chunks response)).not.mp (Nat.lt_irrefl _)
    have hlt := Nat.mod_lt (chunks response) (show 0 < batchSize by decide)
    rw [Nat.min_eq_left (by omega), sum_map_const hfull, List.length_range, ← Nat.add_mul]
    refine Nat.lt_of_le_of_lt (not_lt.mp hend) (Nat.mul_lt_mul_of_pos_right ?_ (by decide))
    omega

/-- `recv.txt` is longer than the response unless that fills its batches. -/
theorem length_lt_storesTo (hbuffer : buffer.length = bufSize)
    (h : ¬ bufSize * batchSize ∣ response.length) :
    response.length < (storesTo response buffer (receives response)).length := by
  have hfull : ((List.range (batchSize * (chunks response / batchSize))).map
      (takenAt response)).sum = batchSize * (chunks response / batchSize) * bufSize := by
    rw [sum_map_const fun i hi => takenAt_full (List.mem_range.mp hi), List.length_range]
  have hbatch : ((List.range (min batchSize (2 * (chunks response % batchSize)))).map
      fun t => takenAt response (batchSize * (chunks response / batchSize) + t)) =
        (List.range (min batchSize (2 * (chunks response % batchSize)))).map
          (Lag.taken (lengths response (chunks response / batchSize))) := by
    refine List.map_congr_left fun t ht => ?_
    have hlt : t < batchSize := Nat.lt_of_lt_of_le (List.mem_range.mp ht) (Nat.min_le_left _ _)
    rw [takenAt, Nat.mul_add_div (by decide), Nat.div_eq_of_lt hlt, Nat.add_zero, Nat.mul_add_mod,
      Nat.mod_eq_of_lt hlt]
  rw [length_storesTo hbuffer, receives, List.range_add, List.map_append, List.sum_append, hfull,
    List.map_map]
  show _ < _ + ((List.range _).map fun t => takenAt response (_ + t)).sum
  rw [hbatch]
  by_cases hpos : 0 < chunks response % batchSize
  · exact lt_sum_taken hpos
  · have hchunks := Nat.div_add_mod (chunks response) batchSize
    have hend := (lt_chunks response (i := chunks response)).not.mp (Nat.lt_irrefl _)
    have hne : response.length ≠ batchSize * (chunks response / batchSize) * bufSize := by
      intro heq
      refine h ⟨chunks response / batchSize, ?_⟩
      rw [heq, Nat.mul_comm bufSize, Nat.mul_right_comm]
    rw [Nat.eq_zero_of_not_pos hpos, Nat.add_zero] at hchunks
    rw [hchunks] at hne ⊢
    omega

/-- The response is stored as it is exactly if it fills its batches. -/
theorem storesTo_eq_iff (hbuffer : buffer.length = bufSize) :
    storesTo response buffer (receives response) = response ↔
      bufSize * batchSize ∣ response.length := by
  constructor
  · intro h
    by_contra hne
    have hlt := length_lt_storesTo hbuffer hne
    rw [h] at hlt
    exact Nat.lt_irrefl _ hlt
  · rintro ⟨q, hq⟩
    have hwhole : bufSize ∣ response.length := ⟨batchSize * q, by rw [hq, Nat.mul_assoc]⟩
    have hnone : repeats response = 0 := by
      unfold repeats chunks
      unfold bufSize batchSize at *
      omega
    have hstored := storesTo_whole hbuffer hwhole (Nat.le_of_eq (receives_eq response).symm)
    rw [receives_eq, hstored, hnone, List.replicate_zero, List.flatten_nil, List.append_nil]

end Stored

/-! ## The whole run -/

/-- **What the server gets.**  When every submission is executed at once, in order and in full,
`main` gets to its end, and what it has sent is the file exactly if all chunks but the last one are
zeros wherever they do not end a batch, and the last one is a whole buffer or the first of its
batch. -/
theorem sent_iff {file response buffer : List UInt8} (hbuffer : buffer.length = bufSize)
    (hfile : file.length + bufSize < 2 ^ 63) (hresponse : response.length < 2 ^ 62) :
    ∃ n c w, copying file response buffer n = some (c, w) ∧ c.phase = .finished ∧
      (w.sent = file ↔
        (∀ i, i + 1 < chunks file → (i + 1) % batchSize ≠ 0 →
          chunk file i = List.replicate bufSize 0) ∧
        (bufSize ∣ file.length ∨ (chunks file - 1) % batchSize = 0)) := by
  obtain ⟨n, c, w, -, hcopying, hphase, hsent, -, -⟩ := exists_finished hbuffer hfile hresponse
  exact ⟨n, c, w, hcopying, hphase, by rw [hsent]; exact sendsTo_eq_iff file⟩

/-- Of a file of two chunks the server gets the second one only. -/
theorem sent_two_chunks : ∃ n c w,
    copying [1, 2, 3, 4, 5, 6, 7, 8] [] [0, 0, 0, 0] n = some (c, w) ∧ c.phase = .finished ∧
      w.sent ≠ [1, 2, 3, 4, 5, 6, 7, 8] := by
  obtain ⟨n, c, w, hcopying, hphase, hiff⟩ :=
    @sent_iff [1, 2, 3, 4, 5, 6, 7, 8] [] [0, 0, 0, 0] rfl (by decide) (by decide)
  exact ⟨n, c, w, hcopying, hphase, fun h =>
    absurd ((hiff.mp h).1 0 (by decide) (by decide)) (by decide)⟩

/-- **What `recv.txt` holds.**  In such a run the response is stored as it is exactly if it fills
its batches of 512 chunks; otherwise `recv.txt` is longer. -/
theorem recvTxt_iff {file response buffer : List UInt8} (hbuffer : buffer.length = bufSize)
    (hfile : file.length + bufSize < 2 ^ 63) (hresponse : response.length < 2 ^ 62) :
    ∃ n c w, copying file response buffer n = some (c, w) ∧ c.phase = .finished ∧
      (w.recvTxt = response ↔ bufSize * batchSize ∣ response.length) ∧
      (w.recvTxt ≠ response → response.length < w.recvTxt.length) := by
  obtain ⟨n, c, w, buffer', hcopying, hphase, -, hbuffer', hrecvTxt⟩ :=
    exists_finished hbuffer hfile hresponse
  refine ⟨n, c, w, hcopying, hphase, ?_, ?_⟩
  · rw [hrecvTxt]
    exact storesTo_eq_iff hbuffer'
  · rw [hrecvTxt]
    intro hne
    exact length_lt_storesTo hbuffer' fun h => hne ((storesTo_eq_iff hbuffer').mpr h)

/-- A response that ends within a chunk. -/
theorem recvTxt_short : ∃ n c w, copying [] [1, 2, 3] [0, 0, 0, 0] n = some (c, w) ∧
    c.phase = .finished ∧ 3 < w.recvTxt.length := by
  obtain ⟨n, c, w, hcopying, hphase, hiff, hlonger⟩ :=
    @recvTxt_iff [] [1, 2, 3] [0, 0, 0, 0] rfl (by decide) (by decide)
  exact ⟨n, c, w, hcopying, hphase, hlonger fun h => absurd (hiff.mp h) (by decide)⟩

/-- **The end of a response in whole chunks.**  In such a run `recv.txt` holds the response and
then its last chunk again, as often as there are chunks in the last batch or missing from it. -/
theorem recvTxt_whole {file response buffer : List UInt8} (hbuffer : buffer.length = bufSize)
    (hfile : file.length + bufSize < 2 ^ 63) (hresponse : response.length < 2 ^ 62)
    (hwhole : bufSize ∣ response.length) :
    ∃ n c w, copying file response buffer n = some (c, w) ∧ c.phase = .finished ∧
      w.recvTxt = response ++
        (List.replicate (repeats response) (chunk response (chunks response - 1))).flatten := by
  obtain ⟨n, c, w, buffer', hcopying, hphase, -, hbuffer', hrecvTxt⟩ :=
    exists_finished hbuffer hfile hresponse
  refine ⟨n, c, w, hcopying, hphase, ?_⟩
  rw [hrecvTxt, receives_eq]
  exact storesTo_whole hbuffer' hwhole (Nat.le_of_eq (receives_eq response).symm)

/-- A response of one chunk is stored twice. -/
theorem recvTxt_one_chunk : ∃ n c w, copying [] [1, 2, 3, 4] [0, 0, 0, 0] n = some (c, w) ∧
    c.phase = .finished ∧ w.recvTxt = [1, 2, 3, 4, 1, 2, 3, 4] :=
  @recvTxt_whole [] [1, 2, 3, 4] [0, 0, 0, 0] rfl (by decide) (by decide) (by decide)

end ClickhouseUring.UringCopy
