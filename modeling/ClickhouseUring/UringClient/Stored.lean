import ClickhouseUring.Kit.File
import ClickhouseUring.UringClient.Accounting

/-!
# What the client stores of the answer

In the second loop of `main` each chunk received is written to `recv.txt` at `recv_file_offset`,
which then moves past the whole chunk, however many bytes the write has stored.  The result of the
write is only compared with 0.

`stores_iff` says when the file is the answer: a byte that a short write leaves out has to be a zero
that a later write makes part of the file.
-/

namespace ClickhouseUring.UringClient

open Uring

/-- An iteration of the second loop: the bytes received, and the result of the write. -/
structure Round where
  bytes : List UInt8
  written : ℤ
  bytes_pos : 0 < bytes.length
  bytes_le : bytes.length ≤ bufSize
  written_le : written ≤ bytes.length

/-- The answer: its chunks, and the result of the last `recv`. -/
structure Answer where
  rounds : List Round
  last : ℤ
  last_le : last ≤ 0

/-- All bytes received. -/
def received (rounds : List Round) : List UInt8 := rounds.flatMap Round.bytes

/-- A turn of `main` in which these are the results. -/
def Round.turn (r : Round) : Turn where
  flush := .prompt fun _ => 0
  opened := true
  recv := some (.prompt fun _ => r.bytes.length)
  write := some (.prompt fun _ => r.written)

/-- The turn in which the second loop ends. -/
def Answer.lastTurn (a : Answer) : Turn where
  flush := .prompt fun _ => 0
  opened := true
  recv := some (.prompt fun _ => a.last)
  write := none

/-- The turns of the second loop. -/
def Answer.turns (a : Answer) : List Turn := a.rounds.map Round.turn ++ [a.lastTurn]

/-- `main` at the second loop. -/
def receivingAt (fileOffset : ℤ) (batchCount : ℕ) (recvFileOffset : ℤ) : Client :=
  ⟨.receiving, fileOffset, batchCount, recvFileOffset, .empty⟩

/-- What is still to come on the socket, the buffer, and the content of `recv.txt`. -/
structure Disk where
  incoming : List (List UInt8)
  buffer : List UInt8
  content : List UInt8
deriving DecidableEq, Repr

/-- What the operations have done when they are waited for: a `recv` that returns something fills
the buffer, a write stores as many bytes as it returns.  Nothing is stored at a negative offset. -/
def Disk.store (d : Disk) : Report → Disk
  | .wait (.recv _) _ cqe =>
    if 0 < cqe.res then
      { d with
        incoming := d.incoming.tail
        buffer := d.incoming.headD [] ++ d.buffer.drop (d.incoming.headD []).length }
    else d
  | .wait (.write _ offset) _ cqe =>
    if 0 ≤ offset then
      { d with content := pwrite d.content offset.toNat (d.buffer.take cqe.res.toNat) }
    else d
  | _ => d

/-- The run logs no error. -/
def NoError (tr : List Report) : Prop := ∀ message, .logError message ∉ tr

/-- A run of the second loop that logs no error leaves the answer in `recv.txt`, which is empty at
first. -/
def Stores (stSize : ℤ) (c : Client) (buffer : List UInt8) (a : Answer) : Prop :=
  let tr := (client stSize).trace (some c) a.turns
  NoError tr → (tr.foldl Disk.store ⟨a.rounds.map Round.bytes, buffer, []⟩).content =
    received a.rounds

/-- The last write is in full and not behind the largest offset, and what the others leave out is
zeros. -/
def InFull (rounds : List Round) : Prop :=
  (∀ r ∈ rounds, ∀ b ∈ r.bytes.drop r.written.toNat, b = 0) ∧
  (∀ r ∈ rounds.getLast?, r.written = r.bytes.length) ∧
  (received rounds.dropLast).length < 2 ^ 63

/-! ## Up to the second loop -/

theorem recvFileOffset_flushBatch {c c' : Client} {k : Service Op} {peekError resError : String}
    {reports : List Report} (h : flushBatch c k peekError resError = some (c', reports)) :
    c'.recvFileOffset = c.recvFileOffset := by
  unfold flushBatch at h
  obtain ⟨ring, -, h⟩ := Option.bind_eq_some_iff.mp h
  cases h
  rfl

theorem recvFileOffset_sendChunk {stSize : ℤ} {c c' : Client} {k : Service Op}
    {reports : List Report} (h : sendChunk stSize c k = some (c', reports)) :
    c'.recvFileOffset = c.recvFileOffset := by
  unfold sendChunk at h
  obtain ⟨bound, -, h⟩ := Option.bind_eq_some_iff.mp h
  dsimp only at h
  generalize (if bound > stSize then (stSize - c.fileOffset).toNat else bufSize) = n at h
  split at h
  · cases h
    rfl
  · split at h
    · cases h
      rfl
    · split_ifs at h
      · obtain ⟨p, hflush, h⟩ := Option.bind_eq_some_iff.mp h
        have hkept := recvFileOffset_flushBatch hflush
        cases h
        exact hkept
      · cases h
        rfl

theorem recvFileOffset_finishSending {c c' : Client} {t : Turn} {reports : List Report}
    (h : finishSending c t = some (c', reports)) : c'.recvFileOffset = c.recvFileOffset := by
  unfold finishSending at h
  obtain ⟨⟨c₁, reports₁⟩, hflush, h⟩ := Option.bind_eq_some_iff.mp h
  have hrest : c₁.recvFileOffset = c.recvFileOffset := by
    unfold flushRest at hflush
    split_ifs at hflush
    · exact recvFileOffset_flushBatch hflush
    · obtain ⟨rfl, -⟩ := Prod.mk.inj (Option.some.inj hflush)
      rfl
  dsimp only at h
  split_ifs at h
  all_goals
    cases h
    exact hrest

/-- When `main` comes to the second loop, nothing is in flight and `recv_file_offset` is 0. -/
theorem client_receiving {stSize : ℤ} (h0 : 0 ≤ stSize) (hfit : stSize + bufSize < 2 ^ 63)
    {ts : List Turn} (hts : ts.length = iterations stSize + 1) :
    ∃ c, (client stSize).after (some started) ts = some c ∧
      (c.phase = .receiving → c = receivingAt c.fileOffset c.batchCount 0) := by
  have hturn (n : ℕ) (tr : List Report) (c : Client) (t : Turn)
      (h : Accounts stSize n tr c ∧ (n ≤ iterations stSize + 1 → c.recvFileOffset = 0))
      (_ : True) : ∃ c' reports, UringClient.turn stSize c t = some (c', reports) ∧
        Accounts stSize (n + 1) (tr ++ reports) c' ∧
          (n + 1 ≤ iterations stSize + 1 → c'.recvFileOffset = 0) := by
    obtain ⟨c', reports, hturn, haccounts⟩ := h.1.turn hfit t
    refine ⟨c', reports, hturn, haccounts, fun hn => ?_⟩
    have hphase := (h.1.sending (Nat.le_of_succ_le_succ hn)).1
    have hsame : c'.recvFileOffset = c.recvFileOffset := by
      rcases lt_or_ge c.fileOffset stSize with hlt | hend
      · exact recvFileOffset_sendChunk ((turn_of_lt hphase hlt t).symm.trans hturn)
      · exact recvFileOffset_finishSending ((turn_of_end hphase hend t).symm.trans hturn)
    exact hsame.trans (h.2 (by omega))
  have hclient : client stSize = .ofPartial (turn stSize) := rfl
  rw [hclient]
  obtain ⟨c, hafter, haccounts, hoffset⟩ :=
    Machine.ofPartial_run hturn ⟨accounts_started h0, fun _ => rfl⟩ fun t (_ : t ∈ ts) => trivial
  refine ⟨c, hafter, fun hphase => ?_⟩
  have hring := haccounts.drained hts
  have hzero := hoffset hts.le
  obtain ⟨phase, fileOffset, batchCount, recvFileOffset, ring⟩ := c
  obtain rfl : phase = .receiving := hphase
  obtain rfl : ring = .empty := hring
  obtain rfl : recvFileOffset = 0 := hzero
  rfl

/-! ## A turn -/

section Turn

variable {fileOffset : ℤ} {batchCount : ℕ} {offset : ℤ} (stSize : ℤ)

/-- What is reported of an iteration. -/
def Round.reports (r : Round) (offset : ℤ) : List Report :=
  let n := r.bytes.length
  [.prep (.recv bufSize) 1, .wait (.recv bufSize) [.recv bufSize] ⟨.recv bufSize, n⟩,
    .prep (.write n offset) 1, .wait (.write n offset) [.write n offset]
      ⟨.write n offset, r.written⟩] ++
  if r.written < 0 then [.logError "Write error"] else []

theorem writeReceived_prompt (n : ℕ) (res : ℤ) :
    writeReceived (receivingAt fileOffset batchCount offset) (some (.prompt fun _ => res)) n =
      some (receivingAt fileOffset batchCount (CInt.wrap 64 (offset + n)),
        [.prep (.write n offset) 1, .wait (.write n offset) [.write n offset]
          ⟨.write n offset, res⟩] ++ if res < 0 then [.logError "Write error"] else []) := by
  unfold writeReceived
  dsimp only [receivingAt]
  rw [Queues.getSqe_eq (show 0 < queueDepth by decide)]
  show ((Service.prompt fun _ => res).wait 1 ⟨[], [Op.write n offset], []⟩).bind _ = _
  rw [Service.wait_prompt]
  rfl

theorem turn_round (r : Round) :
    turn stSize (receivingAt fileOffset batchCount offset) r.turn =
      some (receivingAt fileOffset batchCount (CInt.wrap 64 (offset + r.bytes.length)),
        r.reports offset) := by
  have hpos := r.bytes_pos
  have hres : ¬ (r.bytes.length : ℤ) ≤ 0 := by omega
  show receive (receivingAt fileOffset batchCount offset) r.turn = _
  unfold receive
  dsimp only [receivingAt, Round.turn]
  rw [Queues.getSqe_eq (show 0 < queueDepth by decide)]
  show ((Service.prompt fun _ => (r.bytes.length : ℤ)).wait 1
    ⟨[], [Op.recv bufSize], []⟩).bind _ = _
  rw [Service.wait_prompt]
  show (if (r.bytes.length : ℤ) ≤ 0 then _ else _) = _
  rw [if_neg hres]
  show (writeReceived (receivingAt fileOffset batchCount offset) _ r.bytes.length).bind _ = _
  rw [writeReceived_prompt]
  rfl

/-- What is reported of the last iteration. -/
def Answer.lastReports (a : Answer) : List Report :=
  [.prep (.recv bufSize) 1, .wait (.recv bufSize) [.recv bufSize] ⟨.recv bufSize, a.last⟩] ++
  if a.last < 0 then [.logError "Receive error"] else []

theorem turn_last (a : Answer) :
    turn stSize (receivingAt fileOffset batchCount offset) a.lastTurn =
      some (⟨.finished, fileOffset, batchCount, offset, .empty⟩, a.lastReports) := by
  show receive (receivingAt fileOffset batchCount offset) a.lastTurn = _
  unfold receive
  dsimp only [receivingAt, Answer.lastTurn]
  rw [Queues.getSqe_eq (show 0 < queueDepth by decide)]
  show ((Service.prompt fun _ => a.last).wait 1 ⟨[], [Op.recv bufSize], []⟩).bind _ = _
  rw [Service.wait_prompt]
  show (if a.last ≤ 0 then _ else _) = _
  rw [if_pos a.last_le]
  rfl

/-! ## The second loop -/

/-- What is reported of the iterations that receive something, from an offset on. -/
def reportsFrom : ℤ → List Round → List Report
  | _, [] => []
  | offset, r :: rs => r.reports offset ++ reportsFrom (CInt.wrap 64 (offset + r.bytes.length)) rs

theorem trace_receiving (a : Answer) (rs : List Round) :
    (client stSize).trace (some (receivingAt fileOffset batchCount offset))
        (rs.map Round.turn ++ [a.lastTurn]) = reportsFrom offset rs ++ a.lastReports := by
  induction rs generalizing offset with
  | nil =>
    have hlast := client_step (@turn_last fileOffset batchCount offset stSize a)
    rw [List.map_nil, List.nil_append, Machine.trace_cons, hlast.2, Machine.trace_nil,
      List.append_nil]
    rfl
  | cons r rs ih =>
    have hround := client_step (@turn_round fileOffset batchCount offset stSize r)
    rw [List.map_cons, List.cons_append, Machine.trace_cons, hround.1, hround.2, ih, reportsFrom,
      List.append_assoc]

end Turn

/-! ## Errors -/

theorem noError_append {a b : List Report} : NoError (a ++ b) ↔ NoError a ∧ NoError b := by
  unfold NoError
  simp only [List.mem_append, not_or, forall_and]

theorem noError_reports (r : Round) (offset : ℤ) : NoError (r.reports offset) ↔ 0 ≤ r.written := by
  unfold Round.reports NoError
  split_ifs with h
  · simp [h]
  · simp [not_lt.mp h]

theorem noError_lastReports (a : Answer) : NoError a.lastReports ↔ 0 ≤ a.last := by
  unfold Answer.lastReports NoError
  split_ifs with h
  · simp [h]
  · simp [not_lt.mp h]

theorem noError_reportsFrom (offset : ℤ) (rs : List Round) :
    NoError (reportsFrom offset rs) ↔ ∀ r ∈ rs, 0 ≤ r.written := by
  induction rs generalizing offset with
  | nil => exact iff_of_true (fun _ => List.not_mem_nil) (List.forall_mem_nil _)
  | cons r rs ih => rw [reportsFrom, noError_append, noError_reports, ih, List.forall_mem_cons]

/-! ## The file -/

/-- `recv_file_offset` and the file after an iteration. -/
def Round.put (s : ℤ × List UInt8) (r : Round) : ℤ × List UInt8 :=
  (CInt.wrap 64 (s.1 + r.bytes.length),
    if 0 ≤ s.1 then pwrite s.2 s.1.toNat (r.bytes.take r.written.toNat) else s.2)

/-- `recv_file_offset` and the file after iterations. -/
def stored (rs : List Round) : ℤ × List UInt8 := rs.foldl Round.put (0, [])

theorem store_reports (r : Round) (offset : ℤ) (rest : List (List UInt8))
    (buffer content : List UInt8) :
    ∃ buffer', (r.reports offset).foldl Disk.store ⟨r.bytes :: rest, buffer, content⟩ =
      ⟨rest, buffer', (r.put (offset, content)).2⟩ := by
  have hpos := r.bytes_pos
  have hres : (0 : ℤ) < r.bytes.length := by omega
  have hle := r.written_le
  have htake : (r.bytes ++ buffer.drop r.bytes.length).take r.written.toNat =
      r.bytes.take r.written.toNat := List.take_append_of_le_length (by omega)
  have hrecv : Disk.store ⟨r.bytes :: rest, buffer, content⟩
      (.wait (.recv bufSize) [.recv bufSize] ⟨.recv bufSize, r.bytes.length⟩) =
        ⟨rest, r.bytes ++ buffer.drop r.bytes.length, content⟩ := if_pos hres
  have hwrite : Disk.store ⟨rest, r.bytes ++ buffer.drop r.bytes.length, content⟩
      (.wait (.write r.bytes.length offset) [.write r.bytes.length offset]
        ⟨.write r.bytes.length offset, r.written⟩) =
          ⟨rest, r.bytes ++ buffer.drop r.bytes.length, (r.put (offset, content)).2⟩ := by
    unfold Disk.store Round.put
    dsimp only
    rw [htake]
    split_ifs <;> rfl
  refine ⟨r.bytes ++ buffer.drop r.bytes.length, ?_⟩
  unfold Round.reports
  dsimp only
  rw [List.foldl_append, List.foldl_cons, List.foldl_cons, List.foldl_cons, List.foldl_cons,
    List.foldl_nil]
  dsimp only [Disk.store] at hrecv hwrite ⊢
  rw [hrecv, hwrite]
  split_ifs <;> rfl

theorem store_reportsFrom (offset : ℤ) (rs : List Round) (buffer content : List UInt8) :
    ∃ buffer', (reportsFrom offset rs).foldl Disk.store ⟨rs.map Round.bytes, buffer, content⟩ =
      ⟨[], buffer', (rs.foldl Round.put (offset, content)).2⟩ := by
  induction rs generalizing offset buffer content with
  | nil => exact ⟨buffer, rfl⟩
  | cons r rs ih =>
    obtain ⟨buffer₁, hround⟩ := store_reports r offset (rs.map Round.bytes) buffer content
    obtain ⟨buffer₂, hrest⟩ := ih (CInt.wrap 64 (offset + r.bytes.length)) buffer₁
      (r.put (offset, content)).2
    refine ⟨buffer₂, ?_⟩
    rw [reportsFrom, List.foldl_append, List.map_cons, hround, hrest]
    rfl

theorem store_lastReports (a : Answer) (d : Disk) : a.lastReports.foldl Disk.store d = d := by
  have hrecv : d.store (.wait (.recv bufSize) [.recv bufSize] ⟨.recv bufSize, a.last⟩) = d :=
    if_neg a.last_le.not_gt
  unfold Answer.lastReports
  rw [List.foldl_append, List.foldl_cons, List.foldl_cons, List.foldl_nil]
  show (if a.last < 0 then _ else _ : List Report).foldl Disk.store (d.store _) = d
  rw [hrecv]
  split_ifs <;> rfl

/-! ## What the file holds -/

theorem received_concat (rs : List Round) (r : Round) :
    received (rs ++ [r]) = received rs ++ r.bytes := by
  unfold received
  rw [List.flatMap_append, List.flatMap_singleton]

theorem stored_concat (rs : List Round) (r : Round) : stored (rs ++ [r]) = r.put (stored rs) := by
  unfold stored
  rw [List.foldl_append]
  rfl

/-- `recv_file_offset` counts the bytes received. -/
theorem stored_offset (rs : List Round) :
    (stored rs).1 = CInt.wrap 64 ((received rs).length : ℤ) := by
  induction rs using List.reverseRecOn with
  | nil => rfl
  | append_singleton rs r ih =>
    rw [stored_concat, received_concat, List.length_append, Nat.cast_add]
    show CInt.wrap 64 ((stored rs).1 + r.bytes.length) = _
    rw [ih]
    exact Int.bmod_add_bmod

theorem stored_offset_of_lt {rs : List Round} (h : (received rs).length < 2 ^ 63) :
    (stored rs).1 = (received rs).length := by
  rw [stored_offset]
  exact CInt.wrap_eq_self (CInt.fits_of_nonneg (Int.natCast_nonneg _) (by omega))

/-- From the largest offset on, `recv_file_offset` stays behind. -/
theorem stored_offset_lt {rs : List Round} (h : 2 ^ 63 ≤ (received rs).length) :
    (stored rs).1 < (received rs).length := by
  have hlt : CInt.wrap 64 ((received rs).length : ℤ) < 2 ^ 63 := (CInt.fits_wrap 63 _).2
  rw [stored_offset]
  omega

theorem Round.length_put_le (r : Round) (s : ℤ × List UInt8) :
    ((r.put s).2.length : ℤ) ≤ max (s.2.length : ℤ) (s.1 + r.bytes.length) := by
  unfold Round.put
  dsimp only
  split_ifs
  · have hle := length_pwrite_le s.2 (r.bytes.take r.written.toNat) s.1.toNat
    rw [List.length_take] at hle
    omega
  · exact le_max_left _ _

/-- The file is not longer than the answer so far. -/
theorem length_stored_le (rs : List Round) : (stored rs).2.length ≤ (received rs).length := by
  induction rs using List.reverseRecOn with
  | nil => exact le_rfl
  | append_singleton rs r ih =>
    have hoffset : (stored rs).1 ≤ (received rs).length := by
      rcases lt_or_ge (received rs).length (2 ^ 63) with h | h
      · exact (stored_offset_of_lt h).le
      · exact (stored_offset_lt h).le
    have hput := r.length_put_le (stored rs)
    rw [stored_concat, received_concat, List.length_append]
    omega

/-- A chunk that is behind the largest offset is not stored where it belongs. -/
theorem length_stored_lt {rs : List Round} (h : 2 ^ 63 ≤ (received rs).length) (r : Round) :
    (stored (rs ++ [r])).2.length < (received (rs ++ [r])).length := by
  have hpos := r.bytes_pos
  have hlen := length_stored_le rs
  have hoffset := stored_offset_lt h
  have hput := r.length_put_le (stored rs)
  rw [stored_concat, received_concat, List.length_append]
  omega

/-- A chunk with zeros for what the write leaves out. -/
def Round.kept (r : Round) : List UInt8 := padTo r.bytes.length (r.bytes.take r.written.toNat)

theorem Round.length_kept (r : Round) : r.kept.length = r.bytes.length := by
  unfold Round.kept
  rw [length_padTo, List.length_take]
  omega

theorem Round.kept_eq_iff {r : Round} :
    r.kept = r.bytes ↔ ∀ b ∈ r.bytes.drop r.written.toNat, b = 0 := by
  have hlen : (r.bytes.drop r.written.toNat).length =
      r.bytes.length - (r.bytes.take r.written.toNat).length := by
    rw [List.length_drop, List.length_take]
    omega
  have hsplit : r.kept = r.bytes ↔ r.kept = r.bytes.take r.written.toNat ++
      r.bytes.drop r.written.toNat := by rw [List.take_append_drop]
  rw [hsplit]
  unfold Round.kept padTo
  rw [List.append_right_inj, eq_comm, List.eq_replicate_iff]
  exact and_iff_right hlen

/-- An iteration before the largest offset. -/
theorem stored_concat_of_lt {rs : List Round} (h : (received rs).length < 2 ^ 63) (r : Round) :
    (stored (rs ++ [r])).2 =
      pwrite (stored rs).2 (received rs).length (r.bytes.take r.written.toNat) := by
  rw [stored_concat]
  unfold Round.put
  dsimp only
  rw [stored_offset_of_lt h, if_pos (Int.natCast_nonneg _), Int.toNat_natCast]

/-- What is left out reads as zeros. -/
theorem padTo_stored {rs : List Round} (h : (received rs).length < 2 ^ 63) :
    padTo (received rs).length (stored rs).2 = rs.flatMap Round.kept := by
  induction rs using List.reverseRecOn with
  | nil => rfl
  | append_singleton rs r ih =>
    rw [received_concat, List.length_append] at h
    have hlt : (received rs).length < 2 ^ 63 := by omega
    rw [received_concat, List.length_append, stored_concat_of_lt hlt,
      padTo_pwrite (length_stored_le rs), ih hlt, List.flatMap_append, List.flatMap_singleton]
    rfl

/-- When the last iteration completes the file. -/
theorem stored_eq_iff {rs : List Round} (h : (received rs).length < 2 ^ 63) (r : Round) :
    (stored (rs ++ [r])).2 = received (rs ++ [r]) ↔
      (∀ r ∈ rs, r.kept = r.bytes) ∧ r.written = r.bytes.length := by
  have hpos := r.bytes_pos
  have hlen := length_stored_le rs
  have hwritten := r.written_le
  have hpad := padTo_stored h
  rw [stored_concat_of_lt h, received_concat]
  constructor
  · intro heq
    -- a short write leaves the file too short
    have hfull : r.written = r.bytes.length := by
      by_contra hne
      have hle := length_pwrite_le (stored rs).2 (r.bytes.take r.written.toNat)
        (received rs).length
      rw [heq, List.length_append, List.length_take] at hle
      omega
    have htake : r.bytes.take r.written.toNat = r.bytes := List.take_of_length_le (by omega)
    rw [htake, pwrite_of_le hlen (List.ne_nil_of_length_pos hpos), hpad] at heq
    exact ⟨(flatMap_append_inj (fun r _ => r.length_kept) heq).1, hfull⟩
  · rintro ⟨hkept, hfull⟩
    have htake : r.bytes.take r.written.toNat = r.bytes := List.take_of_length_le (by omega)
    rw [htake, pwrite_of_le hlen (List.ne_nil_of_length_pos hpos), hpad]
    exact congrArg (· ++ r.bytes) (List.flatMap_congr hkept)

theorem stored_eq_received_iff (rs : List Round) : (stored rs).2 = received rs ↔ InFull rs := by
  induction rs using List.reverseRecOn with
  | nil =>
    refine iff_of_true rfl ⟨List.forall_mem_nil _, ?_, ?_⟩
    · intro r hr
      exact absurd hr (Option.not_mem_none r)
    · exact Nat.two_pow_pos 63
  | append_singleton rs r _ =>
    unfold InFull
    rw [List.dropLast_concat, List.getLast?_concat]
    rcases lt_or_ge (received rs).length (2 ^ 63) with h | h
    · rw [stored_eq_iff h]
      constructor
      · rintro ⟨hkept, hfull⟩
        refine ⟨?_, ?_, h⟩
        · intro r' hr'
          rcases List.mem_append.mp hr' with hr' | hr'
          · exact Round.kept_eq_iff.mp (hkept r' hr')
          · obtain rfl := List.mem_singleton.mp hr'
            rw [List.drop_eq_nil_of_le (by omega)]
            exact List.forall_mem_nil _
        · intro r' hr'
          obtain rfl := Option.mem_some.mp hr'
          exact hfull
      · rintro ⟨hzero, hfull, -⟩
        refine ⟨?_, hfull r rfl⟩
        intro r' hr'
        exact Round.kept_eq_iff.mpr (hzero r' (List.mem_append_left _ hr'))
    · have hlt := length_stored_lt h r
      refine iff_of_false ?_ ?_
      · intro heq
        rw [heq] at hlt
        exact lt_irrefl _ hlt
      · rintro ⟨-, -, hsmall⟩
        omega

/-! ## The answer -/

/-- A run of the second loop, with what it stores. -/
theorem stores_iff_stored (stSize fileOffset : ℤ) (batchCount : ℕ) (buffer : List UInt8)
    (a : Answer) : Stores stSize (receivingAt fileOffset batchCount 0) buffer a ↔
      ((∀ r ∈ a.rounds, 0 ≤ r.written) ∧ 0 ≤ a.last → (stored a.rounds).2 = received a.rounds) := by
  have htrace : (client stSize).trace (some (receivingAt fileOffset batchCount 0)) a.turns =
      reportsFrom 0 a.rounds ++ a.lastReports := trace_receiving stSize a a.rounds
  obtain ⟨buffer', hstore⟩ := store_reportsFrom 0 a.rounds buffer []
  unfold Stores
  dsimp only
  rw [htrace, noError_append, noError_reportsFrom, noError_lastReports, List.foldl_append, hstore,
    store_lastReports]
  rfl

/-- Unless an error is logged, the file is the answer exactly if the last write is in full and the
others leave out zeros only. -/
theorem stores_iff (stSize fileOffset : ℤ) (batchCount : ℕ) (buffer : List UInt8) (a : Answer) :
    Stores stSize (receivingAt fileOffset batchCount 0) buffer a ↔
      a.last < 0 ∨ (∃ r ∈ a.rounds, r.written < 0) ∨ InFull a.rounds := by
  rw [stores_iff_stored, stored_eq_received_iff]
  constructor
  · intro h
    by_contra! hnot
    obtain ⟨hlast, hwritten, hfull⟩ := hnot
    exact hfull (h ⟨hwritten, hlast⟩)
  · rintro (hlast | ⟨r, hr, hwritten⟩ | hfull) ⟨hrounds, hlast'⟩
    · exact absurd hlast hlast'.not_gt
    · exact absurd hwritten (hrounds r hr).not_gt
    · exact hfull

/-- A chunk of two bytes of which the write stores one. -/
def shortWrite : Answer where
  rounds := [⟨[1, 2], 1, by decide, by decide, by decide⟩]
  last := 0
  last_le := le_rfl

theorem not_stores_short :
    ¬ Stores 0 (receivingAt 0 0 0) (List.replicate bufSize 0) shortWrite := by
  have hquiet : (∀ r ∈ shortWrite.rounds, 0 ≤ r.written) ∧ 0 ≤ shortWrite.last := by decide
  have hshort : (stored shortWrite.rounds).2 ≠ received shortWrite.rounds := by decide
  rw [stores_iff_stored]
  exact fun h => hshort (h hquiet)

end ClickhouseUring.UringClient
