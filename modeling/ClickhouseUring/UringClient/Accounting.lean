import ClickhouseUring.Kit.Chunks
import ClickhouseUring.UringClient.Client

/-!
# Ring accounting of the client

In the send phase nothing is in flight between two turns, and `batch_count` is the length of the
queue; in the receive phase the ring is empty between two turns.  So every peek finds a completion,
and every wait the completion of the operation just submitted (`client_accounts`).

`batch_count` is not reset after the last flush of the send phase, where nothing reads it any more.
-/

namespace ClickhouseUring.UringClient

open Uring

/-- What the reports say when the ring is in order: at most 256 entries are queued, a flush waits
for what it submits, every peek finds a completion, and every wait returns the completion of the
only operation outstanding. -/
def Report.Sound : Report → Prop
  | .prep _ fill => fill ≤ batchSize
  | .noSqe => False
  | .flush batchCount queued => batchCount = queued.length
  | .peek cqe => cqe.isSome
  | .wait op outstanding cqe => outstanding = [op] ∧ cqe.op = op
  | .logError _ => True

/-- The reads and sends prepared. -/
def chunks (tr : List Report) : List Op :=
  tr.filterMap fun
    | .prep (.read n offset) _ => some (.read n offset)
    | .prep (.send n) _ => some (.send n)
    | _ => none

/-- The entries submitted by each flush. -/
def flushes (tr : List Report) : List (List Op) :=
  tr.filterMap fun
    | .flush _ queued => some queued
    | _ => none

/-- The operations read the file from `a` to `b` without gap or overlap, in chunks of 1 to 4096
bytes, and send each chunk after it is read. -/
inductive Tiles (a : ℤ) : ℤ → List Op → Prop
  | nil : Tiles a a []
  | snoc {b n ops} (h : Tiles a b ops) (hpos : 1 ≤ n) (hle : n ≤ bufSize) :
      Tiles a (b + n) (ops ++ [.read n b, .send n])

/-- The iterations of the first loop: the size of the file in chunks, rounded up. -/
def iterations (stSize : ℤ) : ℕ := ((stSize + (bufSize - 1)) / bufSize).toNat

/-- The ring between two turns of the send phase. -/
def Client.Queueing (c : Client) : Prop :=
  ∃ q, c.ring = ⟨q, [], []⟩ ∧ c.batchCount = q.length ∧ 2 ∣ q.length ∧ q.length < batchSize

/-- The ring, the requests and the phase after so many turns. -/
structure Accounts (stSize : ℤ) (turns : ℕ) (tr : List Report) (c : Client) : Prop where
  sound : ∀ r ∈ tr, r.Sound
  sending : turns ≤ iterations stSize → c.phase = .sending ∧ c.Queueing ∧
    c.fileOffset = min (turns * bufSize : ℤ) stSize ∧ Tiles 0 c.fileOffset (chunks tr)
  sent : iterations stSize < turns → c.phase ≠ .sending ∧ Tiles 0 stSize (chunks tr)
  drained : turns = iterations stSize + 1 → c.ring = .empty
  receiving : c.phase = .receiving → c.ring = .empty

/-! ## One flush, one wait -/

/-- The reports of a loop over completions that are there. -/
def Report.Quiet : Report → Prop
  | .peek cqe => cqe.isSome
  | .logError _ => True
  | _ => False

theorem Report.Quiet.sound {r : Report} (h : r.Quiet) : r.Sound := by
  cases r with
  | peek cqe => exact h
  | logError message => trivial
  | prep op fill => exact h.elim
  | noSqe => exact h
  | flush batchCount queued => exact h.elim
  | wait op outstanding cqe => exact h.elim

theorem quiet_peekReports (peekError resError : String) (cqe : Cqe Op) :
    ∀ r ∈ peekReports peekError resError (some cqe), r.Quiet := by
  intro r hr
  rcases List.mem_cons.mp hr with rfl | hr
  · rfl
  · split_ifs at hr
    · rw [List.mem_singleton.mp hr]
      trivial
    · exact absurd hr List.not_mem_nil

theorem chunks_append (tr tr' : List Report) : chunks (tr ++ tr') = chunks tr ++ chunks tr' :=
  List.filterMap_append

theorem chunks_quiet {tr : List Report} (h : ∀ r ∈ tr, r.Quiet) : chunks tr = [] := by
  unfold chunks
  rw [List.filterMap_eq_nil_iff]
  intro r hr
  cases r with
  | prep op fill => exact (h _ hr).elim
  | _ => rfl

theorem flushes_append (tr tr' : List Report) : flushes (tr ++ tr') = flushes tr ++ flushes tr' :=
  List.filterMap_append

theorem flushes_quiet {tr : List Report} (h : ∀ r ∈ tr, r.Quiet) : flushes tr = [] := by
  unfold flushes
  rw [List.filterMap_eq_nil_iff]
  intro r hr
  cases r with
  | flush batchCount queued => exact (h _ hr).elim
  | _ => rfl

/-- A flush of everything queued leaves the ring empty. -/
theorem flushBatch_eq {c : Client} {q : List Op} (hring : c.ring = ⟨q, [], []⟩)
    (hcount : c.batchCount = q.length) (k : Service Op) (peekError resError : String) :
    ∃ reports, flushBatch c k peekError resError = some ({ c with ring := .empty }, reports) ∧
      (∀ r ∈ reports, r.Sound) ∧ chunks reports = [] ∧ flushes reports = [q] := by
  obtain ⟨cs, hwait, -, hreap⟩ := k.flush_eq q
  have hnone : none ∉ cs.map some := by simp
  have hquiet : ∀ r ∈ cs.flatMap fun cqe => peekReports peekError resError (some cqe),
      r.Quiet := by
    intro r hr
    obtain ⟨cqe, -, hr⟩ := List.mem_flatMap.mp hr
    exact quiet_peekReports peekError resError cqe r hr
  refine ⟨.flush q.length q :: cs.flatMap fun cqe => peekReports peekError resError (some cqe),
    ?_, ?_, ?_, ?_⟩
  · unfold flushBatch
    rw [hring, hcount, hwait, Option.bind_eq_bind, Option.bind_some, hreap]
    dsimp only
    rw [if_neg hnone, List.flatMap_map]
    rfl
  · intro r hr
    rcases List.mem_cons.mp hr with rfl | hr
    · rfl
    · exact (hquiet r hr).sound
  · exact (chunks_append [_] _).trans (chunks_quiet hquiet)
  · exact (flushes_append [_] _).trans (congrArg ([q] ++ ·) (flushes_quiet hquiet))

/-- A wait for the only operation running returns its completion. -/
theorem wait_one (k : Service Op) (op : Op) :
    ∃ res, k.wait 1 ⟨[], [op], []⟩ = some ⟨[], [], [⟨op, res⟩]⟩ := by
  obtain ⟨cs, hwait, hperm⟩ := k.wait_all [] [op]
  rw [List.perm_singleton] at hperm
  match cs, hperm with
  | [⟨op', res⟩], hperm =>
    obtain rfl : op' = op := List.singleton_inj.mp hperm
    exact ⟨res, hwait⟩

/-! ## The send phase -/

/-- The length of the chunk at an offset. -/
def chunkAt (stSize offset : ℤ) : ℕ :=
  if offset + bufSize > stSize then (stSize - offset).toNat else bufSize

theorem chunkAt_bounds {stSize offset : ℤ} (hlt : offset < stSize) :
    1 ≤ chunkAt stSize offset ∧ chunkAt stSize offset ≤ bufSize ∧
      offset + chunkAt stSize offset = min (offset + bufSize) stSize :=
  Chunks.lengthAt_bounds (show 0 < bufSize by decide) hlt

/-- The read and the send of the chunk at an offset. -/
def chunkOps (stSize offset : ℤ) : List Op :=
  [.read (chunkAt stSize offset) offset, .send (chunkAt stSize offset)]

/-- The client with its next chunk queued. -/
def Client.queueChunk (stSize : ℤ) (c : Client) : Client :=
  { c with
    ring := { c.ring with queued := c.ring.queued ++ chunkOps stSize c.fileOffset },
    batchCount := c.batchCount + 2, fileOffset := c.fileOffset + chunkAt stSize c.fileOffset }

/-- The reports of the two entries of a chunk. -/
def prepReports (stSize : ℤ) (c : Client) : List Report :=
  [.prep (.read (chunkAt stSize c.fileOffset) c.fileOffset) (c.ring.queued.length + 1),
    .prep (.send (chunkAt stSize c.fileOffset)) (c.ring.queued.length + 2)]

/-- An iteration of the first loop has room for a chunk. -/
theorem sendChunk_queue {stSize : ℤ} {c : Client} (hlen : c.ring.queued.length + 2 ≤ batchSize)
    (h0 : 0 ≤ c.fileOffset) (hlt : c.fileOffset < stSize)
    (hfit : c.fileOffset + bufSize < 2 ^ 63) (k : Service Op) :
    sendChunk stSize c k =
      if c.batchCount + 2 ≥ batchSize then
        (flushBatch (c.queueChunk stSize) k "Error peeking for cqe during send operation"
          "Send error").map fun p => ({ p.1 with batchCount := 0 }, prepReports stSize c ++ p.2)
      else some (c.queueChunk stSize, prepReports stSize c) := by
  have hbuf : bufSize = 4096 := rfl
  have hdepth : queueDepth = 512 := rfl
  have hbatch : batchSize = 256 := rfl
  have hbound : CInt.add 64 c.fileOffset bufSize = some (c.fileOffset + bufSize) :=
    CInt.add_eq_some (CInt.fits_of_nonneg (by omega) hfit)
  have hchunk : (if c.fileOffset + bufSize > stSize then (stSize - c.fileOffset).toNat
      else bufSize) = chunkAt stSize c.fileOffset := rfl
  obtain ⟨-, hn, -⟩ := chunkAt_bounds hlt
  unfold Client.queueChunk prepReports chunkOps
  generalize chunkAt stSize c.fileOffset = n at hchunk hn ⊢
  have hwrap : CInt.wrap 64 (c.fileOffset + n) = c.fileOffset + n :=
    CInt.wrap_eq_self (CInt.fits_of_nonneg (by omega) (show _ < (2 : ℤ) ^ 63 by omega))
  obtain ⟨phase, fileOffset, batchCount, recvFileOffset, ⟨q, running, posted⟩⟩ := c
  dsimp only at *
  have hread : (Queues.mk q running posted).getSqe queueDepth (.read n fileOffset) =
      some ⟨q ++ [.read n fileOffset], running, posted⟩ :=
    Queues.getSqe_eq (show q.length < queueDepth by omega) _
  have hlen₁ : (q ++ [Op.read n fileOffset]).length = q.length + 1 := List.length_append
  have hpair : q ++ [Op.read n fileOffset] ++ [Op.send n] =
      q ++ [.read n fileOffset, .send n] := List.append_assoc q _ _
  have hlen₂ : (q ++ [Op.read n fileOffset, .send n]).length = q.length + 2 :=
    List.length_append
  have hsend : (Queues.mk (q ++ [Op.read n fileOffset]) running posted).getSqe queueDepth
      (.send n) = some ⟨q ++ [.read n fileOffset, .send n], running, posted⟩ := by
    rw [← hpair]
    exact Queues.getSqe_eq (show (q ++ [Op.read n fileOffset]).length < queueDepth by omega) _
  unfold sendChunk
  simp only [Option.bind_eq_bind, Option.bind_some, hbound, hchunk, hread, hsend, hwrap,
    hlen₁, hlen₂, Option.pure_def]
  by_cases hfull : batchCount + 2 ≥ batchSize
  · rw [if_pos hfull, if_pos hfull, Option.map_eq_bind]
    rfl
  · rw [if_neg hfull, if_neg hfull]

theorem sound_prepReports (stSize : ℤ) {c : Client}
    (hlen : c.ring.queued.length + 2 ≤ batchSize) : ∀ r ∈ prepReports stSize c, r.Sound := by
  intro r hr
  rcases List.mem_cons.mp hr with rfl | hr
  · show c.ring.queued.length + 1 ≤ batchSize
    omega
  · obtain rfl := List.mem_singleton.mp hr
    exact hlen

/-- An iteration of the first loop queues a chunk, and flushes the queue if it is full. -/
theorem sendChunk_eq {stSize : ℤ} {c : Client} {q : List Op} (hring : c.ring = ⟨q, [], []⟩)
    (hcount : c.batchCount = q.length) (hlen : q.length < batchSize) (heven : 2 ∣ q.length)
    (h0 : 0 ≤ c.fileOffset) (hlt : c.fileOffset < stSize)
    (hfit : c.fileOffset + bufSize < 2 ^ 63) (k : Service Op) :
    ∃ c' reports, sendChunk stSize c k = some (c', reports) ∧ c'.phase = c.phase ∧
      c'.fileOffset = c.fileOffset + chunkAt stSize c.fileOffset ∧
      c'.ring = ⟨if q.length + 2 < batchSize then q ++ chunkOps stSize c.fileOffset else [],
        [], []⟩ ∧
      c'.batchCount = c'.ring.queued.length ∧ (∀ r ∈ reports, r.Sound) ∧
      chunks reports = chunkOps stSize c.fileOffset ∧
      flushes reports =
        if q.length + 2 < batchSize then [] else [q ++ chunkOps stSize c.fileOffset] := by
  have hroom : c.ring.queued.length + 2 ≤ batchSize := by
    have hbatch : batchSize = 256 := rfl
    rw [hring]
    dsimp only
    omega
  have hring' : (c.queueChunk stSize).ring = ⟨q ++ chunkOps stSize c.fileOffset, [], []⟩ := by
    unfold Client.queueChunk
    rw [hring]
  have hcount' : (c.queueChunk stSize).batchCount =
      (q ++ chunkOps stSize c.fileOffset).length := by
    rw [List.length_append, ← hcount]
    rfl
  have hsound := sound_prepReports stSize hroom
  rw [sendChunk_queue hroom h0 hlt hfit, hcount]
  by_cases hfull : q.length + 2 ≥ batchSize
  · obtain ⟨reports, hflush, hr, hchunks, hflushes⟩ := flushBatch_eq hring' hcount' k
      "Error peeking for cqe during send operation" "Send error"
    have hnot := not_lt.mpr hfull
    rw [if_pos hfull, hflush, if_neg hnot, if_neg hnot]
    refine ⟨_, _, rfl, rfl, rfl, rfl, rfl, ?_, ?_, ?_⟩
    · exact fun r hmem => (List.mem_append.mp hmem).elim (hsound r) (hr r)
    · rw [chunks_append, hchunks]
      rfl
    · rw [flushes_append, hflushes]
      rfl
  · rw [if_neg hfull, if_pos (not_le.mp hfull), if_pos (not_le.mp hfull)]
    refine ⟨_, _, rfl, rfl, rfl, hring', ?_, hsound, rfl, rfl⟩
    rw [hcount', hring']

/-- The flush after the loop, or its absence, leaves the ring empty. -/
theorem flushRest_eq {c : Client} {q : List Op} (hring : c.ring = ⟨q, [], []⟩)
    (hcount : c.batchCount = q.length) (k : Service Op) :
    ∃ reports, flushRest c k = some ({ c with ring := .empty }, reports) ∧
      (∀ r ∈ reports, r.Sound) ∧ chunks reports = [] ∧
      flushes reports = if q = [] then [] else [q] := by
  unfold flushRest
  by_cases hnil : q = []
  · have hempty : c = { c with ring := .empty } := by
      rw [← show c.ring = .empty by rw [hring, hnil]; rfl]
    have hzero : ¬ c.batchCount > 0 := by
      rw [hcount, hnil]
      exact lt_irrefl 0
    rw [if_neg hzero, if_pos hnil]
    refine ⟨[], congrArg (fun c => some (c, [])) hempty, ?_, rfl, rfl⟩
    exact List.forall_mem_nil _
  · have hpos : c.batchCount > 0 := by
      rw [hcount]
      exact List.length_pos_iff.mpr hnil
    rw [if_pos hpos, if_neg hnil]
    exact flushBatch_eq hring hcount k
      "Error peeking for cqe for remaining write operations" "Write error"

/-- The last turn of the send phase. -/
theorem finishSending_eq {c : Client} {q : List Op} (hphase : c.phase = .sending)
    (hring : c.ring = ⟨q, [], []⟩) (hcount : c.batchCount = q.length) (t : Turn) :
    ∃ c' reports, finishSending c t = some (c', reports) ∧ c'.phase ≠ .sending ∧
      c'.ring = .empty ∧ (∀ r ∈ reports, r.Sound) ∧ chunks reports = [] ∧
      flushes reports = if q = [] then [] else [q] := by
  obtain ⟨reports, hflush, hsound, hchunks, hflushes⟩ := flushRest_eq hring hcount t.flush
  unfold finishSending
  rw [hflush, Option.bind_eq_bind, Option.bind_some]
  dsimp only
  rw [if_neg (by rw [hphase]; exact Phase.noConfusion)]
  by_cases hopen : t.opened
  · rw [if_pos hopen]
    exact ⟨_, _, rfl, Phase.noConfusion, rfl, hsound, hchunks, hflushes⟩
  · rw [if_neg hopen]
    refine ⟨_, _, rfl, Phase.noConfusion, rfl, ?_, ?_, ?_⟩
    · intro r hr
      rcases List.mem_append.mp hr with hr | hr
      · exact hsound r hr
      · rw [List.mem_singleton.mp hr]
        trivial
    · rw [chunks_append, hchunks]
      rfl
    · rw [flushes_append, hflushes]
      exact List.append_nil _

/-! ## The receive phase -/

/-- The ring after an iteration of the second loop, or after a part of it. -/
def Client.Drained (c : Client) : Prop :=
  c.phase ≠ .sending ∧ (c.phase = .receiving → c.ring = .empty)

theorem writeReceived_eq {c : Client} (hphase : c.phase = .receiving) (hring : c.ring = .empty)
    (k : Option (Service Op)) (n : ℕ) :
    ∃ c' reports, writeReceived c k n = some (c', reports) ∧ c'.Drained ∧
      (∀ r ∈ reports, r.Sound) ∧ chunks reports = [] ∧ flushes reports = [] := by
  have hsqe : c.ring.getSqe queueDepth (.write n c.recvFileOffset) =
      some ⟨[.write n c.recvFileOffset], [], []⟩ := by
    rw [hring]
    rfl
  unfold writeReceived
  dsimp only
  rw [hsqe]
  dsimp only
  cases k with
  | none =>
    refine ⟨_, _, rfl, ⟨Phase.noConfusion, Phase.noConfusion⟩, ?_, rfl, rfl⟩
    simp [Report.Sound, batchSize, Client.fail]
  | some k =>
    obtain ⟨res, hwait⟩ := wait_one k (.write n c.recvFileOffset)
    have hsubmit : (Queues.mk [Op.write n c.recvFileOffset] [] []).submit =
        ⟨[], [.write n c.recvFileOffset], []⟩ := rfl
    dsimp only
    rw [hsubmit, hwait, Option.bind_eq_bind, Option.bind_some]
    refine ⟨_, _, rfl, ⟨?_, fun _ => rfl⟩, ?_, ?_, ?_⟩
    · exact fun h => Phase.noConfusion (hphase.symm.trans h)
    · split_ifs <;> simp [Report.Sound, batchSize, Queues.outstanding]
    · split_ifs <;> rfl
    · split_ifs <;> rfl

theorem receive_eq {c : Client} (hphase : c.phase = .receiving) (hring : c.ring = .empty)
    (t : Turn) :
    ∃ c' reports, receive c t = some (c', reports) ∧ c'.Drained ∧
      (∀ r ∈ reports, r.Sound) ∧ chunks reports = [] ∧ flushes reports = [] := by
  have hsqe : c.ring.getSqe queueDepth (.recv bufSize) = some ⟨[.recv bufSize], [], []⟩ := by
    rw [hring]
    rfl
  unfold receive
  rw [hsqe]
  dsimp only
  cases t.recv with
  | none =>
    refine ⟨_, _, rfl, ⟨Phase.noConfusion, Phase.noConfusion⟩, ?_, rfl, rfl⟩
    simp [Report.Sound, batchSize, Client.fail]
  | some k =>
    obtain ⟨res, hwait⟩ := wait_one k (.recv bufSize)
    have hsubmit : (Queues.mk [Op.recv bufSize] [] []).submit = ⟨[], [.recv bufSize], []⟩ := rfl
    dsimp only
    rw [hsubmit, hwait, Option.bind_eq_bind, Option.bind_some]
    dsimp only [Queues.next]
    rw [Option.bind_eq_bind, Option.bind_some]
    dsimp only
    by_cases hres : res ≤ 0
    · rw [if_pos hres]
      refine ⟨_, _, rfl, ⟨Phase.noConfusion, fun _ => rfl⟩, ?_, ?_, ?_⟩
      · split_ifs <;> simp [Report.Sound, batchSize, Queues.outstanding]
      · split_ifs <;> rfl
      · split_ifs <;> rfl
    · obtain ⟨c', reports, hwrite, hdrained, hsound, hchunks, hflushes⟩ :=
        writeReceived_eq (c := { c with ring := ⟨[], [], []⟩ }) hphase rfl t.write res.toNat
      rw [if_neg hres, hwrite]
      refine ⟨_, _, rfl, hdrained, ?_, hchunks, hflushes⟩
      simpa [Report.Sound, batchSize, Queues.outstanding] using hsound

/-- A turn after the send phase. -/
theorem Client.Drained.turn {c : Client} (h : c.Drained) (stSize : ℤ) (t : Turn) :
    ∃ c' reports, UringClient.turn stSize c t = some (c', reports) ∧ c'.Drained ∧
      (∀ r ∈ reports, r.Sound) ∧ chunks reports = [] ∧ flushes reports = [] := by
  have hnil : ∀ r ∈ ([] : List Report), r.Sound := List.forall_mem_nil _
  unfold UringClient.turn
  cases hphase : c.phase with
  | sending => exact absurd hphase h.1
  | receiving => exact receive_eq hphase (h.2 hphase) t
  | finished => exact ⟨c, [], rfl, h, hnil, rfl, rfl⟩
  | failed => exact ⟨c, [], rfl, h, hnil, rfl, rfl⟩

/-! ## Whole runs -/

theorem lt_iterations {stSize : ℤ} {i : ℕ} :
    i < iterations stSize ↔ (i * bufSize : ℤ) < stSize :=
  Chunks.lt_count (show 0 < bufSize by decide)

theorem accounts_started {stSize : ℤ} (h0 : 0 ≤ stSize) : Accounts stSize 0 [] started where
  sound := List.forall_mem_nil _
  sending := fun _ => ⟨rfl, ⟨[], rfl, rfl, Nat.dvd_zero 2, by decide⟩, by
    rw [Nat.cast_zero, zero_mul, min_eq_left h0]
    rfl, .nil⟩
  sent := fun h => absurd h (Nat.not_lt_zero _)
  drained := fun h => absurd h (Nat.succ_ne_zero _).symm
  receiving := fun h => Phase.noConfusion h

theorem turn_of_lt {stSize : ℤ} {c : Client} (hphase : c.phase = .sending)
    (hlt : c.fileOffset < stSize) (t : Turn) : turn stSize c t = sendChunk stSize c t.flush := by
  unfold turn
  rw [hphase]
  exact if_neg (not_le.mpr hlt)

theorem turn_of_end {stSize : ℤ} {c : Client} (hphase : c.phase = .sending)
    (hend : stSize ≤ c.fileOffset) (t : Turn) : turn stSize c t = finishSending c t := by
  unfold turn
  rw [hphase]
  exact if_pos hend

theorem client_step {stSize : ℤ} {c c' : Client} {t : Turn} {reports : List Report}
    (h : turn stSize c t = some (c', reports)) :
    (client stSize).step (some c) t = some c' ∧ (client stSize).out (some c) t = reports := by
  have hclient : client stSize = .ofPartial (turn stSize) := rfl
  rw [hclient]
  exact Machine.ofPartial_of_some h

namespace Accounts

variable {stSize : ℤ} {i : ℕ} {tr : List Report} {c : Client}

theorem sound_append (h : Accounts stSize i tr c) {reports : List Report}
    (hr : ∀ r ∈ reports, r.Sound) : ∀ r ∈ tr ++ reports, r.Sound := fun r hmem =>
  (List.mem_append.mp hmem).elim (h.sound r) (hr r)

/-- An iteration of the first loop keeps the accounts. -/
theorem turn_sending (h : Accounts stSize i tr c) (hfit : stSize + bufSize < 2 ^ 63)
    (hi : i < iterations stSize) (t : Turn) :
    ∃ c' reports, UringClient.turn stSize c t = some (c', reports) ∧
      Accounts stSize (i + 1) (tr ++ reports) c' := by
  obtain ⟨hphase, ⟨q, hring, hcount, heven, hlen⟩, hoffset, htiles⟩ := h.sending hi.le
  have hlt := lt_iterations.mp hi
  rw [min_eq_left hlt.le] at hoffset
  have hstart : 0 ≤ c.fileOffset := by
    rw [hoffset]
    exact mul_nonneg (Int.natCast_nonneg i) (Int.natCast_nonneg bufSize)
  rw [← hoffset] at hlt
  obtain ⟨c', reports, hsend, hphase', hoffset', hring', hcount', hr, hchunks, -⟩ :=
    sendChunk_eq hring hcount hlen heven hstart hlt (by omega) t.flush
  obtain ⟨hpos, hle, hsum⟩ := chunkAt_bounds hlt
  have hq' : c'.Queueing := by
    refine ⟨c'.ring.queued, ?_, hcount', ?_⟩
    · rw [hring']
    · rw [hring']
      dsimp only
      split_ifs with hroom
      · rw [List.length_append]
        exact ⟨Nat.dvd_add heven (Nat.dvd_refl 2), hroom⟩
      · exact ⟨Nat.dvd_zero 2, by decide⟩
  refine ⟨c', reports, ?_, h.sound_append hr, fun _ => ⟨hphase'.trans hphase, hq', ?_, ?_⟩,
    fun hlt' => absurd hlt' (by omega), fun heq => absurd heq (by omega),
    fun hrecv => Phase.noConfusion ((hphase'.trans hphase).symm.trans hrecv)⟩
  · rw [turn_of_lt hphase hlt, hsend]
  · rw [hoffset', hsum, hoffset, Nat.cast_succ, add_mul, one_mul]
  · rw [hoffset', chunks_append, hchunks]
    exact .snoc htiles hpos hle

/-- So does the turn that finds the end of the file. -/
theorem turn_end (h : Accounts stSize i tr c) (hi : i = iterations stSize) (t : Turn) :
    ∃ c' reports, UringClient.turn stSize c t = some (c', reports) ∧
      Accounts stSize (i + 1) (tr ++ reports) c' := by
  obtain ⟨hphase, ⟨q, hring, hcount, -, -⟩, hoffset, htiles⟩ := h.sending hi.le
  have hend : c.fileOffset = stSize := by
    rw [hoffset, min_eq_right]
    exact not_lt.mp fun hlt => absurd (lt_iterations.mpr hlt) (by omega)
  rw [hend] at htiles
  obtain ⟨c', reports, hfinish, hphase', hring', hr, hchunks, -⟩ :=
    finishSending_eq hphase hring hcount t
  refine ⟨c', reports, ?_, h.sound_append hr, fun hle => absurd hle (by omega),
    fun _ => ⟨hphase', ?_⟩, fun _ => hring', fun _ => hring'⟩
  · rw [turn_of_end hphase hend.ge, hfinish]
  · rw [chunks_append, hchunks, List.append_nil]
    exact htiles

/-- And an iteration of the second loop, if `main` is still there. -/
theorem turn_receiving (h : Accounts stSize i tr c) (hi : iterations stSize < i) (t : Turn) :
    ∃ c' reports, UringClient.turn stSize c t = some (c', reports) ∧
      Accounts stSize (i + 1) (tr ++ reports) c' := by
  obtain ⟨hphase, htiles⟩ := h.sent hi
  have hdrained : c.Drained := ⟨hphase, h.receiving⟩
  obtain ⟨c', reports, hturn, ⟨hphase', hring⟩, hr, hchunks, -⟩ := hdrained.turn stSize t
  refine ⟨c', reports, hturn, h.sound_append hr, fun hle => absurd hle (by omega),
    fun _ => ⟨hphase', ?_⟩, fun heq => absurd heq (by omega), hring⟩
  rw [chunks_append, hchunks, List.append_nil]
  exact htiles

theorem turn (h : Accounts stSize i tr c) (hfit : stSize + bufSize < 2 ^ 63) (t : Turn) :
    ∃ c' reports, UringClient.turn stSize c t = some (c', reports) ∧
      Accounts stSize (i + 1) (tr ++ reports) c' := by
  rcases Nat.lt_trichotomy i (iterations stSize) with hi | hi | hi
  · exact h.turn_sending hfit hi t
  · exact h.turn_end hi t
  · exact h.turn_receiving hi t

end Accounts

/-- Through every run the ring is in order, the requests tile the file, and the first loop ends
after `iterations` turns. -/
theorem client_accounts {stSize : ℤ} (h0 : 0 ≤ stSize) (hfit : stSize + bufSize < 2 ^ 63)
    (ts : List Turn) :
    ∃ c, (client stSize).after (some started) ts = some c ∧
      Accounts stSize ts.length ((client stSize).trace (some started) ts) c := by
  have hturn (n : ℕ) (tr : List Report) (c : Client) (t : Turn) (h : Accounts stSize n tr c)
      (_ : True) : ∃ c' reports, UringClient.turn stSize c t = some (c', reports) ∧
        Accounts stSize (n + 1) (tr ++ reports) c' := h.turn hfit t
  have hclient : client stSize = .ofPartial (turn stSize) := rfl
  rw [hclient]
  exact Machine.ofPartial_run hturn (accounts_started h0) fun _ _ => trivial

/-- A turn in which everything completes at once and in order. -/
def promptTurn (recv : ℤ) : Turn where
  flush := .prompt fun _ => 0
  opened := true
  recv := some (.prompt fun _ => recv)
  write := some (.prompt fun _ => recv)

/-- Three chunks, the last one short, and an answer of five bytes. -/
theorem client_accounts_three :
    ∃ c, (client 8195).after (some started) ([5, 5, 5, 5, 5, 0].map promptTurn) = some c ∧
      Accounts 8195 6
        ((client 8195).trace (some started) ([5, 5, 5, 5, 5, 0].map promptTurn)) c :=
  client_accounts (by decide) (by decide) ([5, 5, 5, 5, 5, 0].map promptTurn)

/-- After the last flush of the send phase `batch_count` is still the length of what was
flushed. -/
theorem batch_count_stale :
    ∃ c, (client 1).after (some started) ([0, 0].map promptTurn) = some c ∧
      c.batchCount = 2 ∧ c.ring.queued = [] := ⟨_, rfl, rfl, rfl⟩

end ClickhouseUring.UringClient
