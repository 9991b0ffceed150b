import ClickhouseUring.Kit.Chunks
import ClickhouseUring.VanillaRead.Benchmark

/-!
# The benchmark covers the file

Between two turns nothing is in flight and `batch_count` is the length of the queue, which has 256
entries at most.  After `i` turns the reads cover the first `i` chunks of the file and `total_reads`
is `i`; the turn after the last chunk empties the ring and prints the number of chunks
(`benchmark_covers`).
-/

namespace ClickhouseUring.VanillaRead

open Uring

/-- What the reports say when the ring is in order: at most 256 entries are queued, a flush waits
for what it submits and sees its completions, all of them and no others, and no error ends the
process. -/
def Report.Sound : Report → Prop
  | .prep _ fill => fill ≤ batchSize
  | .flush batchCount queued seen => batchCount = queued.length ∧ (seen.map Cqe.op).Perm queued
  | .handleError _ => False
  | .print _ => True

/-- The reads prepared, as lengths and offsets. -/
def reads (tr : List Report) : List (ℕ × ℤ) :=
  tr.filterMap fun
    | .prep op _ => some (op.nbytes, op.offset)
    | _ => none

/-- The numbers printed. -/
def printed (tr : List Report) : List ℤ :=
  tr.filterMap fun
    | .print totalReads => some totalReads
    | _ => none

/-- No wait fails, and every completion has a result that is not negative. -/
structure Turn.Succeeds (t : Turn) : Prop where
  wait : ∀ i, (t.wait i).isSome
  res : ∀ r n, ∀ cqe ∈ t.submit.posts r n, 0 ≤ cqe.res

/-- The number of reads that the file needs. -/
def chunkCount (stSize : ℤ) : ℕ := Chunks.count bufferSize stSize

/-- The ring between two turns of the loop. -/
def Bench.Queueing (b : Bench) : Prop :=
  ∃ q, b.ring = ⟨q, [], []⟩ ∧ b.batchCount = q.length ∧ q.length ≤ batchSize

/-- The ring, the reads and the counter after so many turns. -/
structure Accounts (stSize : ℤ) (turns : ℕ) (tr : List Report) (b : Bench) : Prop where
  sound : ∀ r ∈ tr, r.Sound
  reading : turns ≤ chunkCount stSize → b.phase = .reading ∧ b.Queueing ∧
    b.fileOffset = min (turns * bufferSize : ℤ) stSize ∧ b.totalReads = turns ∧
    Chunks.Tiles bufferSize 0 b.fileOffset (reads tr) ∧ printed tr = []
  finished : chunkCount stSize < turns → b.phase = .finished ∧ b.ring = .empty ∧
    Chunks.Tiles bufferSize 0 stSize (reads tr) ∧ printed tr = [(chunkCount stSize : ℤ)]

theorem reads_append (tr tr' : List Report) : reads (tr ++ tr') = reads tr ++ reads tr' :=
  List.filterMap_append

theorem printed_append (tr tr' : List Report) : printed (tr ++ tr') = printed tr ++ printed tr' :=
  List.filterMap_append

/-! ## A flush -/

/-- The loop over completions that are there. -/
theorem reap_eq {wait : ℕ → Option (Service Read)} (hwait : ∀ i, (wait i).isSome) (i : ℕ)
    {cqes : List (Cqe Read)} (hres : ∀ cqe ∈ cqes, 0 ≤ cqe.res) :
    reap wait cqes.length i ⟨[], [], cqes⟩ = some (cqes, .empty, none) := by
  induction cqes generalizing i with
  | nil => rfl
  | cons cqe cqes ih =>
    obtain ⟨k, hk⟩ := Option.isSome_iff_exists.mp (hwait i)
    have hnonneg := not_lt.mpr (hres cqe List.mem_cons_self)
    rw [List.length_cons, reap, hk]
    dsimp only
    rw [Service.waitCqe_posted, Option.bind_eq_bind, Option.bind_some]
    dsimp only
    rw [if_neg hnonneg, ih (i + 1) fun c hc => hres c (List.mem_cons_of_mem _ hc)]
    rfl

/-- A flush of everything queued leaves the ring empty. -/
theorem flushBatch_eq {b : Bench} {q : List Read} (hring : b.ring = ⟨q, [], []⟩)
    (hcount : b.batchCount = q.length) {t : Turn} (ht : t.Succeeds) :
    ∃ seen, flushBatch b t = some ({ b with ring := .empty }, [.flush q.length q seen]) ∧
      (seen.map Cqe.op).Perm q := by
  obtain ⟨cqes, hwait, hperm⟩ := t.submit.wait_all [] q
  have hlen : cqes.length = q.length := by
    rw [← hperm.length_eq, List.length_map]
  have hposted := Service.posted_of_wait hwait
  have hres : ∀ cqe ∈ cqes, 0 ≤ cqe.res := by
    intro cqe hmem
    apply ht.res ⟨[], q, []⟩ q.length
    rw [← List.nil_append (t.submit.posts _ _), ← hposted]
    exact hmem
  have hsubmit : b.ring.submit = ⟨[], q, []⟩ := by
    rw [hring]
    rfl
  refine ⟨cqes, ?_, hperm⟩
  unfold flushBatch
  rw [hsubmit, hcount, hwait, Option.bind_eq_bind, Option.bind_some, ← hlen,
    reap_eq ht.wait 0 hres, hring]
  rfl

/-- After the flush at the top of the loop there is room in the batch. -/
theorem flushFull_eq {b : Bench} (hphase : b.phase = .reading) (hb : b.Queueing) {t : Turn}
    (ht : t.Succeeds) :
    ∃ q reports, flushFull b t =
        some ({ b with ring := ⟨q, [], []⟩, batchCount := q.length }, reports) ∧
      q.length < batchSize ∧ (∀ r ∈ reports, r.Sound) ∧ reads reports = [] ∧
      printed reports = [] := by
  obtain ⟨q, hring, hcount, hlen⟩ := hb
  unfold flushFull
  by_cases hfull : b.batchCount ≥ batchSize
  · obtain ⟨seen, hflush, hperm⟩ := flushBatch_eq hring hcount ht
    refine ⟨[], [.flush q.length q seen], ?_, by decide, ?_, rfl, rfl⟩
    · rw [if_pos hfull, hflush, Option.map_some]
      dsimp only
      rw [if_neg (by rw [hphase]; exact Phase.noConfusion)]
      rfl
    · exact List.forall_mem_singleton.mpr ⟨rfl, hperm⟩
  · refine ⟨q, [], ?_, by omega, List.forall_mem_nil _, rfl, rfl⟩
    rw [if_neg hfull, ← hring, ← hcount]

/-! ## A turn -/

/-- The read of the next chunk. -/
theorem queueRead_eq {stSize : ℤ} {b : Bench} {q : List Read} (hring : b.ring = ⟨q, [], []⟩)
    (hlen : q.length < batchSize) (h0 : 0 ≤ b.fileOffset) (hlt : b.fileOffset < stSize)
    (hfit : b.fileOffset + bufferSize < 2 ^ 63) (hreads : 0 ≤ b.totalReads)
    (hint : b.totalReads + 1 < 2 ^ 31) :
    let n := Chunks.lengthAt bufferSize stSize b.fileOffset
    queueRead stSize b = some ({ b with
        ring := ⟨q ++ [⟨n, b.fileOffset⟩], [], []⟩, fileOffset := b.fileOffset + n,
        batchCount := b.batchCount + 1, totalReads := b.totalReads + 1 },
      [.prep ⟨n, b.fileOffset⟩ (q.length + 1)]) := by
  intro n
  have hbuf : bufferSize = 4096 := rfl
  have hroom : b.ring.queued.length < queueDepth := by
    rw [hring]
    exact hlen.trans (by decide)
  have hbound : CInt.add 64 b.fileOffset bufferSize = some (b.fileOffset + bufferSize) :=
    CInt.add_eq_some (CInt.fits_of_nonneg (by omega) hfit)
  have htotal : CInt.add 32 b.totalReads 1 = some (b.totalReads + 1) :=
    CInt.add_eq_some (CInt.fits_of_nonneg (by omega) hint)
  have hchunk : (if b.fileOffset + bufferSize > stSize then (stSize - b.fileOffset).toNat
      else bufferSize) = n := rfl
  have hn : n ≤ bufferSize := (Chunks.lengthAt_bounds (by decide) hlt).2.1
  have hwrap : CInt.wrap 64 (b.fileOffset + n) = b.fileOffset + n :=
    CInt.wrap_eq_self (CInt.fits_of_nonneg (by omega) (show _ < (2 : ℤ) ^ 63 by omega))
  have hlength : (q ++ [(⟨n, b.fileOffset⟩ : Read)]).length = q.length + 1 := List.length_append
  unfold queueRead
  rw [if_pos hroom]
  simp only [Option.bind_eq_bind, Option.bind_some, hbound, htotal, hchunk, hwrap, hring,
    hlength, Option.pure_def]

/-- An iteration of the loop. -/
theorem readChunk_eq {stSize : ℤ} {b : Bench} (hphase : b.phase = .reading) (hb : b.Queueing)
    (h0 : 0 ≤ b.fileOffset) (hlt : b.fileOffset < stSize)
    (hfit : b.fileOffset + bufferSize < 2 ^ 63) (hreads : 0 ≤ b.totalReads)
    (hint : b.totalReads + 1 < 2 ^ 31) {t : Turn} (ht : t.Succeeds) :
    ∃ b' reports, readChunk stSize b t = some (b', reports) ∧ b'.phase = .reading ∧
      b'.Queueing ∧
      b'.fileOffset = b.fileOffset + Chunks.lengthAt bufferSize stSize b.fileOffset ∧
      b'.totalReads = b.totalReads + 1 ∧ (∀ r ∈ reports, r.Sound) ∧
      reads reports = [(Chunks.lengthAt bufferSize stSize b.fileOffset, b.fileOffset)] ∧
      printed reports = [] := by
  obtain ⟨q, reports, hflush, hlen, hr, hread, hprint⟩ := flushFull_eq hphase hb ht
  have hqueued := queueRead_eq (b := { b with ring := ⟨q, [], []⟩, batchCount := q.length })
    rfl hlen h0 hlt hfit hreads hint
  dsimp only at hqueued
  generalize Chunks.lengthAt bufferSize stSize b.fileOffset = n at hqueued ⊢
  refine ⟨{ b with
      ring := ⟨q ++ [⟨n, b.fileOffset⟩], [], []⟩, fileOffset := b.fileOffset + n,
      batchCount := q.length + 1, totalReads := b.totalReads + 1 },
    reports ++ [.prep ⟨n, b.fileOffset⟩ (q.length + 1)], ?_, hphase, ?_, rfl, rfl, ?_, ?_, ?_⟩
  · unfold readChunk
    rw [hflush, Option.bind_eq_bind, Option.bind_some]
    dsimp only
    rw [if_neg (by rw [hphase]; exact Phase.noConfusion), hqueued]
    rfl
  · have hlength : (q ++ [(⟨n, b.fileOffset⟩ : Read)]).length = q.length + 1 := List.length_append
    exact ⟨_, rfl, hlength.symm, by rw [hlength]; exact hlen⟩
  · exact List.forall_mem_append.mpr ⟨hr, List.forall_mem_singleton.mpr hlen⟩
  · rw [reads_append, hread]
    rfl
  · rw [printed_append, hprint]
    rfl

/-- The turn that finds the end of the file. -/
theorem finish_eq {b : Bench} (hphase : b.phase = .reading) (hb : b.Queueing) {t : Turn}
    (ht : t.Succeeds) :
    ∃ b' reports, finish b t = some (b', reports) ∧ b'.phase = .finished ∧ b'.ring = .empty ∧
      (∀ r ∈ reports, r.Sound) ∧ reads reports = [] ∧ printed reports = [b.totalReads] := by
  obtain ⟨q, hring, hcount, -⟩ := hb
  have hreading : b.phase ≠ .exited := by
    rw [hphase]
    exact Phase.noConfusion
  unfold finish flushRest
  by_cases hpos : b.batchCount > 0
  · obtain ⟨seen, hflush, hperm⟩ := flushBatch_eq hring hcount ht
    rw [if_pos hpos, hflush, Option.bind_eq_bind, Option.bind_some]
    dsimp only
    rw [if_neg hreading]
    refine ⟨_, _, rfl, rfl, rfl, List.forall_mem_append.mpr ⟨?_, ?_⟩, rfl, rfl⟩
    · exact List.forall_mem_singleton.mpr ⟨rfl, hperm⟩
    · exact List.forall_mem_singleton.mpr trivial
  · rw [if_neg hpos, Option.bind_eq_bind, Option.bind_some]
    dsimp only
    rw [if_neg hreading]
    refine ⟨_, _, rfl, rfl, ?_, ?_, rfl, rfl⟩
    · have hnil : q = [] := List.length_eq_zero_iff.mp (by omega)
      rw [hring, hnil]
      rfl
    · exact List.forall_mem_singleton.mpr trivial

/-! ## Whole runs -/

namespace Accounts

variable {stSize : ℤ} {i : ℕ} {tr : List Report} {b : Bench}

theorem sound_append (h : Accounts stSize i tr b) {reports : List Report}
    (hr : ∀ r ∈ reports, r.Sound) : ∀ r ∈ tr ++ reports, r.Sound :=
  List.forall_mem_append.mpr ⟨h.sound, hr⟩

/-- An iteration of the loop keeps the accounts. -/
theorem turn_reading (h : Accounts stSize i tr b) (hfit : stSize + bufferSize < 2 ^ 63)
    (hint : (chunkCount stSize : ℤ) < 2 ^ 31) (hi : i < chunkCount stSize) {t : Turn}
    (ht : t.Succeeds) :
    ∃ b' reports, VanillaRead.turn stSize b t = some (b', reports) ∧
      Accounts stSize (i + 1) (tr ++ reports) b' := by
  obtain ⟨hphase, hqueue, hoffset, htotal, htiles, hprinted⟩ := h.reading hi.le
  have hlt := (Chunks.lt_count (by decide)).mp hi
  rw [min_eq_left hlt.le] at hoffset
  have hstart : 0 ≤ b.fileOffset := by
    rw [hoffset]
    exact mul_nonneg (Int.natCast_nonneg i) (Int.natCast_nonneg bufferSize)
  rw [← hoffset] at hlt
  obtain ⟨b', reports, hread, hphase', hqueue', hoffset', htotal', hr, hreads, hprint⟩ :=
    readChunk_eq hphase hqueue hstart hlt (by omega) (by omega) (by omega) ht
  obtain ⟨hpos, hle, hsum⟩ := Chunks.lengthAt_bounds (show 0 < bufferSize by decide) hlt
  refine ⟨b', reports, ?_, h.sound_append hr, fun _ => ⟨hphase', hqueue', ?_, ?_, ?_, ?_⟩,
    fun hlt' => absurd hlt' (by omega)⟩
  · unfold VanillaRead.turn
    rw [hphase]
    dsimp only
    rw [if_pos hlt, hread]
  · rw [hoffset', hsum, hoffset, Nat.cast_succ, add_mul, one_mul]
  · rw [htotal', htotal, Nat.cast_succ]
  · rw [hoffset', reads_append, hreads]
    exact .snoc htiles hpos hle
  · rw [printed_append, hprinted, hprint]
    rfl

/-- So does the turn that finds the end of the file. -/
theorem turn_end (h : Accounts stSize i tr b) (hi : i = chunkCount stSize) {t : Turn}
    (ht : t.Succeeds) :
    ∃ b' reports, VanillaRead.turn stSize b t = some (b', reports) ∧
      Accounts stSize (i + 1) (tr ++ reports) b' := by
  obtain ⟨hphase, hqueue, hoffset, htotal, htiles, hprinted⟩ := h.reading hi.le
  have hlast : ¬ (i * bufferSize : ℤ) < stSize := by
    rw [← Chunks.lt_count (by decide), hi]
    exact lt_irrefl _
  have hend : b.fileOffset = stSize := by
    rw [hoffset, min_eq_right (not_lt.mp hlast)]
  rw [hend] at htiles
  obtain ⟨b', reports, hfinish, hphase', hring', hr, hreads, hprint⟩ := finish_eq hphase hqueue ht
  refine ⟨b', reports, ?_, h.sound_append hr, fun hle => absurd hle (by omega),
    fun _ => ⟨hphase', hring', ?_, ?_⟩⟩
  · unfold VanillaRead.turn
    rw [hphase]
    dsimp only
    rw [if_neg (by rw [hend]; exact lt_irrefl _), hfinish]
  · rw [reads_append, hreads, List.append_nil]
    exact htiles
  · rw [printed_append, hprinted, hprint, htotal, hi]
    rfl

theorem turn (h : Accounts stSize i tr b) (hfit : stSize + bufferSize < 2 ^ 63)
    (hint : (chunkCount stSize : ℤ) < 2 ^ 31) {t : Turn} (ht : t.Succeeds) :
    ∃ b' reports, VanillaRead.turn stSize b t = some (b', reports) ∧
      Accounts stSize (i + 1) (tr ++ reports) b' := by
  rcases Nat.lt_trichotomy i (chunkCount stSize) with hi | hi | hi
  · exact h.turn_reading hfit hint hi ht
  · exact h.turn_end hi ht
  · -- the function has returned
    obtain ⟨hphase, hring, htiles, hprinted⟩ := h.finished hi
    refine ⟨b, [], ?_, ?_, fun hle => absurd hle (by omega), fun _ => ?_⟩
    · unfold VanillaRead.turn
      rw [hphase]
    · rw [List.append_nil]
      exact h.sound
    · rw [List.append_nil]
      exact ⟨hphase, hring, htiles, hprinted⟩

end Accounts

theorem accounts_started {stSize : ℤ} (h0 : 0 ≤ stSize) : Accounts stSize 0 [] started where
  sound := List.forall_mem_nil _
  reading := fun _ => ⟨rfl, ⟨[], rfl, rfl, Nat.zero_le _⟩, by
    rw [Nat.cast_zero, zero_mul, min_eq_left h0]
    rfl, rfl, .nil, rfl⟩
  finished := fun h => absurd h (Nat.not_lt_zero _)

/-- **Coverage.** Through every run the ring is in order and the reads cover the file from the
front; after the loop, and a turn for what is left, the ring is empty and the number of chunks is
printed. -/
theorem benchmark_covers {stSize : ℤ} (h0 : 0 ≤ stSize) (hfit : stSize + bufferSize < 2 ^ 63)
    (hint : (chunkCount stSize : ℤ) < 2 ^ 31) (ts : List Turn) (hts : ∀ t ∈ ts, t.Succeeds) :
    ∃ b, (benchmark stSize).after (some started) ts = some b ∧
      Accounts stSize ts.length ((benchmark stSize).trace (some started) ts) b := by
  have hturn (n : ℕ) (tr : List Report) (b : Bench) (t : Turn) (h : Accounts stSize n tr b)
      (ht : t.Succeeds) : ∃ b' reports, VanillaRead.turn stSize b t = some (b', reports) ∧
        Accounts stSize (n + 1) (tr ++ reports) b' := h.turn hfit hint ht
  exact Machine.ofPartial_run hturn (accounts_started h0) hts

/-- A turn in which everything completes at once and in order. -/
def promptTurn : Turn := ⟨.prompt fun op => op.nbytes, fun _ => some (.prompt fun op => op.nbytes)⟩

/-- Three chunks, the last one short. -/
theorem benchmark_covers_three :
    ∃ b, (benchmark 8195).after (some started) (List.replicate 4 promptTurn) = some b ∧
      Accounts 8195 4 ((benchmark 8195).trace (some started) (List.replicate 4 promptTurn)) b := by
  apply benchmark_covers (by decide) (by decide) (by decide) (List.replicate 4 promptTurn)
  intro t ht
  rw [List.eq_of_mem_replicate ht]
  refine ⟨fun _ => rfl, fun r n cqe hmem => ?_⟩
  obtain ⟨op, -, rfl⟩ := List.mem_map.mp hmem
  exact Int.natCast_nonneg op.nbytes

end ClickhouseUring.VanillaRead
