import ClickhouseUring.UringClient.Accounting
import Mathlib.Data.List.Range

/-!
# What the send phase flushes

The chunks go out in batches of 128: the flushes of a run submit the requests of the batches, in
order (`flushes_sent`).  On a file whose offsets come within 4096 of the end of `off_t` the run
stops before its last chunk, where `file_offset + BUF_SIZE` overflows (`overflow_run`).
-/

namespace ClickhouseUring.UringClient

open Uring

/-- The chunks in a full batch. -/
def perBatch : ℕ := batchSize / 2

/-- The requests of an iteration of the first loop. -/
def requests (stSize : ℤ) (i : ℕ) : List Op := chunkOps stSize (i * bufSize)

/-- The first chunks of a batch. -/
def batchUpTo (j n : ℕ) : List ℕ := List.range' (perBatch * j) n

/-- The batches that `n` chunks go out in. -/
def batches (n : ℕ) : List (List ℕ) :=
  (List.range ((n + (perBatch - 1)) / perBatch)).map fun j =>
    batchUpTo j (min perBatch (n - perBatch * j))

theorem length_flatMap_requests (stSize : ℤ) (is : List ℕ) :
    (is.flatMap (requests stSize)).length = 2 * is.length := by
  induction is with
  | nil => rfl
  | cons i is ih =>
    rw [List.flatMap_cons, List.length_append, ih, List.length_cons]
    show 2 + _ = _
    omega

theorem length_requests_batchUpTo (stSize : ℤ) (j n : ℕ) :
    ((batchUpTo j n).flatMap (requests stSize)).length = 2 * n := by
  rw [length_flatMap_requests]
  exact congrArg (2 * ·) List.length_range'

/-! ## The first loop -/

/-- The client after `n` iterations of the first loop: the full batches are flushed, and the rest
is queued. -/
structure Progress (stSize : ℤ) (n : ℕ) (tr : List Report) (c : Client) : Prop where
  phase : c.phase = .sending
  offset : c.fileOffset = min (n * bufSize : ℤ) stSize
  ring : c.ring = ⟨(batchUpTo (n / perBatch) (n % perBatch)).flatMap (requests stSize), [], []⟩
  count : c.batchCount = c.ring.queued.length
  flushed : flushes tr = (List.range (n / perBatch)).map fun j =>
    (batchUpTo j perBatch).flatMap (requests stSize)

theorem progress_started {stSize : ℤ} (h0 : 0 ≤ stSize) : Progress stSize 0 [] started where
  phase := rfl
  offset := by
    rw [Nat.cast_zero, zero_mul, min_eq_left h0]
    rfl
  ring := rfl
  count := rfl
  flushed := rfl

theorem batchUpTo_succ {n : ℕ} :
    batchUpTo (n / perBatch) (n % perBatch + 1) =
      batchUpTo (n / perBatch) (n % perBatch) ++ [n] := by
  unfold batchUpTo
  rw [List.range'_1_concat, Nat.div_add_mod]

/-- The next chunk goes in the same batch. -/
theorem succ_div_mod_of_lt {n : ℕ} (h : n % perBatch + 1 < perBatch) :
    (n + 1) / perBatch = n / perBatch ∧ (n + 1) % perBatch = n % perBatch + 1 := by
  rw [show perBatch = 128 from rfl] at h ⊢
  omega

/-- The next chunk starts a batch. -/
theorem succ_div_mod_of_eq {n : ℕ} (h : n % perBatch + 1 = perBatch) :
    (n + 1) / perBatch = n / perBatch + 1 ∧ (n + 1) % perBatch = 0 := by
  rw [show perBatch = 128 from rfl] at h ⊢
  omega

theorem Progress.turn {stSize : ℤ} {n : ℕ} (hn : n < iterations stSize)
    (hfit : ((n + 1 : ℕ) * bufSize : ℤ) < 2 ^ 63) {tr : List Report} {c : Client}
    (h : Progress stSize n tr c) (t : Turn) :
    ∃ c' reports, UringClient.turn stSize c t = some (c', reports) ∧
      Progress stSize (n + 1) (tr ++ reports) c' := by
  have hbatch : batchSize = 256 := rfl
  have hper : perBatch = 128 := rfl
  have hlt := lt_iterations.mp hn
  have hoffset : c.fileOffset = n * bufSize := h.offset.trans (min_eq_left hlt.le)
  have hpos : (0 : ℤ) ≤ n * bufSize :=
    mul_nonneg (Int.natCast_nonneg n) (Int.natCast_nonneg bufSize)
  have hnext : (n : ℤ) * bufSize + bufSize = (n + 1 : ℕ) * bufSize := by
    rw [Nat.cast_succ, add_mul, one_mul]
  have hlen := length_requests_batchUpTo stSize (n / perBatch) (n % perBatch)
  have hmod : n % perBatch < perBatch := Nat.mod_lt n (by decide)
  have hbound : c.fileOffset + bufSize < 2 ^ 63 := by
    rw [hoffset, hnext]
    exact hfit
  have hcount := h.count
  rw [h.ring] at hcount
  obtain ⟨c', reports, hsend, hphase, hoffset', hring, hcount', -, -, hflushes⟩ :=
    sendChunk_eq h.ring hcount (by omega) (by omega) (by omega) (hoffset ▸ hlt) hbound t.flush
  have hops : chunkOps stSize c.fileOffset = requests stSize n := by
    rw [hoffset]
    rfl
  have hsucc : (batchUpTo (n / perBatch) (n % perBatch)).flatMap (requests stSize) ++
      requests stSize n =
        (batchUpTo (n / perBatch) (n % perBatch + 1)).flatMap (requests stSize) := by
    rw [batchUpTo_succ, List.flatMap_append, List.flatMap_singleton]
  rw [hops, hlen, hsucc] at hring hflushes
  refine ⟨c', reports, ?_, hphase.trans h.phase, ?_, ?_, hcount', ?_⟩
  · rw [turn_of_lt h.phase (hoffset ▸ hlt), hsend]
  · rw [hoffset', (chunkAt_bounds (hoffset ▸ hlt)).2.2, hoffset, hnext]
  · rw [hring]
    split_ifs with hroom
    · obtain ⟨hdiv, hmod'⟩ := succ_div_mod_of_lt (n := n) (by omega)
      rw [hdiv, hmod']
    · obtain ⟨-, hmod'⟩ := succ_div_mod_of_eq (n := n) (by omega)
      rw [hmod']
      rfl
  · rw [flushes_append, h.flushed, hflushes]
    split_ifs with hroom
    · obtain ⟨hdiv, -⟩ := succ_div_mod_of_lt (n := n) (by omega)
      rw [hdiv, List.append_nil]
    · obtain ⟨hdiv, -⟩ := succ_div_mod_of_eq (n := n) (by omega)
      rw [hdiv, List.range_succ, List.map_append, show n % perBatch + 1 = perBatch by omega]
      rfl

theorem progress_run {stSize : ℤ} (h0 : 0 ≤ stSize) {ts : List Turn}
    (hle : ts.length ≤ iterations stSize) (hfit : (ts.length * bufSize : ℤ) < 2 ^ 63) :
    ∃ c, (client stSize).after (some started) ts = some c ∧
      Progress stSize ts.length ((client stSize).trace (some started) ts) c := by
  induction ts using List.reverseRecOn with
  | nil => exact ⟨started, rfl, progress_started h0⟩
  | append_singleton ts t ih =>
    rw [List.length_append, List.length_singleton] at hle hfit ⊢
    have hfit' : (ts.length * bufSize : ℤ) < 2 ^ 63 := by
      refine lt_of_le_of_lt ?_ hfit
      rw [Nat.cast_succ, add_mul, one_mul]
      exact le_add_of_nonneg_right (Int.natCast_nonneg bufSize)
    obtain ⟨c, hafter, h⟩ := ih (by omega) hfit'
    obtain ⟨c', reports, hturn, h'⟩ := h.turn (by omega) hfit t
    obtain ⟨hstep, hout⟩ := client_step hturn
    refine ⟨c', ?_, ?_⟩
    · rw [Machine.after_concat, hafter, hstep]
    · rw [Machine.trace_concat, hafter, hout]
      exact h'

/-! ## The end of the send phase -/

theorem exists_turn_at {n : ℕ} {ts : List Turn} (h : n < ts.length) :
    ∃ us t vs, ts = us ++ t :: vs ∧ us.length = n := by
  refine ⟨ts.take n, ts[n], ts.drop (n + 1), ?_, List.length_take_of_le h.le⟩
  rw [← List.drop_eq_getElem_cons h, List.take_append_drop]

theorem flushes_drained {stSize : ℤ} {c : Client} (h : c.Drained) (ts : List Turn) :
    flushes ((client stSize).trace (some c) ts) = [] := by
  induction ts generalizing c with
  | nil => rfl
  | cons t ts ih =>
    obtain ⟨c', reports, hturn, h', -, -, hflushes⟩ := h.turn stSize t
    obtain ⟨hstep, hout⟩ := client_step hturn
    rw [Machine.trace_cons, flushes_append, hstep, hout, hflushes, ih h', List.append_nil]

/-- The full batches, and the rest if there is one. -/
theorem batches_eq (n : ℕ) :
    batches n = (List.range (n / perBatch)).map (fun j => batchUpTo j perBatch) ++
      if n % perBatch = 0 then [] else [batchUpTo (n / perBatch) (n % perBatch)] := by
  have hper : perBatch = 128 := rfl
  have hfull : (List.range (n / perBatch)).map
      (fun j => batchUpTo j (min perBatch (n - perBatch * j))) =
        (List.range (n / perBatch)).map fun j => batchUpTo j perBatch := by
    refine List.map_congr_left fun j hj => ?_
    have hj := List.mem_range.mp hj
    rw [hper] at hj ⊢
    rw [min_eq_left (by omega)]
  unfold batches
  split_ifs with hrest
  · have hcount : (n + (perBatch - 1)) / perBatch = n / perBatch := by
      rw [hper] at hrest ⊢
      omega
    rw [hcount, hfull, List.append_nil]
  · have hcount : (n + (perBatch - 1)) / perBatch = n / perBatch + 1 := by
      rw [hper] at hrest ⊢
      omega
    have hlast : min perBatch (n - perBatch * (n / perBatch)) = n % perBatch := by
      rw [hper]
      omega
    rw [hcount, List.range_succ, List.map_append, hfull, List.map_singleton, hlast]

/-- The full batches, and the batch with the last chunk. -/
theorem batches_succ (n : ℕ) :
    batches (n + 1) = (List.range (n / perBatch)).map (fun j => batchUpTo j perBatch) ++
      [batchUpTo (n / perBatch) (n % perBatch + 1)] := by
  have hmod : n % perBatch < perBatch := Nat.mod_lt n (by decide)
  rw [batches_eq]
  rcases Nat.lt_or_eq_of_le (Nat.succ_le_of_lt hmod) with hlt | heq
  · obtain ⟨hdiv, hmod'⟩ := succ_div_mod_of_lt hlt
    rw [hdiv, hmod', if_neg (Nat.succ_ne_zero _)]
  · obtain ⟨hdiv, hmod'⟩ := succ_div_mod_of_eq heq
    rw [hdiv, hmod', if_pos rfl, List.append_nil, List.range_succ, List.map_append,
      show n % perBatch + 1 = perBatch from heq]
    rfl

/-- The chunks of the last batch, when it holds two or more. -/
theorem batches_succ_succ {n : ℕ} (h : (n + 1) % perBatch ≠ 0) :
    batches (n + 1 + 1) = (List.range (n / perBatch)).map (fun j => batchUpTo j perBatch) ++
      [batchUpTo (n / perBatch) (n % perBatch) ++ [n] ++ [n + 1]] := by
  have hlt : n % perBatch + 1 < perBatch := by
    rw [show perBatch = 128 from rfl] at h ⊢
    omega
  obtain ⟨hdiv, hmod⟩ := succ_div_mod_of_lt hlt
  rw [batches_succ, batchUpTo_succ, hdiv, hmod, batchUpTo_succ]

/-- The flushes of a run submit the batches. -/
theorem flushes_sent {stSize : ℤ} (h0 : 0 ≤ stSize) (hfit : stSize + bufSize ≤ 2 ^ 63)
    {ts : List Turn} (hlen : iterations stSize < ts.length) :
    flushes ((client stSize).trace (some started) ts) =
      (batches (iterations stSize)).map fun is => is.flatMap (requests stSize) := by
  have hbuf : bufSize = 4096 := rfl
  obtain ⟨us, t, vs, rfl, hus⟩ := exists_turn_at hlen
  have hwithin : (us.length * bufSize : ℤ) < 2 ^ 63 := by
    rw [hus]
    unfold iterations
    rw [hbuf] at hfit ⊢
    omega
  obtain ⟨c, hafter, h⟩ := progress_run h0 hus.le hwithin
  rw [hus] at h
  have hend : stSize ≤ c.fileOffset := by
    rw [h.offset, min_eq_right]
    exact not_lt.mp fun hlt => absurd (lt_iterations.mpr hlt) (lt_irrefl _)
  have hcount := h.count
  rw [h.ring] at hcount
  obtain ⟨c', reports, hfinish, hphase, hring, -, -, hflushes⟩ :=
    finishSending_eq h.phase h.ring hcount t
  obtain ⟨hstep, hout⟩ := client_step ((turn_of_end h.phase hend t).trans hfinish)
  have hdrained : c'.Drained := ⟨hphase, fun _ => hring⟩
  rw [Machine.trace_append, Machine.trace_cons, hafter, hstep, hout, flushes_append,
    flushes_append, flushes_drained hdrained, List.append_nil, h.flushed, hflushes, batches_eq,
    List.map_append, List.map_map]
  refine congrArg _ ?_
  -- the last flush happens when something is queued
  by_cases hrest : iterations stSize % perBatch = 0
  · rw [hrest]
    rfl
  · have hne : (batchUpTo (iterations stSize / perBatch)
        (iterations stSize % perBatch)).flatMap (requests stSize) ≠ [] := by
      rw [← List.length_pos_iff, length_requests_batchUpTo]
      omega
    rw [if_neg hne, if_neg hrest]
    rfl

/-! ## The batches and the chunks -/

theorem flatMap_batchUpTo (m : ℕ) :
    (List.range m).flatMap (fun j => batchUpTo j perBatch) = List.range (perBatch * m) := by
  induction m with
  | zero => rfl
  | succ m ih =>
    rw [List.range_succ, List.flatMap_append, ih, List.flatMap_singleton, Nat.mul_succ]
    unfold batchUpTo
    rw [List.range_eq_range', List.range_eq_range']
    have h := @List.range'_append_1 0 (perBatch * m) perBatch
    rwa [Nat.zero_add] at h

/-- Every chunk goes out in one batch, and the batches are in order. -/
theorem flatten_batches (n : ℕ) : (batches n).flatten = List.range n := by
  have hrest : (if n % perBatch = 0 then []
      else [batchUpTo (n / perBatch) (n % perBatch)]).flatten =
        List.range' (perBatch * (n / perBatch)) (n % perBatch) := by
    split_ifs with h
    · rw [h]
      rfl
    · exact List.append_nil _
  have h := @List.range'_append_1 0 (perBatch * (n / perBatch)) (n % perBatch)
  rw [Nat.zero_add, Nat.div_add_mod] at h
  rw [batches_eq, List.flatten_append, hrest, ← List.flatMap_def, flatMap_batchUpTo,
    List.range_eq_range', h, ← List.range_eq_range']

theorem div_of_mem_batches {n : ℕ} {is : List ℕ} (his : is ∈ batches n) :
    ∃ j, ∀ i ∈ is, i / perBatch = j ∧ i < n := by
  obtain ⟨j, -, rfl⟩ := List.mem_map.mp his
  refine ⟨j, fun i hi => ?_⟩
  unfold batchUpTo at hi
  rw [List.mem_range'_1, show perBatch = 128 from rfl] at hi
  rw [show perBatch = 128 from rfl]
  omega

/-! ## Overflow -/

/-- On a file that ends too close to the end of `off_t` only full batches of an incomplete part of
the file are flushed. -/
theorem overflow_run {stSize : ℤ} (h0 : 0 ≤ stSize) (hover : 2 ^ 63 < stSize + bufSize)
    {ts : List Turn} (hlen : iterations stSize < ts.length) :
    ∃ n : ℕ, (n * bufSize : ℤ) < stSize ∧
      flushes ((client stSize).trace (some started) ts) =
        (List.range (n / perBatch)).map fun j =>
          (batchUpTo j perBatch).flatMap (requests stSize) := by
  have hbuf : bufSize = 4096 := rfl
  obtain ⟨n, hn⟩ : ∃ n : ℕ, (n * bufSize : ℤ) + bufSize = 2 ^ 63 := ⟨2 ^ 51 - 1, by decide⟩
  have hlt : (n * bufSize : ℤ) < stSize := by omega
  have hiter := lt_iterations.mpr hlt
  obtain ⟨us, t, vs, rfl, hus⟩ := exists_turn_at (hiter.trans hlen)
  obtain ⟨c, hafter, h⟩ := progress_run h0 (hus ▸ hiter.le) (by rw [hus]; omega)
  rw [hus] at h
  have hoffset : c.fileOffset = n * bufSize := h.offset.trans (min_eq_left hlt.le)
  have hadd : CInt.add 64 c.fileOffset bufSize = none := by
    refine if_neg fun hfits => ?_
    have : c.fileOffset + bufSize < 2 ^ 63 := hfits.2
    rw [hoffset] at this
    omega
  have hturn : turn stSize c t = none := by
    rw [turn_of_lt h.phase (hoffset ▸ hlt)]
    unfold sendChunk
    rw [hadd]
    rfl
  have hclient : client stSize = .ofPartial (turn stSize) := rfl
  obtain ⟨hstep, hout⟩ := Machine.ofPartial_of_none hturn
  refine ⟨n, hlt, ?_⟩
  rw [Machine.trace_append, Machine.trace_cons, hafter, hclient, hstep, hout,
    Machine.trace_ofPartial_none, List.append_nil, List.append_nil, ← hclient, h.flushed]

end ClickhouseUring.UringClient
