import Mathlib.Algebra.Order.Ring.Nat
import ClickhouseUring.FsyncLatency.Probes

/-!
# The averages of `fsync-latency-bpf/rocksdb.bpf.c`

A probe that finds its thread in `start_map` takes a sample for one of the two averages
(`avgLatency_after`), and both kinds of samples count in `count` (`count_after`).  An average should
lie between the smallest and the largest latency of its kind; `averaged_iff` says at which samples
it does.  That of the writebacks does as long as no latency is smaller than the one before and
nothing else is sampled (`averaged_of_sorted`).
-/

namespace ClickhouseUring.FsyncLatency

/-- The averages. -/
inductive Kind
  | write
  | fsyncExit
deriving DecidableEq, Repr

/-- A latency that a probe computes for one of the averages. -/
structure Sample where
  kind : Kind
  latency : BitVec 64
deriving DecidableEq, Repr

/-- The average of a kind. -/
def AvgLatency.latencyTo (avg : AvgLatency) : Kind → BitVec 64
  | .write => avg.latencyToWrite
  | .fsyncExit => avg.latencyToFsyncExit

/-- What a sample does to `avg_latency`. -/
def AvgLatency.sample (avg : AvgLatency) (s : Sample) : AvgLatency :=
  match s.kind with
  | .write => avg.write s.latency
  | .fsyncExit => avg.fsyncExit s.latency

/-- The samples, one after the other. -/
def averages : Machine AvgLatency Sample Sample where
  step avg s := avg.sample s
  out _ s := [s]

/-! ## The samples that the probes take -/

/-- The sample of an event, if its thread is in `start_map`. -/
def sampleOf (g : Globals) (e : Event) : List Sample :=
  match g.startMap.lookup e.pidTgid with
  | none => []
  | some start =>
    match e.probe with
    | .sysEnterFsync => []
    | .writebackSingleInode => [⟨.write, e.ns - start⟩]
    | .sysExitFsync => [⟨.fsyncExit, e.ns - start⟩]

/-- The probes, seen by the samples they take. -/
def sampling : Machine Globals Event Sample where
  step g e := (hook g e).1
  out := sampleOf

theorem avgLatency_hook (g : Globals) (e : Event) :
    (hook g e).1.avgLatency = averages.after g.avgLatency (sampleOf g e) := by
  have hacts := hook_acts g e
  unfold sampleOf
  generalize (hook g e).1 = g', (hook g e).2 = os at hacts
  cases hacts with
  | @enter tid ns =>
    cases h : g.startMap.lookup tid with
    | none => rfl
    | some start => rfl
  | unmatched hprobe h =>
    dsimp only
    rw [h]
    rfl
  | writeback h =>
    dsimp only
    rw [h]
    rfl
  | exit h =>
    dsimp only
    rw [h]
    rfl

/-- The probes keep the averages of the samples they take. -/
theorem avgLatency_after (g : Globals) (es : List Event) :
    (probes.after g es).avgLatency = averages.after g.avgLatency (sampling.trace g es) := by
  induction es generalizing g with
  | nil => rfl
  | cons e es ih =>
    rw [Machine.after_cons, Machine.trace_cons, Machine.after_append, ih]
    exact congrArg (averages.after · _) (avgLatency_hook g e)

/-- The count is the number of samples of either kind, modulo `2 ^ 64`. -/
theorem count_after (avg : AvgLatency) (samples : List Sample) :
    (averages.after avg samples).count = avg.count + BitVec.ofNat 64 samples.length := by
  induction samples generalizing avg with
  | nil => exact (BitVec.add_zero _).symm
  | cons s samples ih =>
    have hone : (averages.step avg s).count = avg.count + 1#64 := by
      obtain ⟨kind, latency⟩ := s
      cases kind <;> rfl
    rw [Machine.after_cons, ih, hone, List.length_cons, Nat.add_comm, BitVec.ofNat_add,
      BitVec.add_assoc]

/-! ## Between the smallest and the largest -/

/-- The latencies of a kind. -/
def seen (k : Kind) (past : List Sample) : List ℕ :=
  (past.filter fun s => s.kind = k).map fun s => s.latency.toNat

/-- The value is between the smallest and the largest. -/
def Between (xs : List ℕ) (v : ℤ) : Prop := (∃ a ∈ xs, (a : ℤ) ≤ v) ∧ ∃ b ∈ xs, v ≤ b

/-- Each average lies between the smallest and the largest latency of its kind. -/
def Averaged (avg : AvgLatency) (past : List Sample) : Prop :=
  ∀ k, seen k past ≠ [] → Between (seen k past) (avg.latencyTo k).toInt

/-- The first sample of a kind is the average if no sample of the other kind was before it.  Later
a latency must not be below the average: the difference would be a number close to `2 ^ 64`, which
only a large count brings back into the range. -/
def RegularWrite (count avg latency : ℕ) (past : List ℕ) : Prop :=
  if past = [] then count = 0 ∨ latency = 0
  else avg ≤ latency ∨ count = 0 ∨ count = 2 ^ 64 - 1 ∨
    ∃ b ∈ past, 2 ^ 64 + latency + avg * count < (b + 1) * (count + 1)

/-- The difference to the last value is so large that its share is still as large as a latency. -/
def RegularFsyncExit (count avg latency : ℕ) (past : List ℕ) : Prop :=
  if count = 2 ^ 64 - 1 then 0 ∈ past ++ [latency]
  else if avg ≤ latency then ∃ a ∈ past ++ [latency], avg + a * (count + 1) ≤ latency
  else (∃ a ∈ past ++ [latency], avg + a * (count + 1) ≤ 2 ^ 64 + latency) ∧
    ∃ b ∈ past ++ [latency], 2 ^ 64 + latency < avg + (b + 1) * (count + 1)

instance (count avg latency : ℕ) (past : List ℕ) :
    Decidable (RegularWrite count avg latency past) := by
  unfold RegularWrite
  infer_instance

instance (count avg latency : ℕ) (past : List ℕ) :
    Decidable (RegularFsyncExit count avg latency past) := by
  unfold RegularFsyncExit
  infer_instance

theorem between_toInt_iff {xs : List ℕ} (h : ∀ a ∈ xs, a < 2 ^ 62) {v : BitVec 64} :
    Between xs v.toInt ↔ (∃ a ∈ xs, a ≤ v.toNat) ∧ ∃ b ∈ xs, v.toNat ≤ b := by
  unfold Between
  constructor
  · rintro ⟨⟨a, ha, hav⟩, b, hb, hvb⟩
    have hv : v.toInt = v.toNat := by
      rw [BitVec.toInt_eq_toNat_cond] at hav ⊢
      split_ifs at hav ⊢ with hlt
      · rfl
      · omega
    rw [hv] at hav hvb
    exact ⟨⟨a, ha, by omega⟩, b, hb, by omega⟩
  · rintro ⟨⟨a, ha, hav⟩, b, hb, hvb⟩
    have hlt := h b hb
    rw [BitVec.toInt_eq_toNat_of_lt (by omega)]
    exact ⟨⟨a, ha, by omega⟩, b, hb, by omega⟩

/-! ## One sample -/

section Sample

variable {count avg latency : BitVec 64} {past : List ℕ}

theorem toNat_latency_sub (ha : avg.toNat < 2 ^ 62) :
    (latency - avg).toNat = if avg.toNat ≤ latency.toNat then latency.toNat - avg.toNat
      else 2 ^ 64 + latency.toNat - avg.toNat := by
  rw [BitVec.toNat_sub]
  split_ifs with h
  · omega
  · omega

theorem toNat_count_succ (hc : count.toNat ≠ 2 ^ 64 - 1) :
    (count + 1).toNat = count.toNat + 1 := by
  rw [BitVec.toNat_add]
  have := count.isLt
  show (count.toNat + 1) % 2 ^ 64 = _
  omega

theorem div_count_succ (hc : count.toNat = 2 ^ 64 - 1) (x : BitVec 64) :
    x / (count + 1) = 0#64 := by
  have hzero : count + 1 = 0#64 := by
    apply BitVec.eq_of_toNat_eq
    rw [BitVec.toNat_add, hc]
    rfl
  rw [hzero]
  exact BitVec.udiv_zero

theorem add_div_le_iff {a d n b : ℕ} (hn : 0 < n) : a + d / n ≤ b ↔ a * n + d < (b + 1) * n := by
  rw [← Nat.mul_add_div hn, Nat.mul_comm n, ← Nat.lt_succ_iff, Nat.div_lt_iff_lt_mul hn]

/-- The first sample for the average of writebacks. -/
theorem between_write_first (hx : latency.toNat < 2 ^ 62) :
    Between [latency.toNat] (0#64 + (latency - 0#64) / (count + 1)).toInt ↔
      count.toNat = 0 ∨ latency.toNat = 0 := by
  rw [BitVec.zero_add, BitVec.sub_zero, between_toInt_iff (List.forall_mem_singleton.mpr hx)]
  simp only [List.mem_singleton, exists_eq_left]
  by_cases hc : count.toNat = 2 ^ 64 - 1
  · rw [div_count_succ hc]
    show latency.toNat ≤ 0 ∧ 0 ≤ latency.toNat ↔ _
    omega
  rw [BitVec.toNat_udiv, toNat_count_succ hc, and_iff_left (Nat.div_le_self _ _),
    Nat.le_div_iff_mul_le (Nat.succ_pos _), Nat.mul_succ]
  constructor
  · intro h
    have hmul : latency.toNat * count.toNat = 0 := by omega
    exact (mul_eq_zero.mp hmul).symm
  · rintro (h | h)
    · rw [h, Nat.mul_zero, Nat.zero_add]
    · rw [h, Nat.zero_mul]

theorem between_concat_iff (hx : latency.toNat < 2 ^ 62) (hpast : ∀ a ∈ past, a < 2 ^ 62)
    {v : BitVec 64} : Between (past ++ [latency.toNat]) v.toInt ↔
      (∃ a ∈ past ++ [latency.toNat], a ≤ v.toNat) ∧
        ∃ b ∈ past ++ [latency.toNat], v.toNat ≤ b :=
  between_toInt_iff (List.forall_mem_append.mpr ⟨hpast, List.forall_mem_singleton.mpr hx⟩)

theorem toNat_write (hc : count.toNat ≠ 2 ^ 64 - 1) :
    (avg + (latency - avg) / (count + 1)).toNat =
      (avg.toNat + (latency - avg).toNat / (count.toNat + 1)) % 2 ^ 64 := by
  rw [BitVec.toNat_add, BitVec.toNat_udiv, toNat_count_succ hc]

/-- A latency that is not below the average. -/
theorem between_write_of_le (hx : latency.toNat < 2 ^ 62) (hpast : ∀ a ∈ past, a < 2 ^ 62)
    (hlow : ∃ a ∈ past, a ≤ avg.toNat) (hc : count.toNat ≠ 2 ^ 64 - 1)
    (hle : avg.toNat ≤ latency.toNat) :
    Between (past ++ [latency.toNat]) (avg + (latency - avg) / (count + 1)).toInt := by
  obtain ⟨a, hamem, hale⟩ := hlow
  have hsub := @toNat_latency_sub avg latency (by omega)
  have hshare := Nat.div_le_self (latency.toNat - avg.toNat) (count.toNat + 1)
  rw [if_pos hle] at hsub
  rw [between_concat_iff hx hpast, toNat_write hc, hsub, Nat.mod_eq_of_lt (by omega)]
  refine ⟨⟨a, List.mem_append_left _ hamem, hale.trans (Nat.le_add_right _ _)⟩,
    latency.toNat, List.mem_append_right _ List.mem_cons_self, ?_⟩
  omega

/-- A latency below the average: the difference wraps around. -/
theorem between_write_of_lt (ha : avg.toNat < 2 ^ 62) (hpast : ∀ a ∈ past, a < 2 ^ 62)
    (hlow : ∃ a ∈ past, a ≤ avg.toNat) (hc : count.toNat ≠ 2 ^ 64 - 1) (hzero : count.toNat ≠ 0)
    (hlt : latency.toNat < avg.toNat) :
    Between (past ++ [latency.toNat]) (avg + (latency - avg) / (count + 1)).toInt ↔
      ∃ b ∈ past, 2 ^ 64 + latency.toNat + avg.toNat * count.toNat <
        (b + 1) * (count.toNat + 1) := by
  obtain ⟨a, hamem, hale⟩ := hlow
  have hpos : 0 < count.toNat + 1 := Nat.succ_pos _
  have hsub := @toNat_latency_sub avg latency ha
  have hshare : (2 ^ 64 + latency.toNat - avg.toNat) / (count.toNat + 1) ≤
      (2 ^ 64 + latency.toNat - avg.toNat) / 2 := Nat.div_le_div_left (by omega) two_pos
  rw [if_neg (not_le.mpr hlt)] at hsub
  rw [between_concat_iff (hlt.trans ha) hpast, toNat_write hc, hsub, Nat.mod_eq_of_lt (by omega),
    and_iff_right ⟨a, List.mem_append_left _ hamem, hale.trans (Nat.le_add_right _ _)⟩]
  simp only [add_div_le_iff hpos, Nat.mul_succ avg.toNat]
  constructor
  · rintro ⟨b, hmem, hb⟩
    rcases List.mem_append.mp hmem with hmem | hmem
    · exact ⟨b, hmem, by omega⟩
    · -- the average stays above the latency
      obtain rfl := List.mem_singleton.mp hmem
      have hmul : (latency.toNat + 1) * (count.toNat + 1) ≤ avg.toNat * (count.toNat + 1) :=
        Nat.mul_le_mul_right _ hlt
      rw [Nat.mul_succ avg.toNat] at hmul
      omega
  · rintro ⟨b, hmem, hb⟩
    exact ⟨b, List.mem_append_left _ hmem, by omega⟩

/-- A later sample for the average of writebacks. -/
theorem between_write_later (ha : avg.toNat < 2 ^ 62) (hx : latency.toNat < 2 ^ 62)
    (hpast : ∀ a ∈ past, a < 2 ^ 62) (hbetween : Between past avg.toInt) :
    Between (past ++ [latency.toNat]) (avg + (latency - avg) / (count + 1)).toInt ↔
      avg.toNat ≤ latency.toNat ∨ count.toNat = 0 ∨ count.toNat = 2 ^ 64 - 1 ∨
      ∃ b ∈ past, 2 ^ 64 + latency.toNat + avg.toNat * count.toNat <
        (b + 1) * (count.toNat + 1) := by
  obtain ⟨⟨a, hamem, hale⟩, b, hbmem, hleb⟩ := (between_toInt_iff hpast).mp hbetween
  by_cases hc : count.toNat = 2 ^ 64 - 1
  · -- the divisor is 0 and the average stays
    rw [div_count_succ hc, BitVec.add_zero, between_concat_iff hx hpast]
    refine iff_of_true ⟨⟨a, ?_, hale⟩, b, ?_, hleb⟩ (Or.inr (Or.inr (Or.inl hc)))
    · exact List.mem_append_left _ hamem
    · exact List.mem_append_left _ hbmem
  by_cases hle : avg.toNat ≤ latency.toNat
  · exact iff_of_true (between_write_of_le hx hpast ⟨a, hamem, hale⟩ hc hle) (Or.inl hle)
  by_cases hzero : count.toNat = 0
  · -- the latency is the new average
    have hone : count + 1 = 1#64 := by
      apply BitVec.eq_of_toNat_eq
      rw [toNat_count_succ hc, hzero]
      rfl
    have hlast : latency.toNat ∈ past ++ [latency.toNat] :=
      List.mem_append_right _ List.mem_cons_self
    rw [hone, BitVec.udiv_one, BitVec.add_comm, BitVec.sub_add_cancel, between_concat_iff hx hpast]
    exact iff_of_true ⟨⟨_, hlast, le_rfl⟩, _, hlast, le_rfl⟩ (Or.inr (Or.inl hzero))
  · rw [between_write_of_lt ha hpast ⟨a, hamem, hale⟩ hc hzero (not_le.mp hle), or_iff_right hle,
      or_iff_right hzero, or_iff_right hc]

/-- A sample for the average of `fsync`. -/
theorem between_fsyncExit (ha : avg.toNat < 2 ^ 62) (hx : latency.toNat < 2 ^ 62)
    (hpast : ∀ a ∈ past, a < 2 ^ 62) :
    Between (past ++ [latency.toNat]) ((latency - avg) / (count + 1)).toInt ↔
      RegularFsyncExit count.toNat avg.toNat latency.toNat past := by
  have hlast : latency.toNat ∈ past ++ [latency.toNat] :=
    List.mem_append_right _ List.mem_cons_self
  unfold RegularFsyncExit
  rw [between_concat_iff hx hpast]
  by_cases hc : count.toNat = 2 ^ 64 - 1
  · rw [div_count_succ hc, if_pos hc]
    constructor
    · rintro ⟨⟨a, hmem, hle⟩, -⟩
      obtain rfl : a = 0 := Nat.le_zero.mp hle
      exact hmem
    · intro hmem
      exact ⟨⟨0, hmem, le_rfl⟩, 0, hmem, le_rfl⟩
  rw [if_neg hc, BitVec.toNat_udiv, toNat_count_succ hc, toNat_latency_sub ha]
  have hpos : 0 < count.toNat + 1 := Nat.succ_pos _
  simp only [Nat.le_div_iff_mul_le hpos]
  split_ifs with hle
  · rw [and_iff_left ⟨_, hlast, (Nat.div_le_self _ _).trans (Nat.sub_le _ _)⟩]
    refine exists_congr fun a => and_congr_right fun _ => ?_
    omega
  · refine and_congr (exists_congr fun a => and_congr_right fun _ => ?_)
      (exists_congr fun b => and_congr_right fun _ => ?_)
    · omega
    · rw [← Nat.lt_add_one_iff, Nat.div_lt_iff_lt_mul hpos]
      omega

end Sample

/-! ## Runs -/

/-- After the sample each average lies between the smallest and the largest latency of its kind. -/
def AveragedAfter (p : AvgLatency × List Sample) (s : Sample) : Prop :=
  Averaged (p.1.sample s) (p.2 ++ [s])

/-- The condition on the sample. -/
def Regular (p : AvgLatency × List Sample) (s : Sample) : Prop :=
  match s.kind with
  | .write => RegularWrite p.1.count.toNat p.1.latencyToWrite.toNat s.latency.toNat
      (seen .write p.2)
  | .fsyncExit => RegularFsyncExit p.1.count.toNat p.1.latencyToFsyncExit.toNat s.latency.toNat
      (seen .fsyncExit p.2)

instance (p : AvgLatency × List Sample) : ∀ s, Decidable (Regular p s)
  | ⟨.write, latency⟩ => inferInstanceAs (Decidable (RegularWrite _ _ latency.toNat _))
  | ⟨.fsyncExit, latency⟩ => inferInstanceAs (Decidable (RegularFsyncExit _ _ latency.toNat _))

/-- The averages so far are between their latencies, and an average without samples is 0. -/
structure Inv (p : AvgLatency × List Sample) : Prop where
  averaged : Averaged p.1 p.2
  zero : ∀ k, seen k p.2 = [] → p.1.latencyTo k = 0
  small : ∀ s ∈ p.2, s.latency.toNat < 2 ^ 62

theorem seen_concat (k : Kind) (past : List Sample) (s : Sample) :
    seen k (past ++ [s]) =
      if s.kind = k then seen k past ++ [s.latency.toNat] else seen k past := by
  unfold seen
  rw [List.filter_append, List.map_append]
  split_ifs with h
  · simp [h]
  · simp [h]

theorem Inv.seen_lt {p : AvgLatency × List Sample} (h : Inv p) (k : Kind) :
    ∀ a ∈ seen k p.2, a < 2 ^ 62 := by
  intro a ha
  obtain ⟨s, hs, rfl⟩ := List.mem_map.mp ha
  exact h.small s (List.mem_of_mem_filter hs)

theorem Inv.latencyTo_lt {p : AvgLatency × List Sample} (h : Inv p) (k : Kind) :
    (p.1.latencyTo k).toNat < 2 ^ 62 := by
  by_cases hk : seen k p.2 = []
  · rw [h.zero k hk]
    decide
  · obtain ⟨-, b, hb, hle⟩ := (between_toInt_iff (h.seen_lt k)).mp (h.averaged k hk)
    exact hle.trans_lt (h.seen_lt k b hb)

/-- A sample leaves the average of the other kind alone. -/
theorem latencyTo_sample_of_ne (avg : AvgLatency) {s : Sample} {k : Kind} (h : s.kind ≠ k) :
    (avg.sample s).latencyTo k = avg.latencyTo k := by
  obtain ⟨kind, latency⟩ := s
  cases kind with
  | write =>
    cases k with
    | write => exact absurd rfl h
    | fsyncExit => rfl
  | fsyncExit =>
    cases k with
    | write => rfl
    | fsyncExit => exact absurd rfl h

/-- Only the average of the sample's kind is in question. -/
theorem averagedAfter_iff {p : AvgLatency × List Sample} (h : Inv p) (s : Sample) :
    AveragedAfter p s ↔ Between (seen s.kind p.2 ++ [s.latency.toNat])
      ((p.1.sample s).latencyTo s.kind).toInt := by
  unfold AveragedAfter Averaged
  constructor
  · intro hall
    have hk := hall s.kind
    rw [seen_concat, if_pos rfl] at hk
    exact hk (List.append_ne_nil_of_right_ne_nil _ (List.cons_ne_nil _ _))
  · intro hbetween k hk
    rw [seen_concat] at hk ⊢
    by_cases hkind : s.kind = k
    · subst hkind
      rw [if_pos rfl]
      exact hbetween
    · rw [if_neg hkind] at hk ⊢
      rw [latencyTo_sample_of_ne _ hkind]
      exact h.averaged k hk

theorem averagedAfter_iff_regular {p : AvgLatency × List Sample} (h : Inv p) {s : Sample}
    (hs : s.latency.toNat < 2 ^ 62) : AveragedAfter p s ↔ Regular p s := by
  rw [averagedAfter_iff h]
  obtain ⟨kind, latency⟩ := s
  have hlt := h.latencyTo_lt kind
  have hseen := h.seen_lt kind
  cases kind with
  | write =>
    show Between _ (p.1.latencyToWrite + (latency - p.1.latencyToWrite) / (p.1.count + 1)).toInt ↔
      RegularWrite _ _ _ _
    unfold RegularWrite
    split_ifs with hnil
    · have hzero : p.1.latencyToWrite = 0#64 := h.zero .write hnil
      rw [hzero, hnil]
      exact between_write_first hs
    · exact between_write_later hlt hs hseen (h.averaged .write hnil)
  | fsyncExit => exact between_fsyncExit hlt hs hseen

theorem Inv.step {p : AvgLatency × List Sample} (h : Inv p) {s : Sample}
    (hs : s.latency.toNat < 2 ^ 62) (hregular : Regular p s) :
    Inv (averages.recorded.step p s) := by
  obtain ⟨avg, past⟩ := p
  rw [Machine.recorded_step]
  constructor
  · exact (averagedAfter_iff_regular h hs).mpr hregular
  · intro k hk
    dsimp only at hk ⊢
    show (avg.sample s).latencyTo k = 0
    rw [show averages.out avg s = [s] from rfl, seen_concat] at hk
    by_cases hkind : s.kind = k
    · rw [if_pos hkind] at hk
      exact absurd hk (List.append_ne_nil_of_right_ne_nil _ (List.cons_ne_nil _ _))
    · rw [if_neg hkind] at hk
      rw [latencyTo_sample_of_ne _ hkind]
      exact h.zero k hk
  · exact List.forall_mem_append.mpr ⟨h.small, List.forall_mem_singleton.mpr hs⟩

theorem inv_initial : Inv (initial.avgLatency, []) where
  averaged _ hk := absurd rfl hk
  zero k _ := by cases k <;> rfl
  small := List.forall_mem_nil _

/-- The averages are averages throughout a run exactly when each sample is regular. -/
theorem averaged_iff {samples : List Sample} (hs : ∀ s ∈ samples, s.latency.toNat < 2 ^ 62) :
    averages.recorded.Steps AveragedAfter (initial.avgLatency, []) samples ↔
      averages.recorded.Steps Regular (initial.avgLatency, []) samples := by
  have hsmall : averages.recorded.Steps (fun _ s => s.latency.toNat < 2 ^ 62)
      (initial.avgLatency, []) samples :=
    Machine.steps_of_forall_mem _ hs
  exact Machine.steps_iff _ (I := Inv) (fun _ _ h hs => averagedAfter_iff_regular h hs)
    (fun _ _ h hs hregular => h.step hs hregular) inv_initial hsmall

/-- Growing latencies of one writeback after the other. -/
theorem averaged_growing :
    averages.recorded.Steps AveragedAfter (initial.avgLatency, [])
      [⟨.write, 100⟩, ⟨.write, 300⟩, ⟨.write, 200⟩] :=
  (averaged_iff (by decide)).mpr (by decide)

/-- A latency that is not below any before it is regular, when there are only writebacks. -/
theorem regular_of_le {p : AvgLatency × List Sample} (h : Inv p)
    (hfirst : seen .write p.2 = [] → p.1.count = 0) {latency : BitVec 64}
    (hle : ∀ a ∈ seen .write p.2, a ≤ latency.toNat) : Regular p ⟨.write, latency⟩ := by
  show RegularWrite _ _ _ _
  unfold RegularWrite
  split_ifs with hnil
  · rw [hfirst hnil]
    exact Or.inl rfl
  · obtain ⟨-, b, hb, hleb⟩ := (between_toInt_iff (h.seen_lt .write)).mp (h.averaged .write hnil)
    exact Or.inl (hleb.trans (hle b hb))

/-- Writebacks that take longer and longer. -/
theorem averaged_of_sorted {latencies : List (BitVec 64)}
    (hsmall : ∀ x ∈ latencies, x.toNat < 2 ^ 62)
    (hsorted : latencies.Pairwise fun x y => x.toNat ≤ y.toNat) :
    averages.recorded.Steps AveragedAfter (initial.avgLatency, [])
      (latencies.map fun x => ⟨.write, x⟩) := by
  have hrun : ∀ p : AvgLatency × List Sample, Inv p → (seen .write p.2 = [] → p.1.count = 0) →
      (∀ a ∈ seen .write p.2, ∀ x ∈ latencies, a ≤ x.toNat) →
      averages.recorded.Steps AveragedAfter p (latencies.map fun x => ⟨.write, x⟩) := by
    induction latencies with
    | nil => exact fun _ _ _ _ => trivial
    | cons x latencies ih =>
      intro p hp hfirst hle
      obtain ⟨hx, hxs⟩ := List.forall_mem_cons.mp hsmall
      obtain ⟨hrel, hpair⟩ := List.pairwise_cons.mp hsorted
      have hregular := regular_of_le hp hfirst fun a ha => hle a ha x List.mem_cons_self
      have hseen : seen .write (p.2 ++ [⟨.write, x⟩]) = seen .write p.2 ++ [x.toNat] :=
        (seen_concat .write p.2 ⟨.write, x⟩).trans (if_pos rfl)
      refine ⟨(averagedAfter_iff_regular hp hx).mpr hregular, ih hxs hpair _ (hp.step hx hregular)
        ?_ ?_⟩
      · intro hnil
        exact absurd (hseen.symm.trans hnil) (List.append_ne_nil_of_right_ne_nil _ (by simp))
      · intro a ha y hy
        replace ha : a ∈ seen .write p.2 ++ [x.toNat] := hseen ▸ ha
        rcases List.mem_append.mp ha with ha | ha
        · exact hle a ha y (List.mem_cons_of_mem _ hy)
        · rw [List.mem_singleton.mp ha]
          exact hrel y hy
  exact hrun _ inv_initial (fun _ => rfl) (List.forall_mem_nil _)

/-- A second `fsync` that takes as long as the first: the average falls to 0. -/
theorem not_averaged_second :
    ¬ averages.recorded.Steps AveragedAfter (initial.avgLatency, [])
      [⟨.fsyncExit, 10⟩, ⟨.fsyncExit, 10⟩] := by
  intro hsteps
  obtain ⟨a, ha, hle⟩ := (hsteps.2.1 .fsyncExit (by decide)).1
  have hle' : (a : ℤ) ≤ 0 := hle
  have hten : a ∈ [10, 10] := ha
  simp only [List.mem_cons, List.not_mem_nil, or_false, or_self] at hten
  omega

end ClickhouseUring.FsyncLatency
