import ClickhouseUring.Kit.RingBuffer
import ClickhouseUring.User.Consumer

/-!
# Reads that nobody will make

An accepted `preadRaw` puts a record on `pread_prepare_ringbuf` and counts it in `fd_info_map`.
Either store can be full, and the probe looks at neither result.  The counts of all processes agree
with the records on their way to the consumer as long as every read is taken by both stores or by
none of them (`backed_iff`).

A record takes `header` bytes of the ring buffer besides its own.
-/

namespace ClickhouseUring.User

/-- `sizeof(info)` in `preadRaw`. -/
def infoSize : ℕ := 56

/-- `pread_prepare_ringbuf`. -/
abbrev PrepareRingbuf (header : ℕ) : Type :=
  RingBuffer PreadPrepareInfo (fun _ => infoSize + header) 1024

/-- The probes and the ring buffer; `accepted` remembers every record that it has taken. -/
structure Stores (header : ℕ) where
  globals : Globals
  ring : PrepareRingbuf header
  accepted : List PreadPrepareInfo

/-- A probe runs, or the consumer takes records. -/
inductive Pace
  | probe (pid : BitVec 32) (e : Event)
  | consume (n : ℕ)
deriving DecidableEq, Repr

/-- The probes with the ring buffer that they write to. -/
def stores (header : ℕ) : Machine (Stores header) Pace Unit where
  step s
    | .probe pid e =>
      let r := s.ring.outputAll (Report.prepares ⟨pid, e, (hook s.globals pid e).2⟩)
      ⟨(hook s.globals pid e).1, r.1, s.accepted ++ r.2⟩
    | .consume n => { s with ring := s.ring.consume n }
  out _ _ := []

/-- The state before the first event. -/
def Stores.initial (header : ℕ) : Stores header := ⟨User.initial, .empty, []⟩

/-- The records of a process. -/
def recordsOf (pid : BitVec 32) (infos : List PreadPrepareInfo) : List PreadPrepareInfo :=
  infos.filter fun info => info.pid = pid

/-- What a process is told is in the records of it that were accepted. -/
structure BackedFor (g : Globals) (infos : List PreadPrepareInfo) (pid : BitVec 32) : Prop where
  total : ((g.fdInfoMap.lookup pid).elim 0 fun i => i.totalBytesToRead.toNat) =
    ((recordsOf pid infos).map fun info => info.size.toNat).sum % 2 ^ 64
  count : ((g.fdInfoMap.lookup pid).elim 0 fun i => i.batchedPreads.toNat) =
    (recordsOf pid infos).length % 2 ^ 64

/-- What the processes are told is in the accepted records. -/
def Backed {header : ℕ} (s : Stores header) : Prop := ∀ pid, BackedFor s.globals s.accepted pid

/-- The ring buffer takes an accepted read exactly if the map does. -/
def TakenAlike {header : ℕ} (s : Stores header) : Pace → Prop
  | .probe pid (.preadRaw fd offset _ _ toRead) => s.globals.overridden = true →
      (s.ring.Fits (recordOf pid s.globals.globalSeq fd offset toRead) ↔
        s.globals.fdInfoMap.Accepts pid)
  | _ => True

/-! ## One read -/

section Read

variable {g g' : Globals} {infos : List PreadPrepareInfo} {pid q : BitVec 32}

theorem recordsOf_concat (infos : List PreadPrepareInfo) (info : PreadPrepareInfo) :
    recordsOf pid (infos ++ [info]) =
      recordsOf pid infos ++ if info.pid = pid then [info] else [] := by
  by_cases h : info.pid = pid <;> simp [recordsOf, h]

/-- The counts of a process depend on its entry and its records only. -/
theorem BackedFor.congr {infos' : List PreadPrepareInfo}
    (hmap : g'.fdInfoMap.lookup q = g.fdInfoMap.lookup q)
    (hinfos : recordsOf q infos' = recordsOf q infos) :
    BackedFor g' infos' q ↔ BackedFor g infos q := by
  constructor <;> rintro ⟨htotal, hcount⟩
  · exact ⟨by rw [← hmap, ← hinfos]; exact htotal, by rw [← hmap, ← hinfos]; exact hcount⟩
  · exact ⟨by rw [hmap, hinfos]; exact htotal, by rw [hmap, hinfos]; exact hcount⟩

/-- What the map holds for a process whose read it takes. -/
theorem lookup_count {fd : BitVec 32} {toRead : BitVec 64} (h : g.fdInfoMap.Accepts pid) :
    (g.count pid fd toRead).lookup pid =
      some ⟨((g.fdInfoMap.lookup pid).elim 0 FdInfo.totalBytesToRead) + toRead,
        ((g.fdInfoMap.lookup pid).elim 0 FdInfo.batchedPreads) + 1, fd⟩ := by
  cases hlookup : g.fdInfoMap.lookup pid with
  | none =>
    rw [lookup_count_none hlookup h, Option.elim_none, Option.elim_none]
    simp
  | some i =>
    rw [lookup_count_some hlookup]
    rfl

/-- What the map holds for a process that it refuses. -/
theorem lookup_count_refused (h : ¬ g.fdInfoMap.Accepts pid) (fd : BitVec 32)
    (toRead : BitVec 64) :
    (g.count pid fd toRead).lookup pid = none ∧ g.fdInfoMap.lookup pid = none := by
  have hnone : g.fdInfoMap.lookup pid = none := by
    cases hlookup : g.fdInfoMap.lookup pid with
    | none => rfl
    | some i => exact absurd (HashMap.accepts_of_lookup hlookup) h
  refine ⟨?_, hnone⟩
  unfold Globals.count
  rw [hnone]
  dsimp only
  rw [HashMap.update_of_not_accepts h]
  exact hnone

theorem elim_toNat {o : Option FdInfo} {f : FdInfo → BitVec 64} :
    (o.elim 0 fun i => (f i).toNat) = (o.elim 0 f).toNat := by
  cases o <;> rfl

/-- Both stores take the read. -/
theorem BackedFor.taken {info : PreadPrepareInfo} {i : FdInfo} (h : BackedFor g infos pid)
    (hpid : info.pid = pid) (hmap : g'.fdInfoMap.lookup pid = some i)
    (htotal : i.totalBytesToRead =
      (g.fdInfoMap.lookup pid).elim 0 FdInfo.totalBytesToRead + info.size)
    (hcount : i.batchedPreads = (g.fdInfoMap.lookup pid).elim 0 FdInfo.batchedPreads + 1) :
    BackedFor g' (infos ++ [info]) pid := by
  have hold := h.total
  have hcold := h.count
  rw [elim_toNat] at hold hcold
  constructor
  · rw [hmap, recordsOf_concat, if_pos hpid, List.map_append, List.sum_append]
    show i.totalBytesToRead.toNat = (_ + (info.size.toNat + 0)) % 2 ^ 64
    rw [htotal, BitVec.toNat_add, hold, Nat.mod_add_mod, Nat.add_zero]
  · rw [hmap, recordsOf_concat, if_pos hpid, List.length_append]
    show i.batchedPreads.toNat = (_ + 1) % 2 ^ 64
    rw [hcount, BitVec.toNat_add, hcold]
    exact Nat.mod_add_mod _ _ _

/-- Only the ring buffer takes the read: its record is counted nowhere. -/
theorem BackedFor.not_uncounted {info : PreadPrepareInfo} (h : BackedFor g infos pid)
    (hpid : info.pid = pid) (hmap : g'.fdInfoMap.lookup pid = g.fdInfoMap.lookup pid) :
    ¬ BackedFor g' (infos ++ [info]) pid := by
  rintro ⟨-, hcount⟩
  have hold := h.count
  rw [hmap, hold, recordsOf_concat, if_pos hpid, List.length_append,
    List.length_singleton] at hcount
  omega

/-- Only the map takes the read: its count has no record. -/
theorem BackedFor.not_unrecorded {i : FdInfo} (h : BackedFor g infos pid)
    (hmap : g'.fdInfoMap.lookup pid = some i)
    (hcount : i.batchedPreads = (g.fdInfoMap.lookup pid).elim 0 FdInfo.batchedPreads + 1) :
    ¬ BackedFor g' infos pid := by
  rintro ⟨-, hnew⟩
  have hold := h.count
  rw [elim_toNat] at hold
  rw [hmap, Option.elim_some, hcount, BitVec.toNat_add, hold] at hnew
  change (_ + 1) % 2 ^ 64 = _ at hnew
  omega

end Read

section Step

variable {header : ℕ} {s : Stores header} {pid : BitVec 32}

/-- A probe that gives the stores nothing leaves the counts alone. -/
theorem backed_quiet (hs : Backed s) {e : Event}
    (hmap : (hook s.globals pid e).1.fdInfoMap = s.globals.fdInfoMap)
    (hnone : Report.prepares ⟨pid, e, (hook s.globals pid e).2⟩ = []) :
    Backed ((stores header).step s (.probe pid e)) := by
  unfold stores
  dsimp only
  rw [hnone, RingBuffer.outputAll_nil]
  intro q
  exact (BackedFor.congr (by rw [hmap]) (by rw [List.append_nil])).mpr (hs q)

/-- The state after an accepted read. -/
theorem step_accept (ho : s.globals.overridden = true) (fd : BitVec 32)
    (offset res bpfOverride toRead : BitVec 64) :
    let info := recordOf pid s.globals.globalSeq fd offset toRead
    (stores header).step s (.probe pid (.preadRaw fd offset res bpfOverride toRead)) =
      ⟨{ s.globals with
          globalSeq := s.globals.globalSeq + 1
          fdInfoMap := s.globals.count pid fd toRead },
        s.ring.output info, s.accepted ++ if s.ring.Fits info then [info] else []⟩ := by
  obtain ⟨⟨overridden, globalSeq, fdInfoMap⟩, ring, accepted⟩ := s
  cases ho
  rfl

/-- **One read.** -/
theorem backed_accept (hs : Backed s) (ho : s.globals.overridden = true) (fd : BitVec 32)
    (offset res bpfOverride toRead : BitVec 64) :
    Backed ((stores header).step s (.probe pid (.preadRaw fd offset res bpfOverride toRead))) ↔
      (s.ring.Fits (recordOf pid s.globals.globalSeq fd offset toRead) ↔
        s.globals.fdInfoMap.Accepts pid) := by
  rw [step_accept ho]
  generalize hinfo : recordOf pid s.globals.globalSeq fd offset toRead = info
  have hpid : info.pid = pid := by rw [← hinfo]; rfl
  have hsize : info.size = toRead := by rw [← hinfo]; rfl
  -- the other processes keep their entries and their records
  have hothers : ∀ infos, infos = [info] ∨ infos = [] → ∀ q, q ≠ pid →
      BackedFor { s.globals with
        globalSeq := s.globals.globalSeq + 1, fdInfoMap := s.globals.count pid fd toRead }
        (s.accepted ++ infos) q := by
    intro infos hinfos q hq
    refine (BackedFor.congr (lookup_count_of_ne hq) ?_).mpr (hs q)
    rcases hinfos with rfl | rfl
    · rw [recordsOf_concat, if_neg (fun h => hq (h.symm.trans hpid)), List.append_nil]
    · rw [List.append_nil]
  dsimp only
  by_cases hfits : s.ring.Fits info <;> by_cases haccepts : s.globals.fdInfoMap.Accepts pid
  · rw [if_pos hfits]
    refine iff_of_true (fun q => ?_) (iff_of_true hfits haccepts)
    by_cases hq : q = pid
    · subst hq
      exact (hs q).taken hpid (lookup_count haccepts) (by rw [hsize]) rfl
    · exact hothers _ (Or.inl rfl) q hq
  · rw [if_pos hfits]
    refine iff_of_false (fun h => ?_) fun h => haccepts (h.mp hfits)
    obtain ⟨hnew, hold⟩ := lookup_count_refused haccepts fd toRead
    exact (hs pid).not_uncounted hpid (hnew.trans hold.symm) (h pid)
  · rw [if_neg hfits, List.append_nil]
    refine iff_of_false (fun h => ?_) fun h => hfits (h.mpr haccepts)
    exact (hs pid).not_unrecorded (lookup_count haccepts) rfl (h pid)
  · rw [if_neg hfits]
    refine iff_of_true (fun q => ?_) (iff_of_false hfits haccepts)
    by_cases hq : q = pid
    · subst hq
      obtain ⟨hnew, hold⟩ := lookup_count_refused haccepts fd toRead
      rw [List.append_nil]
      exact (BackedFor.congr (hnew.trans hold.symm) rfl).mpr (hs q)
    · exact hothers _ (Or.inr rfl) q hq

theorem backed_step (hs : Backed s) (a : Pace) :
    Backed ((stores header).step s a) ↔ TakenAlike s a := by
  cases a with
  | consume n => exact iff_of_true hs trivial
  | probe pid e =>
    cases e with
    | readS isTarget n toBuf isOverridden =>
      refine iff_of_true (backed_quiet hs ?_ ?_) trivial
      · cases isTarget <;> rfl
      · cases isTarget <;> rfl
    | preadRaw fd offset res bpfOverride toRead =>
      cases ho : s.globals.overridden with
      | true =>
        rw [backed_accept hs ho]
        exact ⟨fun h _ => h, fun h => h ho⟩
      | false =>
        have hskip : hook s.globals pid (.preadRaw fd offset res bpfOverride toRead) =
            (s.globals, []) := if_pos ho
        refine iff_of_true (backed_quiet hs (by rw [hskip]) (by rw [hskip]; rfl)) fun h => ?_
        exact absurd (ho.symm.trans h) Bool.false_ne_true
    | batchSubmit bytesRead =>
      refine iff_of_true (backed_quiet hs ?_ ?_) trivial <;>
        · unfold hook batchSubmit
          cases s.globals.fdInfoMap.lookup pid with
          | none => rfl
          | some i => cases s.globals.overridden <;> rfl

end Step

/-! ## Runs -/

theorem backed_initial (header : ℕ) : Backed (Stores.initial header) := fun _ => ⟨rfl, rfl⟩

/-- **Backed reads.** At whatever pace the consumer goes, the counts of every process are those of
its accepted records throughout a run in which the ring buffer and the map take the same accepted
reads, and in no other. -/
theorem backed_iff (header : ℕ) (acts : List Pace) :
    (stores header).Steps (fun s a => Backed ((stores header).step s a))
        (Stores.initial header) acts ↔
      (stores header).Steps TakenAlike (Stores.initial header) acts := by
  apply (stores header).steps_iff_of_invariant (I := Backed) _ _ (backed_initial header)
  · intro s a hs
    exact backed_step hs a
  · intro s a hs ha
    exact (backed_step hs a).mpr ha

/-- One `readS` and `n` reads of process 7 that all ask for 100 bytes. -/
def reads (n : ℕ) : List Pace :=
  .probe 7 (.readS true 100 0 0) :: List.replicate n (.probe 7 (.preadRaw 3 0 0 0 100))

/-- With headers of 8 bytes the ring buffer has room for 16 records and the process is told of
17 reads. -/
theorem not_backed_seventeen :
    ¬ (stores 8).Steps (fun s a => Backed ((stores 8).step s a)) (Stores.initial 8) (reads 17) := by
  intro h
  have hlast := ((stores 8).steps_concat _ _ (reads 16) (.probe 7 (.preadRaw 3 0 0 0 100))).mp h
  have hcount := (hlast.2 7).count
  revert hcount
  decide

end ClickhouseUring.User
