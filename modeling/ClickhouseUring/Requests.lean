import ClickhouseUring.Batch.Probes
import ClickhouseUring.User.Consumer

/-!
# The reads on the ring and the reads asked for

A `preadRaw` that a pipeline accepts asks for a length at an offset of a file; where the bytes
should go the latest `readS` of the process has said.  The probe of `user.bpf.c` puts the offset
where the destination should be and leaves the offset zero, and `batch.bpf.c` passes the constant
zero as offset.  So the reads on the ring are those asked for exactly when every offset is zero
and, in the first pipeline, so is the destination (`prepared_eq_asked_iff`).

In `batch.bpf.c` the destination survives as long as no read is numbered with the pid of another
process (`Batch.prepared_eq_asked_iff_zeroOffset`).
-/

namespace ClickhouseUring

open Uring

/-- A read: where the bytes are and where they go.  A read that no `readS` of its process came
before has no destination. -/
structure Request where
  fd : BitVec 32
  dest : Option (BitVec 64)
  len : ℕ
  offset : BitVec 64
deriving DecidableEq, Repr

/-! ## `user.bpf.c` and `user.c` -/

namespace User

/-- The buffer that a `readS` of `P` announces. -/
def Report.target (P : BitVec 32) (r : Report) : Option (BitVec 64) :=
  match r.event with
  | .readS _ _ toBuf _ => if r.pid = P then some toBuf else none
  | _ => none

/-- The buffer of the latest `readS` of `P`. -/
def latestTo (P : BitVec 32) (tr : List Report) : Option (BitVec 64) :=
  (tr.filterMap (Report.target P)).getLast?

/-- The read that an accepted `preadRaw` asks for. -/
def asks (past : List Report) (r : Report) : List Request :=
  match r.event, r.outputs with
  | .preadRaw fd offset _ _ toRead, _ :: _ => [⟨fd, latestTo r.pid past, toRead.toNat, offset⟩]
  | _, _ => []

/-- The reads that the accepted calls of a run ask for. -/
def asked (tr : List Report) : List Request := Machine.readings asks [] tr

def Read.request (r : Read) : Request := ⟨r.fd, some r.dest, r.nbytes.toNat, r.offset⟩

/-- The consumer after `handle_pread_prepare` on every record, with an entry free each time. -/
def prepareAll (c : Consumer) (infos : List PreadPrepareInfo) : Consumer :=
  infos.foldl (fun c info => processPreadPrepareInfo c info true) c

/-- The reads that the records of a run put on the ring of the consumer. -/
def prepared (tr : List Report) : List Request :=
  (prepareAll ⟨.empty, 0⟩ (preparesOf tr)).ring.queued.map fun q => q.op.request

/-- An accepted `preadRaw` is for the start of the file, for less than 4 GiB, and into the buffer
at address 0. -/
def NullRead (p : Globals × List Report) : BitVec 32 × Event → Prop
  | (pid, .preadRaw _ offset _ _ toRead) => p.1.overridden = true →
      offset = 0 ∧ latestTo pid p.2 = some 0 ∧ toRead.toNat < 2 ^ 32
  | _ => True

instance (p : Globals × List Report) : DecidablePred (NullRead p)
  | (_, .preadRaw ..) => inferInstanceAs (Decidable (_ → _ ∧ _ ∧ _))
  | (_, .readS ..) => inferInstanceAs (Decidable True)
  | (_, .batchSubmit _) => inferInstanceAs (Decidable True)

/-- The reads that one report puts on the ring. -/
def prepares (r : Report) : List Request :=
  r.prepares.map fun info => (prepRead info).request

theorem queued_prepareAll (c : Consumer) (infos : List PreadPrepareInfo) :
    (prepareAll c infos).ring.queued =
      c.ring.queued ++ infos.map fun info => ⟨prepRead info, true⟩ := by
  induction infos generalizing c with
  | nil => exact (List.append_nil _).symm
  | cons info infos ih =>
    have h : prepareAll c (info :: infos) =
      prepareAll (processPreadPrepareInfo c info true) infos := rfl
    rw [h, ih, List.map_cons, ← List.singleton_append, ← List.append_assoc]
    rfl

theorem prepared_eq_readings (tr : List Report) :
    prepared tr = Machine.readings (fun _ => prepares) [] tr := by
  unfold prepared preparesOf prepares
  rw [queued_prepareAll, Machine.readings_eq_flatMap, List.map_append, List.map_map,
    List.map_flatMap]
  rfl

/-- **One event.** It puts on the ring what it asks for exactly when it is a `NullRead`. -/
theorem prepares_eq_asks_iff (p : Globals × List Report) (e : BitVec 32 × Event) :
    prepares ⟨e.1, e.2, (hook p.1 e.1 e.2).2⟩ = asks p.2 ⟨e.1, e.2, (hook p.1 e.1 e.2).2⟩ ↔
      NullRead p e := by
  obtain ⟨pid, e⟩ := e
  have ha := hook_acts p.1 pid e
  generalize (hook p.1 pid e).1 = g', (hook p.1 pid e).2 = outs at ha
  cases ha with
  | decides => exact iff_of_true rfl trivial
  | skip h => exact iff_of_true rfl fun ho => Bool.noConfusion (h.symm.trans ho)
  | unknown h => exact iff_of_true rfl trivial
  | dismiss h ho => exact iff_of_true rfl trivial
  | report h ho => exact iff_of_true rfl trivial
  | @accept fd offset res bpfOverride toRead h =>
    show [Request.mk fd (some offset) (toRead.setWidth 32).toNat 0] =
      [⟨fd, latestTo pid p.2, toRead.toNat, offset⟩] ↔ _
    rw [BitVec.toNat_setWidth, List.singleton_inj, Request.mk.injEq]
    constructor
    · rintro ⟨-, hdest, hlen, rfl⟩ -
      exact ⟨rfl, hdest.symm, by omega⟩
    · intro hnull
      obtain ⟨rfl, hdest, hlen⟩ := hnull h
      exact ⟨rfl, hdest.symm, Nat.mod_eq_of_lt hlen, rfl⟩

theorem length_prepares_eq (g : Globals) (past : List Report) (e : BitVec 32 × Event) :
    (prepares ⟨e.1, e.2, (hook g e.1 e.2).2⟩).length =
      (asks past ⟨e.1, e.2, (hook g e.1 e.2).2⟩).length := by
  obtain ⟨pid, e⟩ := e
  have ha := hook_acts g pid e
  generalize (hook g pid e).1 = g', (hook g pid e).2 = outs at ha
  cases ha <;> rfl

/-- **The first pipeline.** -/
theorem prepared_eq_asked_iff_null (evs : List (BitVec 32 × Event)) :
    prepared (probes.trace initial evs) = asked (probes.trace initial evs) ↔
      probes.recorded.Steps NullRead (initial, []) evs := by
  rw [prepared_eq_readings]
  apply probes.readings_trace_eq_iff (E := fun _ => True) _ _ (fun _ _ => trivial)
  · intro g past e _
    unfold probes
    rw [Machine.readings_singleton, Machine.readings_singleton]
    exact length_prepares_eq g past e
  · intro g past e _
    unfold probes
    rw [Machine.readings_singleton, Machine.readings_singleton]
    exact prepares_eq_asks_iff (g, past) e

end User

/-! ## `batch.bpf.c` -/

namespace Batch

/-- The buffer that a `readS` of `P` announces. -/
def Report.target (P : BitVec 32) (r : Report) : Option (BitVec 64) :=
  match r.event with
  | .readS _ toBuf _ _ => if r.pid = P then some toBuf else none
  | _ => none

/-- The buffer of the latest `readS` of `P`. -/
def latestTo (P : BitVec 32) (tr : List Report) : Option (BitVec 64) :=
  (tr.filterMap (Report.target P)).getLast?

/-- The read that an accepted `preadRaw` asks for; one that is not accepted calls no helper. -/
def asks (past : List Report) (r : Report) : List Request :=
  match r.event, r.outputs with
  | .preadRaw fd offset _ _ toRead _, _ :: _ :: _ =>
    [⟨fd, latestTo r.pid past, toRead.toNat, offset⟩]
  | _, _ => []

/-- The reads that the accepted calls of a run ask for. -/
def asked (tr : List Report) : List Request := Machine.readings asks [] tr

def Pread.request (r : Pread) : Request := ⟨r.fd, some r.dest, r.size.toNat, r.offset⟩

/-- The reads that a report puts on the ring. -/
def prepares (r : Report) : List Request :=
  r.outputs.filterMap fun
    | .helper (.push op true) => some op.request
    | _ => none

/-- The reads that a run puts on the ring. -/
def prepared (tr : List Report) : List Request := tr.flatMap prepares

/-- The submit helper, should it be called, succeeds. -/
def Event.Succeeds : Event → Prop
  | .preadRaw _ _ _ _ _ ret => ret = 0
  | _ => True

/-- An accepted `preadRaw` is for the start of the file. -/
def ZeroOffset (p : Globals × List Report) : BitVec 32 × Event → Prop
  | (pid, .preadRaw _ offset _ _ _ _) => (p.1.preadSubmitMap.lookup pid).isSome → offset = 0
  | _ => True

/-- The entry that an accepted `preadRaw` finds has the buffer of the latest `readS` of its
process. -/
def OwnBuffer (p : Globals × List Report) : BitVec 32 × Event → Prop
  | (pid, .preadRaw ..) => ∀ info, p.1.preadSubmitMap.lookup pid = some info →
      latestTo pid p.2 = some info.dest
  | _ => True

theorem prepares_report {pid : BitVec 32} {bytesRead n : BitVec 64} :
    prepares ⟨pid, .batchSubmit bytesRead, .writeSize bytesRead n :: handleBatchedOps⟩ = [] := by
  unfold prepares
  rw [List.filterMap_eq_nil_iff]
  intro o ho
  rcases List.mem_cons.mp ho with rfl | ho
  · rfl
  rcases List.mem_cons.mp ho with rfl | ho
  · rfl
  · rw [List.eq_of_mem_replicate ho]

/-- **One event.** It puts on the ring what it asks for exactly when the offset is zero and the
buffer the process's own. -/
theorem prepares_eq_asks_iff (p : Globals × List Report) (e : BitVec 32 × Event)
    (hok : e.2.Succeeds) :
    prepares ⟨e.1, e.2, (hook p.1 e.1 e.2).2⟩ = asks p.2 ⟨e.1, e.2, (hook p.1 e.1 e.2).2⟩ ↔
      ZeroOffset p e ∧ OwnBuffer p e := by
  obtain ⟨pid, e⟩ := e
  have ha := hook_acts p.1 pid e
  generalize (hook p.1 pid e).1 = g', (hook p.1 pid e).2 = outs at ha
  cases ha with
  | main => exact iff_of_true rfl ⟨trivial, trivial⟩
  | readS => exact iff_of_true rfl ⟨trivial, trivial⟩
  | silent h => exact iff_of_true rfl ⟨trivial, trivial⟩
  | report h => exact iff_of_true prepares_report ⟨trivial, trivial⟩
  | unknown h =>
    refine iff_of_true rfl ⟨fun hs => ?_, fun info hi => ?_⟩
    · rw [h] at hs
      exact Bool.noConfusion hs
    · rw [h] at hi
      exact absurd hi (by simp)
  | @accept fd offset res bpfOverride toRead ret info h =>
    obtain rfl : ret = 0 := hok
    show [Request.mk fd (some info.dest) toRead.toNat 0] =
      [⟨fd, latestTo pid p.2, toRead.toNat, offset⟩] ↔ _
    rw [List.singleton_inj, Request.mk.injEq]
    constructor
    · rintro ⟨-, hdest, -, rfl⟩
      refine ⟨fun _ => rfl, fun info' h' => ?_⟩
      obtain rfl := Option.some.inj (h.symm.trans h')
      exact hdest.symm
    · rintro ⟨hzero, hown⟩
      have h0 : offset = 0 := hzero (by rw [h]; rfl)
      exact ⟨rfl, (hown info h).symm, rfl, h0.symm⟩

theorem length_prepares_eq (g : Globals) (past : List Report) (e : BitVec 32 × Event)
    (hok : e.2.Succeeds) :
    (prepares ⟨e.1, e.2, (hook g e.1 e.2).2⟩).length =
      (asks past ⟨e.1, e.2, (hook g e.1 e.2).2⟩).length := by
  obtain ⟨pid, e⟩ := e
  have ha := hook_acts g pid e
  generalize (hook g pid e).1 = g', (hook g pid e).2 = outs at ha
  cases ha with
  | main => rfl
  | readS => rfl
  | silent h => rfl
  | report h => exact congrArg List.length prepares_report
  | unknown h => rfl
  | @accept fd offset res bpfOverride toRead ret info h =>
    obtain rfl : ret = 0 := hok
    rfl

/-- **The second pipeline.** -/
theorem prepared_eq_asked_iff_own (evs : List (BitVec 32 × Event))
    (hok : ∀ e ∈ evs, e.2.Succeeds) :
    prepared (probes.trace initial evs) = asked (probes.trace initial evs) ↔
      probes.recorded.Steps (fun p e => ZeroOffset p e ∧ OwnBuffer p e) (initial, []) evs := by
  unfold prepared
  rw [← Machine.readings_eq_flatMap prepares []]
  apply probes.readings_trace_eq_iff _ _ hok
  · intro g past e he
    unfold probes
    rw [Machine.readings_singleton, Machine.readings_singleton]
    exact length_prepares_eq g past e he
  · intro g past e he
    unfold probes
    rw [Machine.readings_singleton, Machine.readings_singleton]
    exact prepares_eq_asks_iff (g, past) e he

/-! ### Sequence numbers and pids -/

/-- The number of an accepted read is the pid of no other process. -/
def Separate (pids : List (BitVec 32)) (p : Globals × List Report) : BitVec 32 × Event → Prop
  | (pid, .preadRaw ..) => (p.1.preadSubmitMap.lookup pid).isSome →
      p.1.globalSeq ∈ pids → p.1.globalSeq = pid
  | _ => True

/-- The same, or the map refuses an entry under that number. -/
def Apart (pids : List (BitVec 32)) (p : Globals × List Report) : BitVec 32 × Event → Prop
  | (pid, .preadRaw ..) => (p.1.preadSubmitMap.lookup pid).isSome →
      p.1.globalSeq ∈ pids → p.1.preadSubmitMap.Accepts p.1.globalSeq → p.1.globalSeq = pid
  | _ => True

/-- The entry of a process has the buffer of its latest `readS`. -/
def Stored (pids : List (BitVec 32)) (p : Globals × List Report) : Prop :=
  ∀ P ∈ pids, ∀ info, p.1.preadSubmitMap.lookup P = some info → latestTo P p.2 = some info.dest

section Stored

variable {pids : List (BitVec 32)} {p : Globals × List Report} {P : BitVec 32}

theorem latestTo_concat (tr : List Report) (r : Report) :
    latestTo P (tr ++ [r]) = (r.target P).or (latestTo P tr) := by
  unfold latestTo
  rw [List.filterMap_append]
  cases h : r.target P with
  | none => rw [List.filterMap_cons_none h, List.filterMap_nil, List.append_nil]; rfl
  | some toBuf =>
    rw [List.filterMap_cons_some h, List.filterMap_nil, List.getLast?_concat]; rfl

/-- An update that is refused leaves no entry under its key. -/
theorem dest_of_lookup_update {m : HashMap (BitVec 32) PreadSubmitInfo 10000}
    {info v : PreadSubmitInfo} (h : (m.update P v).lookup P = some info) : info = v := by
  by_cases ha : m.Accepts P
  · rw [HashMap.lookup_update_self ha] at h
    exact (Option.some.inj h).symm
  · rw [HashMap.update_of_not_accepts ha] at h
    exact absurd (HashMap.accepts_of_lookup h) ha

theorem apart_of_separate {e : BitVec 32 × Event} (h : Separate pids p e) : Apart pids p e := by
  obtain ⟨pid, e⟩ := e
  cases e with
  | preadRaw fd offset res bpfOverride toRead ret => exact fun hs hmem _ => h hs hmem
  | mainEntry => trivial
  | readS n toBuf isOverridden bytesCopied => trivial
  | batchSubmit bytesRead => trivial

/-- What an accepted read of `pid` does to the entries of the processes `pids`. -/
theorem lookup_submitted {g : Globals} {pid : BitVec 32} {i info : PreadSubmitInfo}
    (hi : g.preadSubmitMap.lookup pid = some i)
    (hseq : info.seqNum ∈ pids → g.preadSubmitMap.Accepts info.seqNum → info.seqNum = pid)
    (hP : P ∈ pids) : (g.submitted pid info).lookup P =
      if P = pid then some info else g.preadSubmitMap.lookup P := by
  have hself : (g.preadSubmitMap.modify pid fun _ => info).lookup pid = some info := by
    rw [HashMap.lookup_modify_self, hi]; rfl
  have hmodify : (g.preadSubmitMap.modify pid fun _ => info).lookup P =
      if P = pid then some info else g.preadSubmitMap.lookup P := by
    split_ifs with hpid
    · rw [hpid, hself]
    · rw [HashMap.lookup_modify_of_ne _ hpid]
  unfold Globals.submitted
  by_cases ha : (g.preadSubmitMap.modify pid fun _ => info).Accepts info.seqNum
  · by_cases hs : P = info.seqNum
    · have hpid : P = pid := hs.trans (hseq (hs ▸ hP) ha)
      rw [if_pos hpid, ← hs, HashMap.lookup_update_self (hs ▸ ha)]
    · rw [HashMap.lookup_update_of_ne _ hs, hmodify]
  · rw [HashMap.update_of_not_accepts ha, hmodify]

theorem stored_step (hp : Stored pids p) {e : BitVec 32 × Event} (he : Apart pids p e) :
    Stored pids (probes.recorded.step p e) := by
  obtain ⟨g, tr⟩ := p
  obtain ⟨pid, e⟩ := e
  have ha := hook_acts g pid e
  rw [Machine.recorded_step]
  unfold probes
  dsimp only
  generalize (hook g pid e).1 = g', (hook g pid e).2 = outs at ha
  intro P hP info hinfo
  rw [latestTo_concat]
  cases ha with
  | main => exact hp P hP info hinfo
  | silent h => exact hp P hP info hinfo
  | report h => exact hp P hP info hinfo
  | unknown h => exact hp P hP info hinfo
  | @readS n toBuf isOverridden bytesCopied =>
    unfold Report.target
    dsimp only at hinfo ⊢
    by_cases hpid : pid = P
    · subst hpid
      rw [if_pos rfl, dest_of_lookup_update hinfo]
      rfl
    · rw [HashMap.lookup_update_of_ne _ (Ne.symm hpid)] at hinfo
      rw [if_neg hpid]
      exact hp P hP info hinfo
  | @accept fd offset res bpfOverride toRead ret i h =>
    have hseq := he (by rw [h]; rfl)
    dsimp only at hinfo
    rw [lookup_submitted h hseq hP] at hinfo
    split_ifs at hinfo with hpid
    · subst hpid
      obtain rfl := Option.some.inj hinfo
      exact hp P hP i h
    · exact hp P hP info hinfo

theorem ownBuffer_of_stored (hp : Stored pids p) {e : BitVec 32 × Event} (he : e.1 ∈ pids) :
    OwnBuffer p e := by
  obtain ⟨pid, e⟩ := e
  cases e with
  | preadRaw fd offset res bpfOverride toRead ret => exact fun info h => hp pid he info h
  | mainEntry => trivial
  | readS n toBuf isOverridden bytesCopied => trivial
  | batchSubmit bytesRead => trivial

end Stored

/-- **Separate numbers.** In a run in which no read is numbered with the pid of another process of
the run, the reads on the ring are those asked for exactly when every offset is zero. -/
theorem prepared_eq_asked_iff_zeroOffset (evs : List (BitVec 32 × Event))
    (hok : ∀ e ∈ evs, e.2.Succeeds)
    (hsep : probes.recorded.Steps (Separate (evs.map Prod.fst)) (initial, []) evs) :
    prepared (probes.trace initial evs) = asked (probes.trace initial evs) ↔
      probes.recorded.Steps ZeroOffset (initial, []) evs := by
  have hmem : probes.recorded.Steps (fun _ e => e.1 ∈ evs.map Prod.fst) (initial, []) evs :=
    probes.recorded.steps_of_forall_mem fun e he => List.mem_map_of_mem he
  rw [prepared_eq_asked_iff_own evs hok]
  apply probes.recorded.steps_iff (I := Stored (evs.map Prod.fst)) _ _ _ (hsep.and _ hmem)
  · intro p e hp he
    exact and_iff_left (ownBuffer_of_stored hp he.2)
  · intro p e hp he _
    exact stored_step hp (apart_of_separate he.1)
  · intro P _ info h
    exact absurd h (by simp [initial])

end Batch

/-! ## Both pipelines -/

/-- **Reads on the ring.** In either pipeline they are those asked for, in order and one for one,
exactly when every accepted read is for offset zero and: in the first, its length fits in 32 bits
and its destination is 0; in the second, the entry under the pid still has the destination, which it
does throughout a run in which no read is numbered with the pid of another process. -/
theorem prepared_eq_asked_iff (evs : List (BitVec 32 × User.Event))
    (evs' : List (BitVec 32 × Batch.Event)) (hok : ∀ e ∈ evs', e.2.Succeeds) :
    (User.prepared (User.probes.trace User.initial evs) =
        User.asked (User.probes.trace User.initial evs) ↔
      User.probes.recorded.Steps User.NullRead (User.initial, []) evs) ∧
    (Batch.prepared (Batch.probes.trace Batch.initial evs') =
        Batch.asked (Batch.probes.trace Batch.initial evs') ↔
      Batch.probes.recorded.Steps (fun p e => Batch.ZeroOffset p e ∧ Batch.OwnBuffer p e)
        (Batch.initial, []) evs') ∧
    (Batch.probes.recorded.Steps (Batch.Separate (evs'.map Prod.fst)) (Batch.initial, []) evs' →
      (Batch.prepared (Batch.probes.trace Batch.initial evs') =
          Batch.asked (Batch.probes.trace Batch.initial evs') ↔
        Batch.probes.recorded.Steps Batch.ZeroOffset (Batch.initial, []) evs')) :=
  ⟨User.prepared_eq_asked_iff_null evs, Batch.prepared_eq_asked_iff_own evs' hok,
    Batch.prepared_eq_asked_iff_zeroOffset evs' hok⟩

/-- A read of eight bytes at offset 0, in the first pipeline into the buffer at 0. -/
theorem prepared_eq_asked_at_zero :
    User.prepared (User.probes.trace User.initial
        [(7, .readS true 8 0 64), (7, .preadRaw 3 0 0 0 8)]) = [⟨3, some 0, 8, 0⟩] ∧
    Batch.prepared (Batch.probes.trace Batch.initial
        [(7, .readS 8 4096 0 0), (7, .preadRaw 3 0 0 0 8 0)]) = [⟨3, some 4096, 8, 0⟩] := by
  have h := prepared_eq_asked_iff [(7, .readS true 8 0 64), (7, .preadRaw 3 0 0 0 8)]
    [(7, .readS 8 4096 0 0), (7, .preadRaw 3 0 0 0 8 0)] (by simp [Batch.Event.Succeeds])
  constructor
  · rw [h.1.mpr (by decide)]
    decide
  · have hseparate : Batch.probes.recorded.Steps (Batch.Separate [7, 7]) (Batch.initial, [])
        [(7, .readS 8 4096 0 0), (7, .preadRaw 3 0 0 0 8 0)] :=
      ⟨trivial, fun _ hmem => absurd hmem (by decide), trivial⟩
    rw [(h.2.2 hseparate).mpr ⟨trivial, fun _ => rfl, trivial⟩]
    decide

/-- A read of eight bytes at offset 512, into the buffer at 4096. -/
theorem not_prepared_eq_asked :
    User.prepared (User.probes.trace User.initial
        [(7, .readS true 8 4096 64), (7, .preadRaw 3 512 0 0 8)]) ≠
      User.asked (User.probes.trace User.initial
        [(7, .readS true 8 4096 64), (7, .preadRaw 3 512 0 0 8)]) ∧
    Batch.prepared (Batch.probes.trace Batch.initial
        [(7, .readS 8 4096 0 0), (7, .preadRaw 3 512 0 0 8 0)]) ≠
      Batch.asked (Batch.probes.trace Batch.initial
        [(7, .readS 8 4096 0 0), (7, .preadRaw 3 512 0 0 8 0)]) := by
  constructor
  · decide
  · decide

end ClickhouseUring
