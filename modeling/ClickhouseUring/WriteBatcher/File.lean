import ClickhouseUring.Kit.Memory
import ClickhouseUring.Kit.Reorder
import ClickhouseUring.WriteBatcher.Hooks

/-!
# The file that deferred writes append to

The same program runs twice, with the probes and without.  A deferred write is appended when its
batch is submitted, in queue order; a write that the probe leaves alone is appended at once and so
overtakes the deferred ones.  The two files are equal whenever nothing is pending as long as no
write is left alone while a deferred one waits (`InOrder`), and for a single batch of writes from
separate buffers only then.
-/

namespace ClickhouseUring.WriteBatcher

open Uring Memory

/-- The program's memory and the file. -/
@[ext]
structure World where
  mem : ℕ → UInt8
  file : List UInt8

/-- What a call appends to the file. -/
def Call.data (mem : ℕ → UInt8) : Call → List UInt8
  | .write _ buf n => bytesAt mem buf.toNat n.toNat
  | .fsync _ => []

/-- The call, executed in full. -/
def perform (c : Call) (w : World) : World := { w with file := w.file ++ c.data w.mem }

/-- A store of the program. -/
def World.store (w : World) (addr : ℕ) (val : UInt8) : World :=
  { w with mem := Function.update w.mem addr val }

/-- The addresses of the call's buffer. -/
def Call.region : Call → Set ℕ
  | .write _ buf n => Set.Ico buf.toNat (buf.toNat + n.toNat)
  | .fsync _ => ∅

/-- A submission takes effect in queue order. -/
def appendBatch (b : List (Sqe Call)) (w : World) : World := execAll perform (b.map Sqe.op) w

/-- The run with the probes, and the world of the run without. -/
structure Twin where
  currentCount : Int
  ring : IoRing Call
  batched : World
  direct : World

/-- What the program does. -/
inductive Deed
  | call (c : Call)
  | store (addr : ℕ) (val : UInt8)

/-- A call whose return value is not overridden is executed after its hook. -/
def native (o : Outcome) (c : Call) (w : World) : World :=
  if o.override = none then perform c w else w

/-- The two runs side by side.  The submit helpers queue every call. -/
def twin : Machine Twin Deed Unit where
  step s
    | .call c =>
      let o := hook s.currentCount c
      ⟨o.currentCount, (s.ring.run o.cmds).getD s.ring,
        native o c (kernel appendBatch s.ring o.cmds s.batched), perform c s.direct⟩
    | .store addr val =>
      { s with batched := s.batched.store addr val, direct := s.direct.store addr val }
  out _ _ := []

/-- The state after `start`. -/
def Twin.started (w : World) : Twin :=
  ⟨WriteBatcher.started.currentCount, WriteBatcher.started.ring, w, w⟩

/-- The program does not store into the buffer of a pending call. -/
def Promise (s : Twin) : Deed → Prop
  | .call _ => True
  | .store addr _ => ∀ q ∈ s.ring.queued, addr ∉ q.op.region

/-- Whenever nothing is pending after the deed the two files are equal. -/
def Agrees (s : Twin) (d : Deed) : Prop :=
  (twin.step s d).currentCount = 0 → (twin.step s d).batched.file = (twin.step s d).direct.file

/-- A call that appends something. -/
def Call.Appends : Call → Prop
  | .write _ _ n => n ≠ 0
  | .fsync _ => False

/-- A write that is left alone and appends something finds no deferred write pending. -/
def InOrder (s : Twin) : Deed → Prop
  | .call c => ¬ c.Deferred → c.Appends → ∀ q ∈ s.ring.queued, ¬ q.op.Appends
  | .store _ _ => True

/-! ## One deed -/

theorem data_eq_nil {c : Call} (h : ¬ c.Appends) (mem : ℕ → UInt8) : c.data mem = [] := by
  cases c with
  | write fd buf n =>
    obtain rfl := not_not.mp h
    rfl
  | fsync fd => rfl

theorem data_update {c : Call} {x : ℕ} (h : x ∉ c.region) (mem : ℕ → UInt8) (v : UInt8) :
    c.data (Function.update mem x v) = c.data mem := by
  cases c with
  | write fd buf n => exact bytesAt_update v h
  | fsync fd => rfl

/-- Executing calls appends their bytes. -/
theorem execAll_perform (cs : List Call) (w : World) :
    execAll perform cs w = { w with file := w.file ++ cs.flatMap (Call.data w.mem) } := by
  induction cs generalizing w with
  | nil => rw [List.flatMap_nil, List.append_nil]; rfl
  | cons c cs ih =>
    show execAll perform cs (perform c w) = _
    rw [ih, List.flatMap_cons, ← List.append_assoc]
    rfl

theorem mem_execAll (cs : List Call) (w : World) : (execAll perform cs w).mem = w.mem := by
  rw [execAll_perform]

theorem file_execAll (cs : List Call) (w : World) :
    (execAll perform cs w).file = w.file ++ cs.flatMap (Call.data w.mem) := by
  rw [execAll_perform]

/-- What the pending calls will append. -/
def Twin.pending (s : Twin) : List UInt8 :=
  (s.ring.queued.map Sqe.op).flatMap (Call.data s.batched.mem)

/-- Nothing is in flight, and the counter is the length of the queue. -/
structure Counted (s : Twin) : Prop where
  reaped : s.ring.inflight = 0
  count_eq : s.currentCount = s.ring.queued.length

/-- Between deeds the direct file is ahead by the pending bytes. -/
structure Lag (s : Twin) : Prop extends Counted s where
  mem_eq : s.direct.mem = s.batched.mem
  file_eq : s.direct.file = s.batched.file ++ s.pending

theorem lag_started (w : World) : Lag (.started w) :=
  ⟨⟨rfl, rfl⟩, rfl, (List.append_nil _).symm⟩

/-- Everything a call can do to the two runs. -/
inductive Moves (s : Twin) (c : Call) : Twin → Prop
  | native (hc : ¬ c.Deferred) :
      Moves s c ⟨s.currentCount, s.ring, perform c s.batched, perform c s.direct⟩
  | queued (hc : c.Deferred) (h : s.currentCount < patchSize) :
      Moves s c ⟨s.currentCount + 1, s.ring.add ⟨c, false⟩, s.batched, perform c s.direct⟩
  | filled (hc : c.Deferred) (h : patchSize ≤ s.currentCount) :
      Moves s c ⟨0, .empty, appendBatch (s.ring.add ⟨c, false⟩).queued s.batched,
        perform c s.direct⟩

theorem queued_add (r : IoRing Call) (c : Call) :
    (r.add ⟨c, false⟩).queued.map Sqe.op = r.queued.map Sqe.op ++ [c] := List.map_append

theorem Counted.moves {s : Twin} (hs : Counted s) (c : Call) :
    Moves s c (twin.step s (.call c)) := by
  have hcount := hs.count_eq
  have ha := hook_acts s.currentCount c
  unfold twin native
  dsimp only
  generalize hook s.currentCount c = o at ha
  cases ha with
  | native hc => exact .native hc
  | queued hc h => exact .queued hc h
  | filled hc h =>
    have hall : (s.currentCount + 1).toNat = (s.ring.add ⟨c, false⟩).outstanding := by
      rw [IoRing.outstanding_add]
      unfold IoRing.outstanding
      rw [hs.reaped, hcount]
      rfl
    have hpush : s.ring.exec (.push c true) = some (s.ring.add ⟨c, false⟩) := rfl
    have hrun : s.ring.run (.push c true :: .submit ::
        List.replicate (s.currentCount + 1).toNat .wait) = some .empty := by
      rw [IoRing.run_cons, hpush, Option.bind_some, hall, IoRing.run_flush]
    have hker : kernel appendBatch s.ring (.push c true :: .submit ::
        List.replicate (s.currentCount + 1).toNat .wait) s.batched =
        appendBatch (s.ring.add ⟨c, false⟩).queued s.batched :=
      kernel_flush appendBatch (s.ring.add ⟨c, false⟩) _ s.batched
    rw [hrun, hker]
    exact .filled hc h

namespace Lag

variable {s : Twin}

/-- Executing the pending calls and one more appends the pending bytes and those of the call. -/
theorem appendBatch_add (hs : Lag s) (c : Call) :
    (appendBatch (s.ring.add ⟨c, false⟩).queued s.batched).file = (perform c s.direct).file := by
  have hfile := hs.file_eq
  unfold Twin.pending at hfile
  show _ = s.direct.file ++ c.data s.direct.mem
  rw [appendBatch, queued_add, file_execAll, hfile, hs.mem_eq, List.append_assoc,
    List.flatMap_append, List.flatMap_singleton]

/-- **One deed.** A deed in order keeps the direct file ahead by the pending bytes. -/
theorem step {d : Deed} (hs : Lag s) (hp : Promise s d) (ho : InOrder s d) :
    Lag (twin.step s d) := by
  have hmem := hs.mem_eq
  have hfile := hs.file_eq
  cases d with
  | call c =>
    have hm := hs.moves c
    generalize twin.step s (.call c) = t at hm
    cases hm with
    | native hc =>
      refine ⟨⟨hs.reaped, hs.count_eq⟩, hmem, ?_⟩
      show s.direct.file ++ c.data s.direct.mem =
        s.batched.file ++ c.data s.batched.mem ++ s.pending
      rw [hfile, hmem]
      by_cases hn : c.Appends
      · -- the deferred calls are all fsyncs, so nothing is overtaken
        have hnone : s.pending = [] := by
          refine List.flatMap_eq_nil_iff.mpr fun op hop => ?_
          obtain ⟨q, hq, rfl⟩ := List.mem_map.mp hop
          exact data_eq_nil (ho hc hn q hq) _
        rw [hnone, List.append_nil, List.append_nil]
      · rw [data_eq_nil hn, List.append_nil, List.append_nil]
    | queued hc h =>
      refine ⟨⟨hs.reaped, ?_⟩, hmem, ?_⟩
      · rw [hs.count_eq, IoRing.add, List.length_append, List.length_singleton]
        rfl
      · show s.direct.file ++ c.data s.direct.mem =
          s.batched.file ++ ((s.ring.add ⟨c, false⟩).queued.map Sqe.op).flatMap _
        rw [queued_add, List.flatMap_append, List.flatMap_singleton, hfile, hmem, List.append_assoc]
        rfl
    | filled hc h =>
      refine ⟨⟨rfl, rfl⟩, ?_, ?_⟩
      · exact hmem.trans (mem_execAll _ _).symm
      · rw [hs.appendBatch_add c]
        exact (List.append_nil _).symm
  | store addr val =>
    refine ⟨⟨hs.reaped, hs.count_eq⟩, ?_, ?_⟩
    · exact congrArg (Function.update · addr val) hmem
    · show s.direct.file = s.batched.file ++
        (s.ring.queued.map Sqe.op).flatMap (Call.data (Function.update s.batched.mem addr val))
      rw [hfile]
      unfold Twin.pending
      congr 1
      rw [List.flatMap_def, List.flatMap_def]
      congr 1
      refine List.map_congr_left fun op hop => ?_
      obtain ⟨q, hq, rfl⟩ := List.mem_map.mp hop
      exact (data_update (hp q hq) _ _).symm

/-- With the counter at 0 nothing is pending. -/
theorem files_eq (hs : Lag s) (h : s.currentCount = 0) : s.batched.file = s.direct.file := by
  have hcount := hs.count_eq
  have hnil : s.ring.queued = [] := List.length_eq_zero_iff.mp (by omega)
  have hfile := hs.file_eq
  unfold Twin.pending at hfile
  rw [hnil] at hfile
  exact (hfile.trans (List.append_nil _)).symm

end Lag

/-- Runs in order agree with the direct run whenever nothing is pending. -/
theorem agrees_of_inOrder {s : Twin} (hs : Lag s) {ds : List Deed}
    (h : twin.Steps (fun t d => Promise t d ∧ InOrder t d) s ds) : twin.Steps Agrees s ds := by
  apply twin.steps_of_invariant _ _ hs h
  · rintro t d ht ⟨hp, ho⟩
    exact (ht.step hp ho).files_eq
  · rintro t d ht ⟨hp, ho⟩
    exact ht.step hp ho

/-! ## One batch -/

/-- The deferred calls among `cs`. -/
def deferred (cs : List Call) : List Call := cs.filter fun c => decide c.Deferred

/-- The calls among `cs` that are left alone. -/
def immediate (cs : List Call) : List Call := cs.filter fun c => decide (¬ c.Deferred)

section Split

variable {c : Call} {cs : List Call}

theorem deferred_cons (hc : c.Deferred) : deferred (c :: cs) = c :: deferred cs :=
  List.filter_cons_of_pos (decide_eq_true hc)

theorem deferred_cons_of_not (hc : ¬ c.Deferred) : deferred (c :: cs) = deferred cs :=
  List.filter_cons_of_neg (by simpa using hc)

theorem immediate_cons (hc : c.Deferred) : immediate (c :: cs) = immediate cs :=
  List.filter_cons_of_neg (by simpa using hc)

theorem immediate_cons_of_not (hc : ¬ c.Deferred) : immediate (c :: cs) = c :: immediate cs :=
  List.filter_cons_of_pos (decide_eq_true hc)

theorem deferred_concat (hc : c.Deferred) : deferred (cs ++ [c]) = deferred cs ++ [c] := by
  rw [deferred, List.filter_append]
  exact congrArg (deferred cs ++ ·) (deferred_cons hc)

theorem immediate_concat (hc : c.Deferred) : immediate (cs ++ [c]) = immediate cs := by
  rw [immediate, List.filter_append]
  exact (congrArg (immediate cs ++ ·) (immediate_cons hc)).trans (List.append_nil _)

end Split

/-- Up to 48 deferred calls are queued; the others are executed at once. -/
theorem Counted.calls {s : Twin} (hs : Counted s) (cs : List Call)
    (h : s.ring.queued.length + (deferred cs).length ≤ 48) :
    let t := twin.after s (cs.map .call)
    Counted t ∧ t.ring.queued.map Sqe.op = s.ring.queued.map Sqe.op ++ deferred cs ∧
      t.batched = execAll perform (immediate cs) s.batched ∧
      t.direct = execAll perform cs s.direct := by
  induction cs generalizing s with
  | nil => exact ⟨hs, (List.append_nil _).symm, rfl, rfl⟩
  | cons c cs ih =>
    have hcount := hs.count_eq
    have hm := hs.moves c
    rw [List.map_cons]
    dsimp only
    rw [Machine.after_cons]
    generalize twin.step s (.call c) = t at hm
    cases hm with
    | native hc =>
      rw [deferred_cons_of_not hc] at h ⊢
      rw [immediate_cons_of_not hc]
      exact ih ⟨hs.reaped, hs.count_eq⟩ h
    | queued hc hlt =>
      rw [deferred_cons hc, List.length_cons] at h
      rw [deferred_cons hc, immediate_cons hc]
      have hlen : (s.ring.add ⟨c, false⟩).queued.length = s.ring.queued.length + 1 := by
        rw [IoRing.add, List.length_append, List.length_singleton]
      obtain ⟨h1, h2, h3, h4⟩ := @ih ⟨s.currentCount + 1, s.ring.add ⟨c, false⟩, s.batched,
        perform c s.direct⟩ ⟨hs.reaped, by rw [hlen, hcount]; rfl⟩ (by rw [hlen]; omega)
      refine ⟨h1, ?_, h3, h4⟩
      rw [h2, queued_add, List.append_assoc]
      rfl
    | filled hc hge =>
      rw [deferred_cons hc, List.length_cons] at h
      unfold patchSize at hge
      omega

/-- What a batch of 49 deferred calls appends in either run: first the calls that were left
alone, then the deferred ones; or all of them in order. -/
theorem batch_files {pre : List Call} {last : Call} (h48 : (deferred pre).length = 48)
    (hlast : last.Deferred) (mem : ℕ → UInt8) :
    let t := twin.after (.started ⟨mem, []⟩) ((pre ++ [last]).map .call)
    t.currentCount = 0 ∧
      t.batched.file = (immediate pre ++ (deferred pre ++ [last])).flatMap (Call.data mem) ∧
      t.direct.file = (pre ++ [last]).flatMap (Call.data mem) := by
  obtain ⟨h1, h2, h3, h4⟩ := (lag_started ⟨mem, []⟩).toCounted.calls pre
    (by show 0 + _ ≤ 48; omega)
  rw [List.map_append, List.map_singleton]
  dsimp only
  rw [Machine.after_concat]
  have hm := h1.moves last
  generalize twin.after _ _ = t at h1 h2 h3 h4 hm
  have h2 : t.ring.queued.map Sqe.op = deferred pre := h2
  have hlen : t.ring.queued.length = 48 := by
    rw [← h48, ← h2, List.length_map]
  have hcount := h1.count_eq
  generalize twin.step t (.call last) = u at hm
  cases hm with
  | native hc => exact absurd hlast hc
  | queued hc hlt => unfold patchSize at hlt; omega
  | filled hc hge =>
    refine ⟨rfl, ?_, ?_⟩
    · show (appendBatch _ t.batched).file = _
      rw [appendBatch, queued_add, h2, file_execAll, h3, mem_execAll, file_execAll]
      exact List.flatMap_append.symm
    · show t.direct.file ++ last.data t.direct.mem = _
      rw [h4, mem_execAll, file_execAll, List.flatMap_append, List.flatMap_singleton]
      rfl

theorem byte_mem_region {c : Call} {mem : ℕ → UInt8} {byte : UInt8} (h : byte ∈ c.data mem) :
    ∃ x ∈ c.region, mem x = byte := by
  cases c with
  | write fd buf n => exact mem_of_mem_bytesAt h
  | fsync fd => exact absurd h List.not_mem_nil

theorem exists_byte {c : Call} (h : c.Appends) (mem : ℕ → UInt8) : ∃ byte, byte ∈ c.data mem := by
  cases c with
  | write fd buf n =>
    have hpos : 0 < n.toNat := Nat.pos_of_ne_zero fun h0 => h (BitVec.eq_of_toNat_eq h0)
    exact ⟨_, first_mem_bytesAt mem buf.toNat hpos⟩
  | fsync fd => exact h.elim

/-- When the deferred calls move behind the others without an effect on the file, whatever the
contents of the separate buffers, then no deferred call comes before another one that appends. -/
theorem not_overtaken {cs : List Call} (ha : cs.Pairwise fun p q => Disjoint p.region q.region)
    (h : ∀ mem, (immediate cs ++ deferred cs).flatMap (Call.data mem) =
      cs.flatMap (Call.data mem)) :
    cs.Pairwise fun p q => p.Deferred → p.Appends → ¬ q.Deferred → ¬ q.Appends := by
  classical
  -- the buffers of the deferred calls are full of ones, the others of zeros
  let mem : ℕ → UInt8 := fun x => if ∃ r ∈ cs, r.Deferred ∧ x ∈ r.region then 1 else 0
  have hone : ∀ c ∈ cs, c.Deferred → ∀ byte ∈ c.data mem, byte = 1 := by
    intro c hc hd byte hbyte
    obtain ⟨x, hx, rfl⟩ := byte_mem_region hbyte
    exact if_pos ⟨c, hc, hd, hx⟩
  have hzero : ∀ c ∈ cs, ¬ c.Deferred → ∀ byte ∈ c.data mem, byte = 0 := by
    intro c hc hd byte hbyte
    obtain ⟨x, hx, rfl⟩ := byte_mem_region hbyte
    refine if_neg ?_
    rintro ⟨r, hr, hrd, hxr⟩
    have hsymm : Std.Symm fun p q : Call => Disjoint p.region q.region := ⟨fun _ _ h => h.symm⟩
    have hne : r ≠ c := fun hrc => hd (hrc ▸ hrd)
    exact Set.disjoint_left.mp (ha.forall hr hc hne) hxr hx
  have hsorted : ((immediate cs ++ deferred cs).flatMap (Call.data mem)).Pairwise (· ≤ ·) := by
    rw [List.flatMap_append, List.pairwise_append]
    have hi : ∀ byte ∈ (immediate cs).flatMap (Call.data mem), byte = 0 := by
      intro byte hbyte
      obtain ⟨c, hc, hbyte⟩ := List.mem_flatMap.mp hbyte
      obtain ⟨hc, hd⟩ := List.mem_filter.mp hc
      exact hzero c hc (of_decide_eq_true hd) byte hbyte
    have hd : ∀ byte ∈ (deferred cs).flatMap (Call.data mem), byte = 1 := by
      intro byte hbyte
      obtain ⟨c, hc, hbyte⟩ := List.mem_flatMap.mp hbyte
      obtain ⟨hc, hd⟩ := List.mem_filter.mp hc
      exact hone c hc (of_decide_eq_true hd) byte hbyte
    refine ⟨?_, ?_, ?_⟩
    · exact List.pairwise_of_forall_mem_list fun a ha b hb => by rw [hi a ha, hi b hb]; decide
    · exact List.pairwise_of_forall_mem_list fun a ha b hb => by rw [hd a ha, hd b hb]; decide
    · intro a ha b hb
      rw [hi a ha, hd b hb]
      decide
  rw [h mem] at hsorted
  refine (List.pairwise_flatMap.mp hsorted).2.imp_of_mem ?_
  intro p q hp hq hpq hpd hpa hqd hqa
  obtain ⟨b, hb⟩ := exists_byte hpa mem
  obtain ⟨c, hc⟩ := exists_byte hqa mem
  have hle := hpq b hb c hc
  rw [hone p hp hpd b hb, hzero q hq hqd c hc] at hle
  exact absurd hle (by decide)

/-- **One batch, exactly.** A batch from separate buffers leaves the file of the direct run,
whatever the buffers hold, exactly when its calls are in order. -/
theorem batch_agrees_iff {pre : List Call} {last : Call} (h48 : (deferred pre).length = 48)
    (hlast : last.Deferred)
    (ha : (pre ++ [last]).Pairwise fun p q => Disjoint p.region q.region) :
    (∀ w, twin.Steps Agrees (.started w) ((pre ++ [last]).map .call)) ↔
      ∀ w, twin.Steps InOrder (.started w) ((pre ++ [last]).map .call) := by
  constructor
  · intro h w
    have hpair := not_overtaken ha fun mem => by
      obtain ⟨h0, hb, hdir⟩ := batch_files h48 hlast mem
      have hagree := h ⟨mem, []⟩
      rw [List.map_append, List.map_singleton] at h0 hb hdir hagree
      rw [Machine.after_concat] at h0 hb hdir
      have := ((twin.steps_concat _ _ _ _).mp hagree).2 h0
      rw [deferred_concat hlast, immediate_concat hlast, ← hb, ← hdir]
      exact this
    refine twin.steps_of_forall fun fs e gs hes => ?_
    obtain ⟨a, b, hab, rfl, hb⟩ := List.map_eq_append_iff.mp hes
    obtain ⟨c, b, rfl, rfl, -⟩ := List.map_eq_cons_iff.mp hb
    intro hnd happ q hq hqapp
    -- the pending calls are the deferred ones among those before `c`
    have hpre : a <+: pre := by
      refine List.prefix_of_prefix_length_le ⟨c :: b, hab.symm⟩ (List.prefix_append pre [last]) ?_
      have := congrArg List.length hab
      simp only [List.length_append, List.length_cons, List.length_nil] at this
      omega
    have hlen : (deferred a).length ≤ 48 := h48 ▸ (hpre.sublist.filter _).length_le
    obtain ⟨-, hqueued, -, -⟩ := (lag_started w).toCounted.calls a
      (by show 0 + _ ≤ 48; omega)
    have hop : q.op ∈ deferred a := by
      have := List.mem_map_of_mem (f := Sqe.op) hq
      rw [hqueued] at this
      exact this
    obtain ⟨hqa, hqd⟩ := List.mem_filter.mp hop
    rw [hab, List.pairwise_append] at hpair
    exact hpair.2.2 q.op hqa c List.mem_cons_self (of_decide_eq_true hqd) hqapp hnd happ
  · intro h w
    refine agrees_of_inOrder (lag_started w) (Machine.Steps.and _ ?_ (h w))
    refine twin.steps_of_forall fun fs e gs hes => ?_
    obtain ⟨a, b, -, -, hb⟩ := List.map_eq_append_iff.mp hes
    obtain ⟨c, b, -, rfl, -⟩ := List.map_eq_cons_iff.mp hb
    exact trivial

/-! ## Deferred writes and direct writes -/

/-- **Deferred writes.** In every run in order the two files are equal whenever nothing is
pending; and for a single batch from separate buffers being in order is also necessary. -/
theorem files_agree (w : World) (ds : List Deed) :
    (twin.Steps (fun t d => Promise t d ∧ InOrder t d) (.started w) ds →
      twin.Steps Agrees (.started w) ds) ∧
    ∀ pre last, (deferred pre).length = 48 → last.Deferred →
      ((pre ++ [last]).Pairwise fun p q => Disjoint p.region q.region) →
      ((∀ w, twin.Steps Agrees (.started w) ((pre ++ [last]).map .call)) ↔
        ∀ w, twin.Steps InOrder (.started w) ((pre ++ [last]).map .call)) :=
  ⟨fun h => agrees_of_inOrder (lag_started w) h,
    fun _ _ h48 hlast ha => batch_agrees_iff h48 hlast ha⟩

/-- A write of six bytes before a deferred one, and a store outside the pending buffer. -/
theorem files_agree_six_five :
    twin.Steps Agrees (.started ⟨UInt8.ofNat, []⟩)
      [.call (.write 3 8 6), .call (.write 3 0 5), .store 5 1] := by
  refine (files_agree _ _).1 ⟨⟨trivial, fun _ _ q hq => ?_⟩, ⟨trivial, fun h => ?_⟩, ⟨?_, trivial⟩,
    trivial⟩
  · exact absurd hq List.not_mem_nil
  · exact absurd rfl h
  · intro q hq hmem
    obtain rfl := List.mem_singleton.mp hq
    exact absurd hmem.2 (by decide)

/-- A write of one byte overtakes the deferred write before it. -/
theorem not_files_agree :
    ¬ twin.Steps Agrees (.started ⟨UInt8.ofNat, []⟩)
      ((.write 3 0 5 :: .write 3 5 1 :: List.replicate 48 (.fsync 3) : List Call).map .call) := by
  intro h
  have hsplit : (.write 3 0 5 :: .write 3 5 1 :: List.replicate 48 (.fsync 3) : List Call) =
      (.write 3 0 5 :: .write 3 5 1 :: List.replicate 47 (.fsync 3)) ++ [.fsync 3] := rfl
  obtain ⟨h0, hb, hd⟩ := @batch_files (.write 3 0 5 :: .write 3 5 1 ::
    List.replicate 47 (.fsync 3)) (.fsync 3) (by decide) trivial UInt8.ofNat
  rw [List.map_append, List.map_singleton, Machine.after_concat] at h0 hb hd
  rw [hsplit, List.map_append, List.map_singleton, Machine.steps_concat] at h
  have hfiles := h.2 h0
  rw [hb, hd] at hfiles
  exact absurd hfiles (by decide)

end ClickhouseUring.WriteBatcher
