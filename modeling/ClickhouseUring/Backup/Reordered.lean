import ClickhouseUring.Backup.Order
import Mathlib.Algebra.Order.BigOperators.Group.List

/-!
# Batches whose order shows

The condition of `agrees_of_orderly` leaves no room: when a batch has two conflicting calls with
a receive between them, the kernel may start after that receive, and there are contents of the
memory and of the sockets for which the result differs from that of the direct calls
(`order_matters`).  Two sends show it by what their sockets carry, two receives by where the
next incoming byte ends up.
-/

namespace ClickhouseUring.Backup

open Uring Memory

/-! ## What a sequence of calls does to one descriptor -/

/-- What the call sends on `fd`. -/
def IoOp.sentOn (fd : Int) (mem : ℕ → UInt8) : IoOp → List UInt8
  | .send fd' buf n _ => if fd' = fd then bytesAt mem buf.toNat n.toNat else []
  | _ => []

/-- How much the call receives on `fd`. -/
def IoOp.receivedOn (fd : Int) : IoOp → ℕ
  | .recv fd' _ n _ => if fd' = fd then n.toNat else 0
  | _ => 0

section Observations

variable {env : Env} {fd : Int}

theorem sent_perform (op : IoOp) (w : World) :
    (perform env op w).sent fd = w.sent fd ++ op.sentOn fd w.mem := by
  cases op with
  | pread => exact (List.append_nil _).symm
  | send fd' buf n flags =>
    rw [sent_send, IoOp.sentOn]
    by_cases h : fd' = fd
    · subst h; rw [Function.update_self, if_pos rfl]
    · rw [Function.update_of_ne (Ne.symm h), if_neg h, List.append_nil]
  | recv => exact (List.append_nil _).symm

theorem consumed_perform (op : IoOp) (w : World) :
    (perform env op w).consumed fd = w.consumed fd + op.receivedOn fd := by
  cases op with
  | pread => rfl
  | send => rfl
  | recv fd' buf n flags =>
    rw [consumed_recv, IoOp.receivedOn]
    by_cases h : fd' = fd
    · subst h; rw [Function.update_self, if_pos rfl]
    · rw [Function.update_of_ne (Ne.symm h), if_neg h, Nat.add_zero]

theorem sentOn_congr {op : IoOp} {mem mem' : ℕ → UInt8} (h : ∀ x ∈ op.region, mem x = mem' x) :
    op.sentOn fd mem = op.sentOn fd mem' := by
  cases op with
  | send fd' buf n flags =>
    rw [region_send] at h
    rw [IoOp.sentOn, IoOp.sentOn, bytesAt_congr h]
  | _ => rfl

/-- Calls on disjoint buffers send what their buffers hold at the start. -/
theorem sent_execAll {ops : List IoOp} (ha : ops.Pairwise fun p q => Disjoint p.region q.region)
    (w : World) :
    (execAll (perform env) ops w).sent fd = w.sent fd ++ ops.flatMap (IoOp.sentOn fd w.mem) := by
  induction ops generalizing w with
  | nil => exact (List.append_nil _).symm
  | cons op ops ih =>
    obtain ⟨hop, ha⟩ := List.pairwise_cons.mp ha
    have hlater : ops.map (IoOp.sentOn fd (perform env op w).mem) =
        ops.map (IoOp.sentOn fd w.mem) := by
      refine List.map_congr_left fun r hr => sentOn_congr fun x hx => mem_perform ?_
      exact Set.disjoint_right.mp (hop r hr) hx
    show (execAll (perform env) ops (perform env op w)).sent fd = _
    rw [ih ha, sent_perform, List.flatMap_cons, List.append_assoc, List.flatMap_def, hlater,
      ← List.flatMap_def]

theorem consumed_execAll (ops : List IoOp) (w : World) :
    (execAll (perform env) ops w).consumed fd =
      w.consumed fd + (ops.map (IoOp.receivedOn fd)).sum := by
  induction ops generalizing w with
  | nil => rfl
  | cons op ops ih =>
    show (execAll (perform env) ops (perform env op w)).consumed fd = _
    rw [ih, consumed_perform, List.map_cons, List.sum_cons, Nat.add_assoc]

theorem mem_execAll {ops : List IoOp} {x : ℕ} (h : ∀ op ∈ ops, x ∉ op.region) (w : World) :
    (execAll (perform env) ops w).mem x = w.mem x := by
  induction ops generalizing w with
  | nil => rfl
  | cons op ops ih =>
    obtain ⟨hop, hops⟩ := List.forall_mem_cons.mp h
    exact (ih hops (perform env op w)).trans (mem_perform hop)

end Observations

/-! ## Two conflicting calls -/

/-- The first byte a receive stores, with later calls elsewhere. -/
theorem mem_recv_first {env : Env} {fd : Int} {buf n : BitVec 64} {flags : Int}
    {before after : List IoOp} {w : World} (hn : n ≠ 0)
    (ha : ∀ op ∈ after, Disjoint (IoOp.recv fd buf n flags).region op.region) :
    (execAll (perform env) (before ++ .recv fd buf n flags :: after) w).mem buf.toNat =
      env.incoming fd (w.consumed fd + (before.map (IoOp.receivedOn fd)).sum) := by
  have hpos : 0 < n.toNat := Nat.pos_of_ne_zero fun h => hn (BitVec.eq_of_toNat_eq h)
  have hbuf : buf.toNat ∈ Set.Ico buf.toNat (buf.toNat + n.toNat) := ⟨le_rfl, by omega⟩
  rw [execAll_append]
  show (execAll (perform env) after (perform env _ _)).mem buf.toNat = _
  rw [mem_execAll fun op hop => Set.disjoint_left.mp (ha op hop) hbuf, mem_recv,
    fill_of_mem _ hbuf, Nat.sub_self, Nat.add_zero, consumed_execAll]

theorem recv_order_matters {X Y : List IoOp} {fd fd' : Int} {buf n buf' n' : BitVec 64}
    {flags flags' : Int} (hp : .recv fd buf n flags ∈ X) (hq : .recv fd' buf' n' flags' ∈ Y)
    (hc : fd = fd' ∧ n ≠ 0 ∧ n' ≠ 0)
    (ha : (X ++ Y).Pairwise fun p q => Disjoint p.region q.region) :
    ∃ env w, execAll (perform env) (Y ++ X) w ≠ execAll (perform env) (X ++ Y) w := by
  obtain ⟨rfl, hn, hn'⟩ := hc
  obtain ⟨A, B, rfl⟩ := List.append_of_mem hp
  rw [List.append_assoc, List.cons_append] at ha
  have hafter := (List.pairwise_cons.mp (List.pairwise_append.mp ha).2.1).1
  -- the one incoming byte that differs is the one the receive in `X` gets in program order
  refine ⟨⟨fun _ _ => 0, fun _ i => if i = (A.map (IoOp.receivedOn fd)).sum then 1 else 0⟩,
    ⟨fun _ => 0, fun _ => [], fun _ => 0⟩, fun heq => ?_⟩
  have hmem := congrFun (congrArg World.mem heq) buf.toNat
  rw [List.append_assoc, List.cons_append, ← List.append_assoc Y A,
    mem_recv_first hn fun op hop => hafter op (List.mem_append_left Y hop),
    mem_recv_first hn hafter] at hmem
  have hY : 0 < (Y.map (IoOp.receivedOn fd)).sum := by
    have hle := List.single_le_sum (fun _ _ => Nat.zero_le _) _
      (List.mem_map_of_mem (f := IoOp.receivedOn fd) hq)
    have hpos : 0 < n'.toNat := Nat.pos_of_ne_zero fun h => hn' (BitVec.eq_of_toNat_eq h)
    rw [IoOp.receivedOn, if_pos rfl] at hle
    omega
  simp only [Nat.zero_add, List.map_append, List.sum_append, if_true] at hmem
  rw [if_neg (by omega)] at hmem
  exact absurd hmem (by decide)

theorem mem_of_mem_sentOn {fd : Int} {mem : ℕ → UInt8} {op : IoOp} {byte : UInt8}
    (h : byte ∈ op.sentOn fd mem) : ∃ x ∈ op.region, mem x = byte := by
  cases op with
  | send fd' buf n flags =>
    rw [IoOp.sentOn] at h
    split at h
    · exact mem_of_mem_bytesAt h
    · exact absurd h List.not_mem_nil
  | pread => exact absurd h List.not_mem_nil
  | recv => exact absurd h List.not_mem_nil

theorem exists_sent {ops : List IoOp} {fd : Int} {buf n : BitVec 64} {flags : Int}
    (mem : ℕ → UInt8) (h : .send fd buf n flags ∈ ops) (hn : n ≠ 0) :
    ∃ byte rest, ops.flatMap (IoOp.sentOn fd mem) = byte :: rest := by
  refine List.exists_cons_of_ne_nil fun hnil => hn ?_
  have hempty := List.flatMap_eq_nil_iff.mp hnil _ h
  rw [IoOp.sentOn, if_pos rfl, bytesAt, List.map_eq_nil_iff, List.range_eq_nil] at hempty
  exact BitVec.eq_of_toNat_eq hempty

theorem send_order_matters {X Y : List IoOp} {fd fd' : Int} {buf n buf' n' : BitVec 64}
    {flags flags' : Int} (hp : .send fd buf n flags ∈ X) (hq : .send fd' buf' n' flags' ∈ Y)
    (hc : fd = fd' ∧ n ≠ 0 ∧ n' ≠ 0)
    (ha : (X ++ Y).Pairwise fun p q => Disjoint p.region q.region) :
    ∃ env w, execAll (perform env) (Y ++ X) w ≠ execAll (perform env) (X ++ Y) w := by
  classical
  obtain ⟨rfl, hn, hn'⟩ := hc
  -- the buffers of `X` are full of ones, the others of zeros
  let mem : ℕ → UInt8 := fun x => if ∃ r ∈ X, x ∈ r.region then 1 else 0
  have hX : ∀ byte ∈ X.flatMap (IoOp.sentOn fd mem), byte = 1 := by
    intro byte hbyte
    obtain ⟨op, hop, hbyte⟩ := List.mem_flatMap.mp hbyte
    obtain ⟨x, hx, rfl⟩ := mem_of_mem_sentOn hbyte
    exact if_pos ⟨op, hop, hx⟩
  have hY : ∀ byte ∈ Y.flatMap (IoOp.sentOn fd mem), byte = 0 := by
    intro byte hbyte
    obtain ⟨op, hop, hbyte⟩ := List.mem_flatMap.mp hbyte
    obtain ⟨x, hx, rfl⟩ := mem_of_mem_sentOn hbyte
    refine if_neg ?_
    rintro ⟨r, hr, hxr⟩
    exact Set.disjoint_left.mp ((List.pairwise_append.mp ha).2.2 r hr op hop) hxr hx
  obtain ⟨b, u, hbu⟩ := exists_sent mem hp hn
  obtain ⟨c, v, hcv⟩ := exists_sent mem hq hn'
  refine ⟨⟨fun _ _ => 0, fun _ _ => 0⟩, ⟨mem, fun _ => [], fun _ => 0⟩, fun heq => ?_⟩
  have hsent := congrFun (congrArg World.sent heq) fd
  have ha' := (List.pairwise_append_comm fun h => h.symm).mp ha
  rw [sent_execAll ha, sent_execAll ha', List.flatMap_append, List.flatMap_append, hbu, hcv]
    at hsent
  have hcb : c = b := (List.cons.inj hsent).1
  rw [hX b (hbu ▸ List.mem_cons_self), hY c (hcv ▸ List.mem_cons_self)] at hcb
  exact absurd hcb (by decide)

/-- **A pair of conflicting calls.** Moving the second call in front of the first shows. -/
theorem order_matters {X Y : List IoOp} {p q : IoOp} (hp : p ∈ X) (hq : q ∈ Y)
    (hc : Conflict p q) (ha : (X ++ Y).Pairwise fun p q => Disjoint p.region q.region) :
    ∃ env w, execAll (perform env) (Y ++ X) w ≠ execAll (perform env) (X ++ Y) w := by
  cases p with
  | pread => cases q <;> exact hc.elim
  | send => cases q with
    | send => exact send_order_matters hp hq hc ha
    | _ => exact hc.elim
  | recv => cases q with
    | recv => exact recv_order_matters hp hq hc ha
    | _ => exact hc.elim

/-! ## One submission -/

/-- A batch on separate buffers has the effect of its calls in every permitted order exactly
when its conflicts are linked. -/
theorem serve_eq_execAll_iff {b : List (Sqe IoOp)} (ha : Apart b) :
    (∀ env w ord, Permitted b ord →
      serve (perform env) b ord w = execAll (perform env) (b.map Sqe.op) w) ↔
      LinkedConflicts b := by
  refine ⟨fun h => ?_, fun hl env w ord hp => serve_eq_execAll ha hl hp w⟩
  intro i j p q hij hi hj hc k hik hkj
  obtain ⟨hjlen, hjq⟩ := List.getElem?_eq_some_iff.mp hj
  have hk : k < b.length := hkj.trans hjlen
  by_contra hlink
  have hu : b[k]?.map Sqe.link = some false := by
    rw [List.getElem?_eq_getElem hk, Option.map_some] at hlink ⊢
    rw [Bool.eq_false_iff.mpr fun h => hlink (congrArg some h)]
  have hsplit : b.map Sqe.op = (b.take (k + 1)).map Sqe.op ++ (b.drop (k + 1)).map Sqe.op := by
    rw [← List.map_append, List.take_append_drop]
  have hp : p.op ∈ (b.take (k + 1)).map Sqe.op :=
    List.mem_map_of_mem (List.mem_take_iff_getElem.mpr ⟨i, by omega, by
      exact (List.getElem?_eq_some_iff.mp hi).2⟩)
  have hq : q.op ∈ (b.drop (k + 1)).map Sqe.op := by
    refine List.mem_map_of_mem (List.mem_drop_iff_getElem.mpr ⟨j - (k + 1), by omega, ?_⟩)
    rw [← hjq]
    congr 1
    omega
  have ha' : (b.map Sqe.op).Pairwise fun p q => Disjoint p.region q.region :=
    List.pairwise_map.mpr ha
  rw [hsplit] at ha'
  obtain ⟨env, w, hne⟩ := order_matters hp hq hc ha'
  refine hne ?_
  rw [← List.map_append, ← serve_rotation _ hk, h env w _ (permitted_rotation hk hu), hsplit]

/-! ## One batch -/

/-- The entries that the hooks queue for `ops`. -/
def batchOf (ops : List IoOp) : List (Sqe IoOp) := ops.map fun op => ⟨op, op.linked⟩

/-- Calls that do not fill a batch, flushed by `bpf_end_patch`. -/
def oneBatch (ops : List IoOp) (ord : List ℕ) : List Deed :=
  ops.map (.call · []) ++ [.finish ord]

/-- Calls that do not fill the batch are queued; they return the right values exactly when each
positioned read asks for 22 bytes. -/
theorem Lag.calls {env : Env} {s : Twin} {ops : List IoOp} (pid : BitVec 32) (hs : Lag env s)
    (hlen : s.maps.opCount.toNat + ops.length < batchSize) (hfd : ∀ op ∈ ops, 3 ≤ op.fd)
    (ha : Apart (s.ring.queued ++ batchOf ops)) :
    let t := (twin env pid).after s (ops.map (.call · []))
    Lag env t ∧ t.ring.queued = s.ring.queued ++ batchOf ops ∧ t.batched = s.batched ∧
      ((twin env pid).Steps (Agrees env pid) s (ops.map (.call · [])) ↔
        ∀ op ∈ ops, op.Reads22) := by
  induction ops generalizing s with
  | nil => exact ⟨hs, (List.append_nil _).symm, rfl, iff_of_true trivial (by simp)⟩
  | cons op ops ih =>
    obtain ⟨hop, hops⟩ := List.forall_mem_cons.mp hfd
    rw [List.length_cons] at hlen
    have hc : s.maps.opCount.toNat + 1 < batchSize := by omega
    have hdisj : ∀ q ∈ s.ring.queued, Disjoint q.op.region op.region := fun q hq =>
      (List.pairwise_append.mp ha).2.2 q hq _ List.mem_cons_self
    have hp : Promise s (.call op []) := ⟨hop, hdisj, fun h => by omega⟩
    have hl : SubmitsLinked s (.call op []) := fun h => by omega
    obtain ⟨-, hstep⟩ := hs.step_queued pid [] hop hc
    have hlag : Lag env ((twin env pid).step s (.call op [])) := hs.step hp hl
    have hvalue : Agrees env pid s (.call op []) ↔ op.Reads22 := by
      rw [← overridden_eq_iff, ← Option.some_inj, ← hs.override_eq pid hop]
      constructor
      · intro h
        exact h.value op [] rfl
      · intro h
        exact ⟨by rintro _ _ ⟨⟩; exact h, hlag.batched_eq_direct⟩
    have hcount : ((twin env pid).step s (.call op [])).maps.opCount.toNat =
        s.maps.opCount.toNat + 1 := by
      rw [hstep]; exact toNat_opCount_record hs.ok _
    have hqueued : ((twin env pid).step s (.call op [])).ring.queued ++ batchOf ops =
        s.ring.queued ++ batchOf (op :: ops) := by
      rw [hstep]
      exact List.append_assoc _ _ _
    obtain ⟨h1, h2, h3, h4⟩ := ih hlag (by omega) hops (by rw [hqueued]; exact ha)
    refine ⟨h1, h2.trans hqueued, ?_, ?_⟩
    · rw [List.map_cons, Machine.after_cons, h3, hstep]
    · rw [List.map_cons, Machine.steps_cons, hvalue, h4, List.forall_mem_cons]

/-- **One batch, exactly.** A batch of calls agrees with the direct calls, whatever the contents
and the order, exactly when its positioned reads ask for 22 bytes and its conflicts are
linked. -/
theorem oneBatch_agrees_iff {m : Maps} (hm : m.Ok) (pid : BitVec 32) {ops : List IoOp}
    (hlen : ops.length < batchSize) (hfd : ∀ op ∈ ops, 3 ≤ op.fd) (ha : Apart (batchOf ops)) :
    (∀ env w ord, Permitted (batchOf ops) ord →
      (twin env pid).Steps (Agrees env pid) (.started m w) (oneBatch ops ord)) ↔
      (∀ op ∈ ops, op.Reads22) ∧ LinkedConflicts (batchOf ops) := by
  have key : ∀ env w ord,
      (twin env pid).Steps (Agrees env pid) (.started m w) (oneBatch ops ord) ↔
        (∀ op ∈ ops, op.Reads22) ∧ serve (perform env) (batchOf ops) ord w =
          execAll (perform env) ((batchOf ops).map Sqe.op) w := by
    intro env w ord
    have hlen' : (Twin.started m w).maps.opCount.toNat + ops.length < batchSize := by
      show 0 + ops.length < batchSize
      omega
    obtain ⟨hlag, hqueued, hbatched, hcalls⟩ :=
      (lag_started env hm w).calls pid hlen' hfd (by exact ha)
    rw [oneBatch, Machine.steps_concat, hcalls]
    refine and_congr_right fun _ => ?_
    generalize (twin env pid).after _ _ = t at hlag hqueued hbatched
    have hq : t.ring.queued = batchOf ops := hqueued
    have hb : t.batched = w := hbatched
    have hstep := hlag.step_finish pid ord
    rw [hq, hb] at hstep
    have hd := hlag.direct_eq
    rw [hq, hb] at hd
    rw [← hd]
    constructor
    · intro h
      have hw := h.world
      rw [hstep] at hw
      exact hw rfl
    · intro h
      exact ⟨fun _ _ h => (by cases h), by rw [hstep]; exact fun _ => h⟩
  rw [← serve_eq_execAll_iff ha]
  constructor
  · intro h
    have hall := fun env w ord hp => (key env w ord).mp (h env w ord hp)
    refine ⟨?_, fun env w ord hp => (hall env w ord hp).2⟩
    exact (hall ⟨fun _ _ => 0, fun _ _ => 0⟩ ⟨fun _ => 0, fun _ => [], fun _ => 0⟩ _
      (permitted_range _)).1
  · rintro ⟨h22, hserve⟩ env w ord hp
    exact (key env w ord).mpr ⟨h22, hserve env w ord hp⟩

/-! ## Batched runs and direct runs -/

/-- **Deferred execution.** In every run whose events are orderly the batched program sees at
each flush, and as the result of each call, what the direct one sees; and for a single batch
being orderly is also necessary. -/
theorem batched_agrees {m : Maps} (hm : m.Ok) (pid : BitVec 32) :
    (∀ env w ds,
      (twin env pid).Steps (fun t d => Promise t d ∧ Orderly t d) (.started m w) ds →
      (twin env pid).Steps (Agrees env pid) (.started m w) ds) ∧
    ∀ ops : List IoOp, ops.length < batchSize → (∀ op ∈ ops, 3 ≤ op.fd) → Apart (batchOf ops) →
      ((∀ env w ord, Permitted (batchOf ops) ord →
        (twin env pid).Steps (Agrees env pid) (.started m w) (oneBatch ops ord)) ↔
        (∀ op ∈ ops, op.Reads22) ∧ LinkedConflicts (batchOf ops)) :=
  ⟨fun env w _ h => agrees_of_orderly (lag_started env hm w) h,
    fun _ hlen hfd ha => oneBatch_agrees_iff hm pid hlen hfd ha⟩

/-- A receive and a send on one descriptor, which the kernel may execute in either order. -/
theorem batched_agrees_recv_send :
    let env : Env := ⟨fun _ _ => 0, fun _ i => UInt8.ofNat i⟩
    let w : World := ⟨fun _ => 0, fun _ => [], fun _ => 0⟩
    (twin env 7).Steps (Agrees env 7) (.started initial.maps w)
      (oneBatch [.recv 3 8 4 0, .send 3 0 4 0] [1, 0]) := by
  have hok : initial.maps.Ok := ⟨by decide, fun k hk => absurd hk (Finset.notMem_empty k)⟩
  refine ((batched_agrees hok 7).2 _ (by decide) (by decide) ?_).mpr ⟨?_, ?_⟩ _ _ _ ?_
  · refine List.pairwise_pair.mpr (Set.disjoint_left.mpr fun x hx hy => ?_)
    have h8 : 8 ≤ x := hx.1
    have h4 : x < 4 := hy.2
    omega
  · simp [IoOp.Reads22]
  · intro i j p q hij hi hj hc
    have hj2 : j < 2 := (List.getElem?_eq_some_iff.mp hj).1
    obtain rfl : i = 0 := by omega
    obtain rfl : j = 1 := by omega
    obtain rfl := Option.some.inj hi
    obtain rfl := Option.some.inj hj
    exact hc.elim
  · decide

/-- A positioned read of one byte is told that it read 22; two receives on one socket get each
other's bytes. -/
theorem not_batched_agrees :
    let env : Env := ⟨fun _ _ => 0, fun _ i => UInt8.ofNat i⟩
    let w : World := ⟨fun _ => 0, fun _ => [], fun _ => 0⟩
    let recvs : List IoOp := [.recv 3 0 1 0, .recv 3 1 1 0]
    ¬ (twin env 7).Steps (Agrees env 7) (.started initial.maps w)
        (oneBatch [.pread 3 0 1 0] [0]) ∧
      Permitted (batchOf recvs) [1, 0] ∧
      ¬ (twin env 7).Steps (Agrees env 7) (.started initial.maps w) (oneBatch recvs [1, 0]) := by
  refine ⟨fun h => ?_, ?_, fun h => ?_⟩
  · exact absurd (h.1.value _ _ rfl) (by decide)
  · decide
  · have hw := congrFun (congrArg World.mem (h.2.2.1.world rfl)) 0
    exact absurd hw (by decide)

end ClickhouseUring.Backup
