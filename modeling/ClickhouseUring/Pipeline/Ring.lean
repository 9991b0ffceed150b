import ClickhouseUring.Kit.CInt
import ClickhouseUring.Kit.Fifo

/-!
# The packet ring of `ring_pipeline/four_ring_pipeline.c`

`head` and `tail` are `int`s that wrap at `size`; the ring is full one packet short of its size.
`SimpleRing.stored` is the segment from `tail` to `head`, round the end of the buffer.  From
`ring_init` on the ring is a queue of `size - 1` packets (`ring_refines_fifo`).

A function of the model has no result where the source would overflow, divide by zero or leave the
buffer.
-/

namespace ClickhouseUring.Pipeline

/-- `PACKET_SIZE`. -/
def packetSize : ℕ := 2048

/-- `struct packet`. -/
structure Packet where
  len : BitVec 64
  data : Vector (BitVec 8) packetSize
deriving DecidableEq

/-- `struct simple_ring`. -/
structure SimpleRing where
  buf : List Packet
  size : ℤ
  head : ℤ
  tail : ℤ

/-! ## The functions of the source -/

/-- `ring_init`; `ok` says whether `calloc` returned a buffer. -/
def ringInit (ok : Bool) (size : ℤ) : Option SimpleRing :=
  if ok then some ⟨List.replicate size.toNat ⟨0, Vector.replicate packetSize 0⟩, size, 0, 0⟩
  else none

/-- `r->buf[i]`. -/
def SimpleRing.read (r : SimpleRing) (i : ℤ) : Option Packet :=
  if 0 ≤ i then r.buf[i.toNat]? else none

/-- `r->buf[i] = p`. -/
def SimpleRing.write (r : SimpleRing) (i : ℤ) (p : Packet) : Option SimpleRing :=
  if 0 ≤ i ∧ i.toNat < r.buf.length then some { r with buf := r.buf.set i.toNat p } else none

/-- `(i + 1) % r->size`. -/
def SimpleRing.next (r : SimpleRing) (i : ℤ) : Option ℤ := do
  let j ← CInt.add 32 i 1
  CInt.rem 32 j r.size

/-- `ring_is_full`. -/
def ringIsFull (r : SimpleRing) : Option Bool := do
  let j ← r.next r.head
  return j = r.tail

/-- `ring_is_empty`. -/
def ringIsEmpty (r : SimpleRing) : Bool := r.head = r.tail

/-- `ring_enqueue`. -/
def ringEnqueue (r : SimpleRing) (p : Packet) : Option (ℤ × SimpleRing) := do
  if ← ringIsFull r then
    return (-1, r)
  let r ← r.write r.head p
  let head ← r.next r.head
  return (0, { r with head })

/-- `ring_dequeue`; the last component is `*p` afterwards. -/
def ringDequeue (r : SimpleRing) (p : Packet) : Option (ℤ × SimpleRing × Packet) := do
  if ringIsEmpty r then
    return (-1, r, p)
  let q ← r.read r.tail
  let tail ← r.next r.tail
  return (0, { r with tail }, q)

/-! ## The machine -/

/-- A call, with what `*p` holds. -/
inductive Call
  | enqueue (p : Packet)
  | dequeue (p : Packet)

/-- A call with its return value and what `*p` holds afterwards. -/
structure Report where
  call : Call
  ret : ℤ
  pkt : Packet

/-- The ring after the call. -/
def SimpleRing.run (r : SimpleRing) : Call → Option (SimpleRing × Report)
  | .enqueue p => (ringEnqueue r p).map fun x => (x.2, ⟨.enqueue p, x.1, p⟩)
  | .dequeue p => (ringDequeue r p).map fun x => (x.2.1, ⟨.dequeue p, x.1, x.2.2⟩)

/-- A ring, one call after the other. -/
def calls : Machine (Option SimpleRing) Call Report where
  step s c := (s.bind fun r => r.run c).map Prod.fst
  out s c := ((s.bind fun r => r.run c).map Prod.snd).toList

/-- A call as an operation on a queue. -/
def Call.op : Call → Fifo.Op Packet
  | .enqueue p => .push p
  | .dequeue _ => .pop

/-- What the return value says. -/
def Report.outcome (r : Report) : Fifo.Outcome Packet :=
  match r.call with
  | .enqueue p => if r.ret = 0 then .accepted p else .full
  | .dequeue _ => if r.ret = 0 then .delivered r.pkt else .empty

/-! ## The packets in the ring -/

/-- The packets from `tail` to `head`, the oldest first. -/
def SimpleRing.stored (r : SimpleRing) : List Packet :=
  window r.buf r.tail.toNat ((r.head - r.tail) % r.size).toNat

/-- A ring of `size` cells whose indices are in range. -/
structure SimpleRing.Valid (r : SimpleRing) (size : ℤ) : Prop where
  size_eq : r.size = size
  length_eq : (r.buf.length : ℤ) = size
  head : 0 ≤ r.head ∧ r.head < size
  tail : 0 ≤ r.tail ∧ r.tail < size

/-- The ring does what a queue of `size - 1` packets does. -/
structure SimpleRing.Behaves (r : SimpleRing) (size : ℤ) : Prop where
  head : 0 ≤ r.head ∧ r.head < size
  tail : 0 ≤ r.tail ∧ r.tail < size
  isFull : ringIsFull r = some (decide (r.stored.length = size - 1))
  isEmpty : ringIsEmpty r = r.stored.isEmpty
  enqueue : r.stored.length < size - 1 → ∀ p, ∃ r', ringEnqueue r p = some (0, r') ∧
    r'.stored = r.stored ++ [p]
  enqueue_full : ¬ r.stored.length < size - 1 → ∀ p, ringEnqueue r p = some (-1, r)
  dequeue : ∀ q l, r.stored = q :: l → ∀ p, ∃ r', ringDequeue r p = some (0, r', q) ∧
    r'.stored = l
  dequeue_empty : r.stored = [] → ∀ p, ringDequeue r p = some (-1, r, p)

section Valid

variable {r : SimpleRing} {size : ℤ}

/-- The number of packets between two indices. -/
def gap (n h t : ℕ) : ℕ := if t ≤ h then h - t else h + n - t

theorem gap_lt {n h t : ℕ} (hh : h < n) (ht : t < n) : gap n h t < n := by
  unfold gap
  split_ifs <;> omega

theorem gap_eq_zero_iff {n h t : ℕ} (ht : t < n) : gap n h t = 0 ↔ h = t := by
  unfold gap
  split_ifs <;> omega

theorem succ_mod {n i : ℕ} (hi : i < n) : (i + 1) % n = if i + 1 = n then 0 else i + 1 := by
  split_ifs with h
  · rw [h, Nat.mod_self]
  · exact Nat.mod_eq_of_lt (by omega)

theorem succ_mod_eq_iff {n h t : ℕ} (hh : h < n) (ht : t < n) :
    (h + 1) % n = t ↔ gap n h t + 1 = n := by
  rw [succ_mod hh]
  unfold gap
  split_ifs <;> omega

theorem add_gap_mod {n h t : ℕ} (hh : h < n) (ht : t < n) : (t + gap n h t) % n = h := by
  unfold gap
  split_ifs
  · rw [Nat.add_sub_of_le (by omega), Nat.mod_eq_of_lt hh]
  · rw [Nat.add_sub_of_le (by omega), Nat.add_mod_right, Nat.mod_eq_of_lt hh]

theorem gap_succ {n h t : ℕ} (hh : h < n) (ht : t < n) (hg : gap n h t + 1 < n) :
    gap n ((h + 1) % n) t = gap n h t + 1 := by
  rw [succ_mod hh]
  unfold gap at hg ⊢
  split_ifs at hg ⊢ <;> omega

theorem gap_pred {n h t : ℕ} (hh : h < n) (ht : t < n) (hg : gap n h t ≠ 0) :
    gap n h ((t + 1) % n) + 1 = gap n h t := by
  rw [succ_mod ht]
  unfold gap at hg ⊢
  split_ifs at hg ⊢ <;> omega

theorem stored_mk {buf : List Packet} {n h t : ℕ} (hh : h < n) (ht : t < n) :
    (SimpleRing.mk buf n h t).stored = window buf t (gap n h t) := by
  have hgap : ((h : ℤ) - t) % n = (gap n h t : ℕ) := by
    unfold gap
    split_ifs with hle
    · rw [Int.emod_eq_of_lt (by omega) (by omega)]
      omega
    · rw [← Int.add_emod_right, Int.emod_eq_of_lt (by omega) (by omega)]
      omega
  show window buf t (((h : ℤ) - t) % n).toNat = _
  rw [hgap, Int.toNat_natCast]

/-- A valid ring in natural numbers. -/
theorem SimpleRing.Valid.exists_nat (hr : r.Valid size) :
    ∃ n h t : ℕ, size = n ∧ r = ⟨r.buf, n, h, t⟩ ∧ r.buf.length = n ∧ h < n ∧ t < n := by
  obtain ⟨buf, size', head, tail⟩ := r
  obtain ⟨rfl, hlen, hh, ht⟩ := hr
  dsimp only at hlen hh ht ⊢
  refine ⟨size'.toNat, head.toNat, tail.toNat, by omega, ?_, by omega, by omega, by omega⟩
  rw [SimpleRing.mk.injEq]
  exact ⟨rfl, by omega, by omega, by omega⟩

theorem next_natCast {n i : ℕ} (hr : r.size = n) (hi : i < n) (hn : (n : ℤ) < 2 ^ 31) :
    r.next i = some (((i + 1) % n : ℕ) : ℤ) := by
  unfold SimpleRing.next
  have hadd : CInt.add 32 i 1 = some ((i + 1 : ℕ) : ℤ) :=
    CInt.add_eq_some (CInt.fits_of_nonneg (by omega) (show (i : ℤ) + 1 < 2 ^ 31 by omega))
  rw [hadd, hr]
  exact CInt.rem_natCast (by omega) (show ((i + 1 : ℕ) : ℤ) < 2 ^ 31 by omega)

theorem ringIsFull_eq (hr : r.Valid size) (hmax : size < 2 ^ 31) :
    ringIsFull r = some (decide (r.stored.length = size - 1)) := by
  obtain ⟨n, h, t, rfl, heq, hlen, hh, ht⟩ := hr.exists_nat
  have hiff : ((h + 1) % n = t) ↔ gap n h t + 1 = n := succ_mod_eq_iff hh ht
  have hgap := gap_lt hh ht
  rw [heq, stored_mk hh ht, length_window (by omega)]
  unfold ringIsFull
  rw [next_natCast rfl hh hmax]
  show some (decide ((((h + 1) % n : ℕ) : ℤ) = t)) = _
  congr 2
  rw [Nat.cast_inj, hiff, eq_iff_iff]
  omega

theorem ringIsEmpty_eq (hr : r.Valid size) : ringIsEmpty r = r.stored.isEmpty := by
  obtain ⟨n, h, t, rfl, heq, hlen, hh, ht⟩ := hr.exists_nat
  have hgap := gap_lt hh ht
  rw [heq, stored_mk hh ht, Bool.eq_iff_iff, List.isEmpty_iff, ← List.length_eq_zero_iff,
    length_window (by omega), gap_eq_zero_iff ht]
  unfold ringIsEmpty
  rw [decide_eq_true_iff]
  exact Nat.cast_inj

theorem ringEnqueue_full (hr : r.Valid size) (hmax : size < 2 ^ 31)
    (hfull : ¬ r.stored.length < size - 1) (p : Packet) : ringEnqueue r p = some (-1, r) := by
  obtain ⟨n, h, t, rfl, heq, hlen, hh, ht⟩ := hr.exists_nat
  have hgap := gap_lt hh ht
  have hlength : r.stored.length = gap n h t := by
    rw [heq, stored_mk hh ht, length_window (by omega)]
  unfold ringEnqueue
  rw [ringIsFull_eq hr hmax, decide_eq_true (by omega)]
  rfl

theorem ringEnqueue_eq (hr : r.Valid size) (hmax : size < 2 ^ 31)
    (hlt : r.stored.length < size - 1) (p : Packet) :
    ∃ r', ringEnqueue r p = some (0, r') ∧ r'.Valid size ∧ r'.stored = r.stored ++ [p] := by
  have hfull := ringIsFull_eq hr hmax
  rw [decide_eq_false (by omega)] at hfull
  obtain ⟨n, h, t, rfl, heq, hlen, hh, ht⟩ := hr.exists_nat
  generalize r.buf = buf at heq hlen
  subst heq
  rw [stored_mk hh ht, length_window (by have := gap_lt hh ht; omega)] at hlt
  have hwrite : (SimpleRing.mk buf n h t).write h p = some ⟨buf.set h p, n, h, t⟩ :=
    if_pos ⟨Int.natCast_nonneg h, hlen.symm ▸ hh⟩
  refine ⟨⟨buf.set h p, n, ((h + 1) % n : ℕ), t⟩, ?_, ?_, ?_⟩
  · unfold ringEnqueue
    rw [hfull, Option.bind_eq_bind, Option.bind_some, if_neg Bool.false_ne_true]
    dsimp only
    rw [hwrite, Option.bind_eq_bind, Option.bind_some, next_natCast rfl hh hmax]
    rfl
  · have hnext : (h + 1) % n < n := Nat.mod_lt _ (by omega)
    refine ⟨rfl, by rw [List.length_set, hlen], ?_, ?_⟩
    · exact ⟨Int.natCast_nonneg _, Int.ofNat_lt.mpr hnext⟩
    · exact ⟨Int.natCast_nonneg _, Int.ofNat_lt.mpr ht⟩
  · rw [stored_mk (Nat.mod_lt _ (by omega)) ht, stored_mk hh ht, gap_succ hh ht (by omega)]
    have hset : window (buf.set ((t + gap n h t) % buf.length) p) t (gap n h t + 1) =
        window buf t (gap n h t) ++ [p] := window_set (by omega) p
    rw [hlen, add_gap_mod hh ht] at hset
    exact hset

theorem ringDequeue_empty (hr : r.Valid size) (hempty : r.stored = []) (p : Packet) :
    ringDequeue r p = some (-1, r, p) := by
  unfold ringDequeue
  rw [ringIsEmpty_eq hr, hempty]
  rfl

theorem ringDequeue_eq (hr : r.Valid size) (hmax : size < 2 ^ 31) {q : Packet} {l : List Packet}
    (hstored : r.stored = q :: l) (p : Packet) :
    ∃ r', ringDequeue r p = some (0, r', q) ∧ r'.Valid size ∧ r'.stored = l := by
  have hempty : ringIsEmpty r = false := by
    rw [ringIsEmpty_eq hr, hstored]
    rfl
  obtain ⟨n, h, t, rfl, heq, hlen, hh, ht⟩ := hr.exists_nat
  generalize r.buf = buf at heq hlen
  subst heq
  have hgap := gap_lt hh ht
  rw [stored_mk hh ht] at hstored
  have hlength : (window buf t (gap n h t)).length = gap n h t := length_window (by omega)
  have hne : gap n h t ≠ 0 := by
    rw [← hlength, hstored]
    exact Nat.succ_ne_zero _
  have hpred := gap_pred hh ht hne
  have ht' : t < buf.length := hlen.symm ▸ ht
  rw [← hpred, window_succ (by omega) ht', hlen, List.cons.injEq] at hstored
  have hread : (SimpleRing.mk buf n h t).read t = some q := by
    unfold SimpleRing.read
    rw [if_pos (Int.natCast_nonneg t), ← hstored.1]
    exact List.getElem?_eq_getElem ht'
  have hnext : (t + 1) % n < n := Nat.mod_lt _ (by omega)
  refine ⟨⟨buf, n, h, ((t + 1) % n : ℕ)⟩, ?_, ?_, ?_⟩
  · unfold ringDequeue
    rw [hempty, if_neg Bool.false_ne_true]
    dsimp only
    rw [hread, Option.bind_eq_bind, Option.bind_some, next_natCast rfl ht hmax]
    rfl
  · refine ⟨rfl, by rw [hlen], ?_, ?_⟩
    · exact ⟨Int.natCast_nonneg _, Int.ofNat_lt.mpr hh⟩
    · exact ⟨Int.natCast_nonneg _, Int.ofNat_lt.mpr hnext⟩
  · rw [stored_mk hh hnext]
    exact hstored.2

theorem SimpleRing.Valid.behaves (hr : r.Valid size) (hmax : size < 2 ^ 31) : r.Behaves size where
  head := hr.head
  tail := hr.tail
  isFull := ringIsFull_eq hr hmax
  isEmpty := ringIsEmpty_eq hr
  enqueue hlt p := by
    obtain ⟨r', heq, _, hstored⟩ := ringEnqueue_eq hr hmax hlt p
    exact ⟨r', heq, hstored⟩
  enqueue_full hfull p := ringEnqueue_full hr hmax hfull p
  dequeue q l h p := by
    obtain ⟨r', heq, _, hstored⟩ := ringDequeue_eq hr hmax h p
    exact ⟨r', heq, hstored⟩
  dequeue_empty h p := ringDequeue_empty hr h p

end Valid

/-! ## Runs -/

theorem ringInit_valid {size : ℤ} (hpos : 1 ≤ size) :
    ∃ r, ringInit true size = some r ∧ r.Valid size ∧ r.stored = [] := by
  have hsize : (0 : ℤ) < size := by omega
  refine ⟨_, rfl, ⟨rfl, ?_, ⟨le_rfl, hsize⟩, ⟨le_rfl, hsize⟩⟩, ?_⟩
  · dsimp only
    rw [List.length_replicate]
    omega
  · unfold SimpleRing.stored window
    dsimp only
    rw [Int.sub_zero, Int.zero_emod]
    exact List.take_zero

/-- A ring and the queue it stands for. -/
def Represents (size : ℤ) (s : Option SimpleRing) (q : Fifo Packet (size - 1).toNat) : Prop :=
  ∃ r, s = some r ∧ r.Valid size ∧ r.stored = q.items

/-- **One call.** The ring answers as the queue does and goes on to stand for it. -/
theorem run_eq {size : ℤ} (hmax : size < 2 ^ 31) {r : SimpleRing} (hr : r.Valid size)
    {q : Fifo Packet (size - 1).toNat} (hq : r.stored = q.items) (c : Call) :
    ∃ r' report, r.run c = some (r', report) ∧ r'.Valid size ∧
      [report.outcome] = (Fifo.machine _ _).out q c.op ∧
      r'.stored = ((Fifo.machine _ _).step q c.op).items := by
  cases c with
  | enqueue p =>
    have hroom : r.stored.length < size - 1 ↔ q.items.length < (size - 1).toNat := by
      rw [hq]
      omega
    unfold Call.op
    rw [Fifo.items_push, ← hq]
    unfold Fifo.machine
    dsimp only
    by_cases hlt : r.stored.length < size - 1
    · obtain ⟨r', heq, hr', hstored⟩ := ringEnqueue_eq hr hmax hlt p
      rw [hq, if_pos (hroom.mp hlt), if_pos (hroom.mp hlt), ← hq]
      exact ⟨r', _, congrArg (Option.map _) heq, hr', rfl, hstored⟩
    · have heq := ringEnqueue_full hr hmax hlt p
      rw [hq, if_neg (mt hroom.mpr hlt), if_neg (mt hroom.mpr hlt), ← hq]
      exact ⟨r, _, congrArg (Option.map _) heq, hr, rfl, rfl⟩
  | dequeue p =>
    unfold Call.op
    rw [Fifo.items_pop, ← hq]
    unfold Fifo.machine
    dsimp only
    cases hstored : r.stored with
    | nil =>
      have heq := ringDequeue_empty hr hstored p
      rw [← hq, hstored]
      exact ⟨r, _, congrArg (Option.map _) heq, hr, rfl, hstored⟩
    | cons a l =>
      obtain ⟨r', heq, hr', hl⟩ := ringDequeue_eq hr hmax hstored p
      rw [← hq, hstored]
      exact ⟨r', _, congrArg (Option.map _) heq, hr', rfl, hl⟩

theorem represents_step {size : ℤ} (hmax : size < 2 ^ 31) {s : Option SimpleRing}
    {q : Fifo Packet (size - 1).toNat} (h : Represents size s q) (c : Call) :
    (calls.out s c).map Report.outcome = (Fifo.machine _ _).out q c.op ∧
      Represents size (calls.step s c) ((Fifo.machine _ _).step q c.op) := by
  obtain ⟨r, rfl, hr, hq⟩ := h
  obtain ⟨r', report, hrun, hr', hout, hstored⟩ := run_eq hmax hr hq c
  unfold calls
  dsimp only
  rw [Option.bind_some, hrun]
  exact ⟨hout, r', rfl, hr', hstored⟩

/-- The packets that a run has accepted. -/
def enqueued (tr : List Report) : List Packet := Fifo.accepted (tr.map Report.outcome)

/-- The packets that a run has delivered. -/
def dequeued (tr : List Report) : List Packet := Fifo.delivered (tr.map Report.outcome)

/-- **Refinement.** From `ring_init` on every call has a result, the ring behaves as the queue of
the packets it stores, its answers are those of a bounded queue, and the packets delivered are
the first of those accepted. -/
theorem ring_refines_fifo {size : ℤ} (hpos : 1 ≤ size) (hmax : size ≤ 2 ^ 31 - 1)
    (cs : List Call) :
    ∃ r, calls.after (ringInit true size) cs = some r ∧ r.Behaves size ∧
      r.stored = ((Fifo.machine Packet (size - 1).toNat).after .empty (cs.map Call.op)).items ∧
      (calls.trace (ringInit true size) cs).map Report.outcome =
        (Fifo.machine Packet (size - 1).toNat).trace .empty (cs.map Call.op) ∧
      enqueued (calls.trace (ringInit true size) cs) =
        dequeued (calls.trace (ringInit true size) cs) ++ r.stored ∧
      dequeued (calls.trace (ringInit true size) cs) <+:
        enqueued (calls.trace (ringInit true size) cs) := by
  have hmax' : size < 2 ^ 31 := by omega
  have hinit : Represents size (ringInit true size) .empty := ringInit_valid hpos
  obtain ⟨htrace, r, hafter, hr, hstored⟩ := calls.simulate Call.op Report.outcome
    (fun s q c h => (represents_step hmax' h c).1)
    (fun s q c h => (represents_step hmax' h c).2) hinit cs
  refine ⟨r, hafter, hr.behaves hmax', hstored, htrace, ?_, ?_⟩
  · unfold enqueued dequeued
    rw [htrace, hstored]
    exact Fifo.accepted_eq _
  · unfold enqueued dequeued
    rw [htrace]
    exact Fifo.delivered_isPrefix _

/-- A ring of three cells takes two of three packets and delivers one. -/
theorem ring_refines_fifo_three :
    let p : Packet := ⟨1, Vector.replicate packetSize 0⟩
    ∃ r, calls.after (ringInit true 3) [.enqueue p, .enqueue p, .enqueue p, .dequeue p] = some r ∧
      r.stored = [p] := by
  intro p
  obtain ⟨r, hafter, -, hstored, -⟩ := ring_refines_fifo (by decide : (1 : ℤ) ≤ 3) (by decide)
    [.enqueue p, .enqueue p, .enqueue p, .dequeue p]
  exact ⟨r, hafter, hstored⟩

end ClickhouseUring.Pipeline
