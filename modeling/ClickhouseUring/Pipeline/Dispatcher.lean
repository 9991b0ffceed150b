import ClickhouseUring.Kit.CString
import ClickhouseUring.Pipeline.Ring
import Mathlib.Data.List.Forall2

/-!
# The dispatcher loop of `ring_pipeline/four_ring_pipeline.c`

An incoming packet goes through the third ring, has `" processed"` appended as far as it fits, goes
through the fourth ring and is written.  Both rings are empty between iterations, so every packet
is written in its own iteration (`dispatcher_writes`).
-/

namespace ClickhouseUring.Pipeline

open CString

/-- The literal that `main` appends. -/
def processed : List (BitVec 8) :=
  [' ', 'p', 'r', 'o', 'c', 'e', 's', 's', 'e', 'd'].map fun c => BitVec.ofNat 8 c.toNat

/-- The arguments of `io_uring_prep_write`. -/
structure Write where
  fd : ℕ
  buf : Vector (BitVec 8) packetSize
  nbytes : BitVec 32
  offset : ℕ

/-- The state of the loop; `running` is false after its `break`. -/
structure Rings where
  ring3 : SimpleRing
  ring4 : SimpleRing
  running : Bool

/-- The two rings as `main` sets them up, with the sizes a parameter. -/
def setup (size3 size4 : ℤ) : Option Rings := do
  let ring3 ← ringInit true size3
  let ring4 ← ringInit true size4
  return ⟨ring3, ring4, true⟩

/-- What the loop does to a packet between the rings. -/
def modify (pkt : Packet) : Option Packet := do
  let data ← strncat pkt.data processed (BitVec.ofNat 64 packetSize - pkt.len).toNat
  let n ← strlen data
  return ⟨BitVec.ofNat 64 n + 1, data⟩

/-- The body of the loop in `main`; `sqe` says whether `io_uring_get_sqe` returned an entry. -/
def dispatch (p : Rings) (pkt : Packet) (sqe : Bool) : Option (Rings × List Write) := do
  let (_, ring3) ← ringEnqueue p.ring3 pkt
  let (ret3, ring3, pkt) ← ringDequeue ring3 pkt
  let (ring4, pkt) ← if ret3 = 0 then do
      let pkt ← modify pkt
      let (_, ring4) ← ringEnqueue p.ring4 pkt
      pure (ring4, pkt)
    else pure (p.ring4, pkt)
  let (ret4, ring4, pkt) ← ringDequeue ring4 pkt
  if ret4 = 0 then
    if sqe then
      return (⟨ring3, ring4, true⟩, [⟨1, pkt.data, pkt.len.setWidth 32, 0⟩])
    else
      return (⟨ring3, ring4, false⟩, [])
  else
    return (⟨ring3, ring4, true⟩, [])

/-- The loop, over the packets it receives. -/
def dispatcher : Machine (Option Rings) (Packet × Bool) Write where
  step s e := s.bind fun p =>
    if p.running then (dispatch p e.1 e.2).map Prod.fst else some p
  out s e := ((s.bind fun p =>
    if p.running then (dispatch p e.1 e.2).map Prod.snd else some []).getD [])

/-- The packet holds a string, with its length and NUL in `len`. -/
def Packet.Terminated (p : Packet) : Prop := ∃ k, strlen p.data = some k ∧ p.len.toNat = k + 1

/-- What a packet is to become: as much of the string and the literal as fits, and a NUL. -/
def Packet.result (p : Packet) : List (BitVec 8) :=
  (chars p.data ++ processed).take (packetSize - 1) ++ [0]

/-- The write carries the result of the packet. -/
structure Carries (p : Packet) (w : Write) : Prop where
  bytes : w.buf.toList.take w.nbytes.toNat = p.result
  nbytes : w.nbytes.toNat = p.result.length
  strlen : ∃ k, strlen w.buf = some k ∧ w.nbytes.toNat = k + 1
  fits : w.nbytes.toNat ≤ packetSize
  stdout : w.fd = 1 ∧ w.offset = 0

/-- The iteration returns and leaves both rings empty. -/
def Drained (s : Option Rings) (e : Packet × Bool) : Prop :=
  ∃ p, dispatcher.step s e = some p ∧ p.running ∧ ringIsEmpty p.ring3 ∧ ringIsEmpty p.ring4

/-! ## The packet -/

theorem processed_ne_zero : ∀ b ∈ processed, b ≠ 0 := by decide

theorem strlen_lt {p : Packet} {k : ℕ} (h : strlen p.data = some k) : k < packetSize := by
  obtain ⟨rfl, rest, heq⟩ := toList_eq h
  have hlen := congrArg List.length heq
  rw [Vector.length_toList, List.length_append, List.length_cons] at hlen
  omega

/-- A terminated packet is modified within its buffer. -/
theorem modify_eq {p : Packet} (hp : p.Terminated) :
    ∃ p', modify p = some p' ∧ chars p'.data ++ [0] = p.result ∧
      p'.len.toNat = p.result.length ∧ strlen p'.data = some (p.result.length - 1) := by
  obtain ⟨k, hk, hlen⟩ := hp
  have hsize : packetSize = 2048 := rfl
  have hlt := strlen_lt hk
  have hbound : (BitVec.ofNat 64 packetSize - p.len).toNat = packetSize - 1 - k := by
    rw [BitVec.toNat_sub, hlen, BitVec.toNat_ofNat]
    omega
  have hroom : k + (processed.take (packetSize - 1 - k)).length < packetSize := by
    rw [List.length_take]
    omega
  obtain ⟨data, hcat, hchars, hstrlen⟩ := strncat_eq hk processed_ne_zero hroom
  have hresult : chars data ++ [0] = p.result := by
    unfold Packet.result
    have hle : (chars p.data).length ≤ packetSize - 1 := by
      rw [← (toList_eq hk).1]
      omega
    rw [hchars, List.take_append, ← (toList_eq hk).1, List.take_of_length_le hle]
  have hlength : p.result.length = k + (processed.take (packetSize - 1 - k)).length + 1 := by
    rw [← hresult, List.length_append, ← (toList_eq hstrlen).1]
    rfl
  refine ⟨⟨BitVec.ofNat 64 (k + (processed.take (packetSize - 1 - k)).length) + 1, data⟩,
    ?_, hresult, ?_, ?_⟩
  · unfold modify
    rw [hbound, hcat, Option.bind_eq_bind, Option.bind_some, hstrlen]
    rfl
  · show (BitVec.ofNat 64 _ + 1).toNat = _
    rw [hlength, BitVec.toNat_add, BitVec.toNat_ofNat]
    show ((k + (processed.take (packetSize - 1 - k)).length) % 2 ^ 64 + 1) % 2 ^ 64 = _
    omega
  · rw [hlength]
    exact hstrlen

theorem length_result_le (p : Packet) : p.result.length ≤ packetSize := by
  unfold Packet.result
  rw [List.length_append, List.length_take]
  exact Nat.add_le_add_right (min_le_left _ _) 1

theorem carries_modify {p p' : Packet} (hbytes : chars p'.data ++ [0] = p.result)
    (hlen : p'.len.toNat = p.result.length)
    (hstrlen : strlen p'.data = some (p.result.length - 1)) :
    Carries p ⟨1, p'.data, p'.len.setWidth 32, 0⟩ := by
  have hsize : packetSize = 2048 := rfl
  have hle := length_result_le p
  have hpos : 0 < p.result.length := by
    rw [← hbytes, List.length_append]
    exact Nat.succ_pos _
  have hnbytes : (p'.len.setWidth 32).toNat = p.result.length := by
    rw [BitVec.toNat_setWidth, hlen]
    omega
  refine ⟨?_, hnbytes, ⟨_, hstrlen, ?_⟩, hnbytes.trans_le hle, rfl, rfl⟩
  · show p'.data.toList.take (p'.len.setWidth 32).toNat = _
    rw [hnbytes, ← Nat.sub_add_cancel hpos, take_eq hstrlen, hbytes]
  · show (p'.len.setWidth 32).toNat = _
    rw [hnbytes]
    omega

/-! ## An iteration -/

/-- A ring without packets. -/
def Empty (size : ℤ) (r : SimpleRing) : Prop := r.Valid size ∧ r.stored = []

/-- The loop between two iterations. -/
def Idle (size3 size4 : ℤ) (s : Option Rings) : Prop :=
  ∃ p, s = some p ∧ p.running ∧ Empty size3 p.ring3 ∧ Empty size4 p.ring4

/-- A packet passes through an empty ring. -/
theorem pass_through {r : SimpleRing} {size : ℤ} (h2 : 2 ≤ size) (hmax : size < 2 ^ 31)
    (hr : Empty size r) (pkt : Packet) :
    ∃ r₁ r₂, ringEnqueue r pkt = some (0, r₁) ∧ ringDequeue r₁ pkt = some (0, r₂, pkt) ∧
      Empty size r₂ := by
  obtain ⟨hr, hempty⟩ := hr
  have hroom : r.stored.length < size - 1 := by
    rw [hempty, List.length_nil]
    omega
  obtain ⟨r₁, henq, hr₁, hstored₁⟩ := ringEnqueue_eq hr hmax hroom pkt
  rw [hempty, List.nil_append] at hstored₁
  obtain ⟨r₂, hdeq, hr₂, hstored₂⟩ := ringDequeue_eq hr₁ hmax hstored₁ pkt
  exact ⟨r₁, r₂, henq, hdeq, hr₂, hstored₂⟩

theorem Empty.ringIsEmpty {r : SimpleRing} {size : ℤ} (hr : Empty size r) : ringIsEmpty r := by
  rw [ringIsEmpty_eq hr.1, hr.2]
  rfl

/-- **One iteration.** The packet goes through both rings and is written. -/
theorem dispatch_eq {size3 size4 : ℤ} (h3 : 2 ≤ size3) (h3' : size3 < 2 ^ 31) (h4 : 2 ≤ size4)
    (h4' : size4 < 2 ^ 31) {p : Rings} (hp3 : Empty size3 p.ring3) (hp4 : Empty size4 p.ring4)
    {pkt : Packet} (hpkt : pkt.Terminated) :
    ∃ p' w, dispatch p pkt true = some (p', [w]) ∧ Carries pkt w ∧ p'.running ∧
      Empty size3 p'.ring3 ∧ Empty size4 p'.ring4 := by
  obtain ⟨pkt', hmodify, hbytes, hlen, hstrlen⟩ := modify_eq hpkt
  obtain ⟨r₁, r₂, henq3, hdeq3, hr₂⟩ := pass_through h3 h3' hp3 pkt
  obtain ⟨r₃, r₄, henq4, hdeq4, hr₄⟩ := pass_through h4 h4' hp4 pkt'
  refine ⟨⟨r₂, r₄, true⟩, ⟨1, pkt'.data, pkt'.len.setWidth 32, 0⟩, ?_,
    carries_modify hbytes hlen hstrlen, rfl, hr₂, hr₄⟩
  unfold dispatch
  simp only [Option.bind_eq_bind, Option.bind_some, henq3, hdeq3, hmodify, henq4, hdeq4, if_true,
    Option.pure_def]

theorem idle_step {size3 size4 : ℤ} (h3 : 2 ≤ size3) (h3' : size3 < 2 ^ 31) (h4 : 2 ≤ size4)
    (h4' : size4 < 2 ^ 31) {s : Option Rings} (hs : Idle size3 size4 s) {pkt : Packet}
    (hpkt : pkt.Terminated) :
    Idle size3 size4 (dispatcher.step s (pkt, true)) ∧
      ∃ w, dispatcher.out s (pkt, true) = [w] ∧ Carries pkt w := by
  obtain ⟨p, rfl, hrun, hp3, hp4⟩ := hs
  obtain ⟨p', w, heq, hw, hrun', hp3', hp4'⟩ := dispatch_eq h3 h3' h4 h4' hp3 hp4 hpkt
  unfold dispatcher
  dsimp only
  rw [Option.bind_some, Option.bind_some, if_pos hrun, if_pos hrun, heq]
  exact ⟨⟨p', rfl, hrun', hp3', hp4'⟩, w, rfl, hw⟩

theorem setup_idle {size3 size4 : ℤ} (h3 : 2 ≤ size3) (h4 : 2 ≤ size4) :
    Idle size3 size4 (setup size3 size4) := by
  obtain ⟨r₃, hr₃, hvalid₃, hempty₃⟩ := ringInit_valid (show 1 ≤ size3 by omega)
  obtain ⟨r₄, hr₄, hvalid₄, hempty₄⟩ := ringInit_valid (show 1 ≤ size4 by omega)
  unfold setup
  rw [hr₃, hr₄]
  exact ⟨_, rfl, rfl, ⟨hvalid₃, hempty₃⟩, hvalid₄, hempty₄⟩

/-- **The dispatcher.** When every packet received is terminated and every entry is available,
each iteration stays within its buffers and leaves both rings empty, and the writes carry the
results of the packets, one for one and in order. -/
theorem dispatcher_writes {size3 size4 : ℤ} (h3 : 2 ≤ size3) (h3' : size3 ≤ 2 ^ 31 - 1)
    (h4 : 2 ≤ size4) (h4' : size4 ≤ 2 ^ 31 - 1) (pkts : List Packet)
    (hpkts : ∀ p ∈ pkts, p.Terminated) :
    List.Forall₂ Carries pkts
        (dispatcher.trace (setup size3 size4) (pkts.map fun p => (p, true))) ∧
      dispatcher.Steps Drained (setup size3 size4) (pkts.map fun p => (p, true)) := by
  have hidle := setup_idle h3 h4
  generalize setup size3 size4 = s at hidle ⊢
  induction pkts generalizing s with
  | nil => exact ⟨.nil, trivial⟩
  | cons pkt pkts ih =>
    obtain ⟨hstep, w, hout, hw⟩ := idle_step h3 (by omega) h4 (by omega) hidle
      (hpkts pkt List.mem_cons_self)
    obtain ⟨htrace, hsteps⟩ := ih (fun p hp => hpkts p (List.mem_cons_of_mem _ hp)) _ hstep
    rw [List.map_cons, Machine.trace_cons, hout]
    refine ⟨.cons hw htrace, ?_, hsteps⟩
    obtain ⟨p, hp, hrun, hp3, hp4⟩ := hstep
    exact ⟨p, hp, hrun, hp3.ringIsEmpty, hp4.ringIsEmpty⟩

/-- The string of `k` equal bytes. -/
def Packet.uniform (b : BitVec 8) (k : ℕ) (hk : k < packetSize) : Packet where
  len := BitVec.ofNat 64 (k + 1)
  data := ⟨(List.replicate k b ++ List.replicate (packetSize - k) 0).toArray, by
    rw [List.size_toArray, List.length_append, List.length_replicate, List.length_replicate]
    omega⟩

theorem Packet.uniform_terminated {b : BitVec 8} (hb : b ≠ 0) {k : ℕ} (hk : k < packetSize) :
    (uniform b k hk).Terminated := by
  have hlist : (uniform b k hk).data.toList =
      List.replicate k b ++ 0 :: List.replicate (packetSize - k - 1) 0 := by
    rw [← List.replicate_succ, show packetSize - k - 1 + 1 = packetSize - k by omega]
    rfl
  have hsize : packetSize = 2048 := rfl
  refine ⟨k, ?_, ?_⟩
  · rw [(chars_eq hlist fun c hc => List.eq_of_mem_replicate hc ▸ hb).2, List.length_replicate]
  · show (BitVec.ofNat 64 (k + 1)).toNat = _
    rw [BitVec.toNat_ofNat]
    omega

/-- A string that the literal does not fit behind, twice through a ring of two cells. -/
theorem dispatcher_writes_twice :
    let p := Packet.uniform 97 2040 (by decide)
    List.Forall₂ Carries [p, p] (dispatcher.trace (setup 2 64) [(p, true), (p, true)]) ∧
      dispatcher.Steps Drained (setup 2 64) [(p, true), (p, true)] := by
  intro p
  have hp : p.Terminated := Packet.uniform_terminated (by decide) _
  exact dispatcher_writes (by decide) (by decide) (by decide) (by decide) [p, p] (by simp [hp])

end ClickhouseUring.Pipeline
