import ClickhouseUring.Backup.Hooks
import ClickhouseUring.FileCopy.Loop

/-!
# `victim.c` under the probe on `pread`

`bpf_pread_patch` of `backup.bpf.c` queues the reads of `victim` on a ring and overrides their
return value with 22, whatever was asked for.  The copy then takes 22 bytes of its buffer in every
iteration (`victim_patched`).  Its other calls are left alone: `bpf_write_patch` of the same file,
which would override its writes, is not attached.
-/

namespace ClickhouseUring.FileCopy

open Uring CInt Backup

/-- `victim`, the probe's maps and the ring of the process. -/
structure Patched where
  state : State
  maps : Maps
  ring : IoRing IoOp

/-- What the system contributes to an iteration: the result of the submit helper, that of the read
should it run, and the first bytes of `buffer` when the call returns. -/
structure Turn where
  ret : BitVec 32
  native : Option (List UInt8)
  buffer : List UInt8

section Steps

variable (pid : BitVec 32) (fd : Int) (buf : BitVec 64)

/-- The call of `pread`. -/
def Copy.pread (c : Copy) : IoOp :=
  .pread fd buf (BitVec.ofInt 64 c.request) (BitVec.ofInt 64 (Program.victim.position c))

/-- What `pread` returns under the probe, as the bytes that the program goes on to write. -/
def Turn.result (t : Turn) : Option (BitVec 64) → Option (List UInt8)
  | some value => some (t.buffer.take value.toNat)
  | none => t.native

/-- An iteration of the loop. -/
def Patched.step (s : Patched) (t : Turn) : Patched :=
  match s.state with
  | .looping c =>
    let o := hook s.maps pid (.call (c.pread fd buf) t.ret)
    ⟨Program.victim.body c (t.result o.override), o.maps, (s.ring.run o.cmds).getD s.ring⟩
  | .exitSuccess _ => s
  | .exitFailure _ => s

/-- The program under the probe; it reports its reads. -/
def patchedVictim : Machine Patched Turn IoOp where
  step := Patched.step pid fd buf
  out s _ := match s.state with
    | .looping c => [c.pread fd buf]
    | .exitSuccess _ => []
    | .exitFailure _ => []

/-- Before the loop, after `bpf_start_patch`. -/
def Patched.start (stSize : ℤ) (m : Maps) : Patched :=
  ⟨FileCopy.start stSize, (bpfStartPatch m).maps, .empty⟩

/-! ## Iterations -/

/-- The read of iteration `i` of a file of `n` bytes. -/
def readAt (n i : ℕ) : IoOp :=
  .pread fd buf (BitVec.ofNat 64 (min 1024 (n - 22 * i))) (BitVec.ofNat 64 (1024 * i))

/-- The reads of so many iterations. -/
def readsFrom (n i len : ℕ) : List IoOp := (List.range' i len).map (readAt fd buf n)

/-- After `i` iterations, with the probe's counter and the ring. -/
structure Iterated (n i : ℕ) (s : Patched) : Prop where
  ok : s.maps.Ok
  global : s.maps.global = true
  opCount : s.maps.opCount.toNat = i % 1024
  inflight : s.ring.inflight = 0
  queued : s.ring.queued.map Sqe.op = readsFrom fd buf n (1024 * (i / 1024)) (i % 1024)
  state : ∃ temp, temp.length = 22 * i ∧ s.state = Copy.head ⟨n - 22 * i, i, 0, temp⟩

end Steps

variable {pid : BitVec 32} {fd : Int} {buf : BitVec 64} {n i : ℕ} {s : Patched} {t : Turn}

theorem iterated_start {m : Maps} (hm : m.Ok) (hn : n < 2 ^ 31) :
    Iterated fd buf n 0 (.start n m) where
  ok := hm.reset _ _
  global := rfl
  opCount := rfl
  inflight := rfl
  queued := rfl
  state := by
    have hwrap : wrap 32 n = n :=
      wrap_eq_self (fits_of_nonneg (Int.natCast_nonneg n) (by omega))
    refine ⟨[], rfl, ?_⟩
    unfold Patched.start FileCopy.start
    dsimp only
    rw [hwrap]
    simp

/-- The arguments of the read. -/
theorem pread_eq {c : Copy} (hlt : 22 * i < n) (hn : n ≤ 22 * 2 ^ 21)
    (hrem : c.remainingBytes = n - 22 * i) (hcount : c.count = i) :
    c.pread fd buf = readAt fd buf n i := by
  have hreq : c.request = (min 1024 (n - 22 * i) : ℕ) := by
    unfold Copy.request bufferSize
    rw [hrem]
    split_ifs <;> omega
  have hpos : Program.victim.position c = (1024 * i : ℕ) := by
    show wrap 32 (c.count * bufferSize) = _
    unfold bufferSize
    rw [hcount, wrap_eq_self]
    · push_cast
      omega
    · exact fits_of_nonneg (by omega) (by omega)
  unfold Copy.pread readAt
  rw [hreq, hpos, BitVec.ofInt_natCast, BitVec.ofInt_natCast]

/-- The body of the loop when `pread` returned 22. -/
theorem body_overridden {c : Copy} {bytes : List UInt8} (hlen : bytes.length = 22)
    (hrem : Fits 32 (c.remainingBytes - 22)) (hcount : Fits 32 (c.count + 1)) :
    Program.victim.body c (some bytes) =
      Copy.head ⟨c.remainingBytes - 22, c.count + 1, c.offset, c.temp ++ bytes⟩ := by
  have hreturned : returned (some bytes) = 22 := congrArg Nat.cast hlen
  unfold Program.body
  dsimp only
  rw [hreturned, wrap_eq_self hrem, wrap_eq_self hcount]
  rfl

theorem readsFrom_concat (fd : Int) (buf : BitVec 64) (n j len : ℕ) :
    readsFrom fd buf n j (len + 1) = readsFrom fd buf n j len ++ [readAt fd buf n (j + len)] := by
  unfold readsFrom
  rw [List.range'_concat, List.map_append, Nat.one_mul]
  rfl

/-- **One iteration.** The read is queued, or as the 1024th flushes its batch, and 22 bytes of the
buffer are written. -/
theorem Iterated.step (pid : BitVec 32) (hs : Iterated fd buf n i s) (hfd : 3 ≤ fd)
    (hlt : 22 * i < n) (hn : n ≤ 22 * 2 ^ 21) (hret : t.ret = 0) (hbuffer : 22 ≤ t.buffer.length) :
    (patchedVictim pid fd buf).out s t = [readAt fd buf n i] ∧
      Iterated fd buf n (i + 1) ((patchedVictim pid fd buf).step s t) := by
  obtain ⟨temp, htemp, hstate⟩ := hs.state
  have hopCount := hs.opCount
  have hlooping : s.state = .looping ⟨n - 22 * i, i, 0, temp⟩ := by
    rw [hstate, Copy.head, if_pos (by dsimp only; omega)]
  have hread : Copy.pread fd buf ⟨n - 22 * i, i, 0, temp⟩ = readAt fd buf n i :=
    pread_eq hlt hn rfl rfl
  have hbody : Program.victim.body ⟨n - 22 * i, i, 0, temp⟩ (some (t.buffer.take 22)) =
      Copy.head ⟨n - 22 * (i + 1 : ℕ), (i + 1 : ℕ), 0, temp ++ t.buffer.take 22⟩ := by
    have hlen : (t.buffer.take 22).length = 22 := by
      rw [List.length_take]
      omega
    rw [body_overridden hlen]
    · push_cast
      congr 2
      omega
    · exact ⟨by dsimp only; omega, by dsimp only; omega⟩
    · exact ⟨by dsimp only; omega, by dsimp only; omega⟩
  have hlast : readAt fd buf n (1024 * (i / 1024) + i % 1024) = readAt fd buf n i := by
    rw [Nat.div_add_mod]
  constructor
  · show (match s.state with
      | .looping c => [c.pread fd buf]
      | .exitSuccess _ => []
      | .exitFailure _ => []) = _
    rw [hlooping]
    exact congrArg (fun op => [op]) hread
  · show Iterated fd buf n (i + 1) (s.step pid fd buf t)
    unfold Patched.step
    rw [hlooping]
    dsimp only
    rw [hread, hret]
    have hintercepts : Intercepts s.maps (readAt fd buf n i) := ⟨hs.global, hfd⟩
    have hok := hook_ok hs.ok pid (.call (readAt fd buf n i) 0)
    have ha := hook_acts hs.ok pid (.call (readAt fd buf n i) 0)
    generalize hook s.maps pid (.call (readAt fd buf n i) 0) = o at ha hok
    cases ha with
    | idle h => exact absurd hintercepts h
    | refused h hr => exact absurd rfl hr
    | queued h hc =>
      unfold batchSize at hc
      have hdiv : (i + 1) / 1024 = i / 1024 := by omega
      have hmod : (i + 1) % 1024 = i % 1024 + 1 := by omega
      have hrun : s.ring.run (readAt fd buf n i).pushCmds =
          some (s.ring.add ⟨readAt fd buf n i, true⟩) := by
        have h := run_pushCmds s.ring (readAt fd buf n i) []
        rwa [List.append_nil] at h
      rw [hrun]
      refine ⟨hok, hs.global, ?_, hs.inflight, ?_, ⟨temp ++ t.buffer.take 22, ?_, hbody⟩⟩
      · rw [toNat_opCount_record hs.ok, hopCount, hmod]
      · rw [hdiv, hmod, readsFrom_concat, hlast, ← hs.queued]
        exact List.map_append
      · rw [List.length_append, List.length_take, htemp]
        omega
    | filled h hc =>
      unfold batchSize at hc
      have hdiv : 1024 * ((i + 1) / 1024) = i + 1 := by omega
      have hmod : (i + 1) % 1024 = 0 := by omega
      have hall : (s.ring.add ⟨readAt fd buf n i, true⟩).outstanding = 1024 := by
        have hlen := congrArg List.length hs.queued
        unfold readsFrom at hlen
        rw [List.length_map, List.length_map, List.length_range'] at hlen
        rw [IoRing.outstanding_add, IoRing.outstanding, hs.inflight]
        omega
      have hrun : s.ring.run ((readAt fd buf n i).pushCmds ++
          .submit :: List.replicate batchSize .wait) = some .empty := by
        rw [run_pushCmds]
        have h := IoRing.run_flush (s.ring.add ⟨readAt fd buf n i, true⟩)
        rwa [hall] at h
      rw [hrun]
      refine ⟨hok, hs.global, ?_, rfl, ?_, ⟨temp ++ t.buffer.take 22, ?_, hbody⟩⟩
      · rw [hmod]
        rfl
      · rw [hdiv, hmod]
        rfl
      · rw [List.length_append, List.length_take, htemp]
        omega

/-! ## The whole copy -/

/-- The number of iterations. -/
def iterations (n : ℕ) : ℕ := (n + 21) / 22

/-- What the system contributes when the helper queues every read. -/
def Turn.Queues (t : Turn) : Prop := t.ret = 0 ∧ 22 ≤ t.buffer.length

theorem iterated_run (pid : BitVec 32) (buf : BitVec 64) {m : Maps} {ts : List Turn} (hm : m.Ok)
    (hfd : 3 ≤ fd) (hn : n ≤ 22 * 2 ^ 21) (hts : ∀ t ∈ ts, t.Queues)
    (hlen : ts.length ≤ iterations n) :
    (patchedVictim pid fd buf).trace (.start n m) ts = readsFrom fd buf n 0 ts.length ∧
      Iterated fd buf n ts.length ((patchedVictim pid fd buf).after (.start n m) ts) := by
  induction ts using List.reverseRecOn with
  | nil => exact ⟨rfl, iterated_start hm (by omega)⟩
  | append_singleton ts t ih =>
    rw [List.length_append, List.length_singleton] at hlen ⊢
    obtain ⟨htrace, hs⟩ :=
      ih (fun t' ht' => hts t' (List.mem_append_left _ ht')) (by omega)
    obtain ⟨hret, hbuffer⟩ := hts t (List.mem_append_right _ List.mem_cons_self)
    have hlt : 22 * ts.length < n := by
      unfold iterations at hlen
      omega
    obtain ⟨hout, hstep⟩ := hs.step pid hfd hlt hn hret hbuffer
    rw [Machine.trace_concat, Machine.after_concat, htrace, hout, readsFrom_concat, Nat.zero_add]
    exact ⟨rfl, hstep⟩

/-- **The patched copy.** For a file of `n` bytes `victim` takes one iteration for every 22 of them,
however large they are, and returns `EXIT_SUCCESS`; `temp.txt` then has 22 bytes for each iteration.
Its reads are 1024 bytes apart, so most of them are behind the end of the file; the last
`iterations n % 1024` of them are still on the ring. -/
theorem victim_patched {m : Maps} {ts : List Turn} (hm : m.Ok) (hfd : 3 ≤ fd)
    (hn : n ≤ 22 * 2 ^ 21) (hts : ∀ t ∈ ts, t.Queues) (hlen : ts.length = iterations n) :
    let s := (patchedVictim pid fd buf).after (.start n m) ts
    (patchedVictim pid fd buf).trace (.start n m) ts = readsFrom fd buf n 0 (iterations n) ∧
      (∃ temp, s.state = .exitSuccess temp ∧ temp.length = 22 * iterations n) ∧
      s.maps.opCount.toNat = iterations n % 1024 ∧
      s.ring.queued.map Sqe.op =
        readsFrom fd buf n (1024 * (iterations n / 1024)) (iterations n % 1024) := by
  obtain ⟨htrace, hs⟩ := iterated_run pid buf hm hfd hn hts hlen.le
  rw [hlen] at htrace hs
  obtain ⟨temp, htemp, hstate⟩ := hs.state
  refine ⟨htrace, ⟨temp, ?_, htemp⟩, hs.opCount, hs.queued⟩
  have hnonpos : (n : ℤ) - 22 * (iterations n : ℕ) ≤ 0 := by
    unfold iterations
    omega
  rw [hstate, Copy.head, if_neg (not_lt.mpr hnonpos)]

/-- A file of 23 bytes becomes one of 44. -/
theorem victim_patched_of_23 : ∃ temp,
    ((patchedVictim 7 3 0).after (.start (23 : ℕ) initial.maps)
      (List.replicate 2 ⟨0, none, List.replicate 22 0⟩)).state = .exitSuccess temp ∧
      temp.length = 44 := by
  have hok : initial.maps.Ok := ⟨by decide, fun _ hk => by simp [initial] at hk⟩
  have hqueues : ∀ t ∈ List.replicate 2 (⟨0, none, List.replicate 22 0⟩ : Turn), t.Queues := by
    intro t ht
    rw [List.eq_of_mem_replicate ht]
    exact ⟨rfl, by decide⟩
  exact (@victim_patched 7 3 0 23 initial.maps _ hok (by decide) (by decide) hqueues rfl).2.1

end ClickhouseUring.FileCopy
