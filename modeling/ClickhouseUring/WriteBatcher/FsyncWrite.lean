import ClickhouseUring.Kit.Disk
import ClickhouseUring.Kit.Reorder
import ClickhouseUring.WriteBatcher.Accounting

/-!
# `iouring_hotpatch/fsync_write.c` under the batching probes

`clickhouse-iouring/rocksdb.c` attaches its probes to this program.  An iteration of its loop
appends five bytes to `temp.txt`, waits for an `fsync` and counts the pair.  With the probes both
calls are queued instead, and the kernel executes a batch of 49 in any order.

So `count` runs ahead of what a crash would leave.  `fsyncWrite_synced` says how far: everything
but the last 48 counted appends is safe, whatever the orders, and no better bound holds.
-/

namespace ClickhouseUring.WriteBatcher

open Uring

/-! ## The program -/

/-- `data`. -/
def hello : List UInt8 := [72, 101, 108, 108, 111]

/-- What a call does to `temp.txt`. -/
def Call.diskOp : Call → Disk.Op
  | .write _ _ n => .append (hello.take n.toNat)
  | .fsync _ => .sync

/-- A call, executed. -/
def effect (c : Call) (d : Disk) : Disk := Disk.act c.diskOp d

/-- What an executed call returns. -/
def Call.returned : Call → ℤ
  | .write _ _ n => n.toInt
  | .fsync _ => 0

/-- The order in which the kernel executes a submission. -/
structure KernelOrder where
  order : List (Sqe Call) → List ℕ
  permitted : ∀ b, Permitted b (order b)

/-- `count`, whether the loop goes on, the probes and the file.  The `int` is a natural number: the
loop ends after three seconds, and `2 ^ 31` pairs of system calls take longer. -/
structure FsyncWrite where
  count : ℕ
  looping : Bool
  hooks : Sys
  disk : Disk

/-- A call under a probe: the state and what it returns.  The submit helpers queue every call. -/
def FsyncWrite.call (probe : Int → Call → Outcome) (s : FsyncWrite) (c : Call) (k : KernelOrder) :
    FsyncWrite × ℤ :=
  let o := probe s.hooks.currentCount c
  let hooks : Sys := ⟨o.currentCount, (s.hooks.ring.run o.cmds).getD s.hooks.ring⟩
  let disk := kernel (fun b d => serve effect b (k.order b) d) s.hooks.ring o.cmds s.disk
  match o.override with
  | some value => ({ s with hooks, disk }, value.toInt)
  | none => ({ s with hooks, disk := effect c disk }, c.returned)

/-- The orders of the submissions that the calls of an iteration make, should they make one. -/
structure Turn where
  write : KernelOrder
  fsync : KernelOrder

section Loop

variable (probe : Int → Call → Outcome) (fd : Int) (data : BitVec 64)

/-- An iteration of the loop in `test`. -/
def iteration (s : FsyncWrite) (t : Turn) : FsyncWrite :=
  if s.looping then
    let (s, written) := s.call probe (.write fd data 5) t.write
    if written ≠ 5 then { s with looping := false }
    else
      let (s, synced) := s.call probe (.fsync fd) t.fsync
      if synced < 0 then { s with looping := false } else { s with count := s.count + 1 }
  else s

/-- The loop of `test`. -/
def fsyncWrite : Machine FsyncWrite Turn Unit where
  step := iteration probe fd data
  out _ _ := []

end Loop

/-- Without the probes. -/
def unprobed (currentCount : Int) (_ : Call) : Outcome := ⟨currentCount, [], none⟩

/-- Before the loop, with what the file held before. -/
def FsyncWrite.start (old : List UInt8) : FsyncWrite := ⟨0, true, started, .stable old⟩

/-! ## Batches -/

/-- `data`, so many times. -/
def hellos (m : ℕ) : List UInt8 := (List.replicate m hello).flatten

theorem hellos_append (m n : ℕ) : hellos m ++ hellos n = hellos (m + n) := by
  unfold hellos
  rw [List.replicate_add, List.flatten_append]

theorem length_hellos (m : ℕ) : (hellos m).length = 5 * m := by
  unfold hellos
  simp [hello, Nat.mul_comm]

/-- How many of the calls of `b` batches are writes. -/
def writes (b : ℕ) : ℕ := (49 * b + 1) / 2

section Batches

variable (fd : Int) (data : BitVec 64)

/-- The calls of the loop in order. -/
def callAt (i : ℕ) : Call := if i % 2 = 0 then .write fd data 5 else .fsync fd

theorem callAt_deferred (i : ℕ) : (callAt fd data i).Deferred := by
  unfold callAt
  split_ifs
  · rfl
  · trivial

theorem bytes_callAt (i : ℕ) :
    (callAt fd data i).diskOp.bytes = hellos (if i % 2 = 0 then 1 else 0) := by
  unfold callAt
  split_ifs <;> rfl

/-- What consecutive calls append. -/
theorem bytes_calls (a n : ℕ) :
    ((List.range' a n).map (callAt fd data)).flatMap (fun c => c.diskOp.bytes) =
      hellos ((a + n + 1) / 2 - (a + 1) / 2) := by
  induction n with
  | zero => simp [hellos]
  | succ n ih =>
    rw [List.range'_concat, List.map_append, List.flatMap_append, ih, List.map_singleton,
      List.flatMap_singleton, Nat.one_mul, bytes_callAt, hellos_append]
    congr 1
    split_ifs <;> omega

/-- The entries of consecutive calls. -/
def entries (a n : ℕ) : List (Sqe Call) := (List.range' a n).map fun i => ⟨callAt fd data i, false⟩

theorem entries_op (a n : ℕ) :
    (entries fd data a n).map Sqe.op = (List.range' a n).map (callAt fd data) := by
  unfold entries
  rw [List.map_map]
  rfl

theorem length_entries (a n : ℕ) : (entries fd data a n).length = n := by
  unfold entries
  rw [List.length_map, List.length_range']

theorem entries_concat (a n : ℕ) :
    entries fd data a n ++ [⟨callAt fd data (a + n), false⟩] = entries fd data a (n + 1) := by
  unfold entries
  rw [List.range'_concat, List.map_append, List.map_singleton, Nat.one_mul]

theorem execAll_effect (cs : List Call) (d : Disk) :
    execAll effect cs d = Disk.run (cs.map Call.diskOp) d := by
  unfold execAll Disk.run
  rw [List.foldl_map]
  rfl

/-- A batch in any order appends its writes and makes safe what was there before. -/
theorem serve_batch (k : KernelOrder) (m : ℕ) (d : Disk) :
    let d' := serve effect (entries fd data (49 * m) 49)
      (k.order (entries fd data (49 * m) 49)) d
    d'.content = d.content ++ hellos (writes (m + 1) - writes m) ∧
      d.content.length ≤ d'.synced := by
  obtain ⟨hserve, hperm⟩ := serve_eq_execAll_perm effect
    (k.permitted (entries fd data (49 * m) 49)).1 d
  dsimp only
  rw [hserve, execAll_effect]
  rw [entries_op] at hperm
  generalize List.filterMap _ _ = ops at hperm
  constructor
  · have hcommute : ∀ c ∈ (List.range' (49 * m) 49).map (callAt fd data),
        ∃ n, c.diskOp.bytes = hellos n := by
      intro c hc
      obtain ⟨i, -, rfl⟩ := List.mem_map.mp hc
      exact ⟨_, bytes_callAt fd data i⟩
    rw [Disk.content_run, List.flatMap_map, flatMap_perm_of_commute hperm, bytes_calls]
    · congr 2
    · intro x hx y hy
      obtain ⟨n, hn⟩ := hcommute x hx
      obtain ⟨n', hn'⟩ := hcommute y hy
      rw [hn, hn', hellos_append, hellos_append, Nat.add_comm]
  · -- one of the first two calls is a sync
    apply Disk.length_le_synced_run
    have hsync : Call.fsync fd ∈ (List.range' (49 * m) 49).map (callAt fd data) := by
      refine List.mem_map.mpr ⟨49 * m + (m + 1) % 2, ?_, ?_⟩
      · rw [List.mem_range'_1]
        omega
      · exact if_neg (by omega)
    exact List.mem_map.mpr ⟨_, hperm.mem_iff.mpr hsync, rfl⟩

/-! ## Syncs first -/

def isSync (b : List (Sqe Call)) (i : ℕ) : Bool :=
  match b[i]? with
  | some ⟨.fsync _, _⟩ => true
  | _ => false

/-- The kernel executes the syncs of a submission before its writes. -/
def syncsFirst : KernelOrder where
  order b :=
    if ∀ q ∈ b, q.link = false then
      (List.range b.length).filter (isSync b) ++ (List.range b.length).filter (!isSync b ·)
    else List.range b.length
  permitted b := by
    split_ifs with h
    · refine ⟨List.filter_append_perm _ _, fun i hi hlink => ?_⟩
      obtain ⟨q, hq, hlink⟩ := Option.map_eq_some_iff.mp hlink
      rw [h q (List.mem_of_getElem? hq)] at hlink
      cases hlink
    · exact permitted_range b

theorem getElem?_entries {a n i : ℕ} (h : i < n) :
    (entries fd data a n)[i]? = some ⟨callAt fd data (a + i), false⟩ := by
  unfold entries
  rw [List.getElem?_map, List.getElem?_range' h, Nat.one_mul]
  rfl

theorem isSync_entries {a n i : ℕ} (h : i < n) :
    isSync (entries fd data a n) i = decide ((a + i) % 2 = 1) := by
  unfold isSync
  rw [getElem?_entries fd data h]
  rcases Nat.mod_two_eq_zero_or_one (a + i) with heven | hodd
  · simp [callAt, heven]
  · simp [callAt, hodd]

/-- With its syncs first a batch makes safe what was there before, and no more. -/
theorem serve_syncsFirst (m : ℕ) (d : Disk) :
    (serve effect (entries fd data (49 * m) 49)
      (syncsFirst.order (entries fd data (49 * m) 49)) d).synced = d.content.length := by
  have hunlinked : ∀ q ∈ entries fd data (49 * m) 49, q.link = false := by
    intro q hq
    obtain ⟨i, -, rfl⟩ := List.mem_map.mp hq
    rfl
  have horder : syncsFirst.order (entries fd data (49 * m) 49) =
      (List.range 49).filter (isSync (entries fd data (49 * m) 49)) ++
        (List.range 49).filter (!isSync (entries fd data (49 * m) 49) ·) := by
    unfold syncsFirst
    dsimp only
    rw [if_pos hunlinked, length_entries]
  have hop : ∀ i < 49, (entries fd data (49 * m) 49)[i]?.map Sqe.op =
      some (callAt fd data (49 * m + i)) := by
    intro i hi
    rw [getElem?_entries fd data hi]
    rfl
  rw [(serve_eq_execAll_perm effect (syncsFirst.permitted _).1 d).1, execAll_effect, horder,
    List.filterMap_append, List.map_append]
  apply Disk.synced_run_syncs_first
  · -- one of the first two calls is a sync
    have hfirst : (m + 1) % 2 ∈
        (List.range 49).filter (isSync (entries fd data (49 * m) 49)) := by
      rw [List.mem_filter, List.mem_range, isSync_entries fd data (by omega)]
      exact ⟨by omega, decide_eq_true (by omega)⟩
    have hlt : (m + 1) % 2 < 49 := by omega
    have hcall : callAt fd data (49 * m + (m + 1) % 2) ∈ List.filterMap
        (fun i => (entries fd data (49 * m) 49)[i]?.map Sqe.op)
        ((List.range 49).filter (isSync (entries fd data (49 * m) 49))) :=
      List.mem_filterMap.mpr ⟨_, hfirst, hop _ hlt⟩
    exact List.ne_nil_of_mem (List.mem_map_of_mem hcall)
  · intro op hmem
    obtain ⟨c, hc, rfl⟩ := List.mem_map.mp hmem
    obtain ⟨i, hi, hci⟩ := List.mem_filterMap.mp hc
    obtain ⟨hi, hsync⟩ := List.mem_filter.mp hi
    rw [List.mem_range] at hi
    rw [isSync_entries fd data hi] at hsync
    have hodd := of_decide_eq_true hsync
    rw [hop i hi] at hci
    rw [← Option.some.inj hci, callAt, if_neg (by omega)]
    rfl
  · intro hmem
    obtain ⟨c, hc, hcsync⟩ := List.mem_map.mp hmem
    obtain ⟨i, hi, hci⟩ := List.mem_filterMap.mp hc
    obtain ⟨hi, hsync⟩ := List.mem_filter.mp hi
    rw [List.mem_range] at hi
    rw [isSync_entries fd data hi] at hsync
    have heven : (49 * m + i) % 2 = 0 := by
      have hne : (49 * m + i) % 2 ≠ 1 := by simpa using hsync
      omega
    rw [hop i hi] at hci
    rw [← Option.some.inj hci, callAt, if_pos heven] at hcsync
    cases hcsync

/-! ## Counting the calls -/

/-- The probes and the file after `j` calls; `worst` says that the syncs of every batch came
first. -/
structure Reached (old : List UInt8) (worst : Prop) (j : ℕ) (s : FsyncWrite) : Prop where
  ring_eq : s.hooks.ring = ⟨entries fd data (49 * (j / 49)) (j % 49), 0⟩
  count_eq : s.hooks.currentCount = (j % 49 : ℕ)
  content_eq : s.disk.content = old ++ hellos (writes (j / 49))
  le_synced : old.length + 5 * writes (j / 49 - 1) ≤ s.disk.synced
  synced_eq : worst → s.disk.synced = old.length + 5 * writes (j / 49 - 1)

theorem reached_start (old : List UInt8) (worst : Prop) :
    Reached fd data old worst 0 (.start old) where
  ring_eq := rfl
  count_eq := rfl
  content_eq := (List.append_nil old).symm
  le_synced := Nat.le_refl _
  synced_eq _ := rfl

variable {fd data} {old : List UInt8} {worst : Prop} {j : ℕ} {s : FsyncWrite}

/-- **One call.** -/
theorem Reached.call (hs : Reached fd data old worst j s) (k : KernelOrder)
    (hk : worst → k = syncsFirst) :
    Reached fd data old worst (j + 1) (s.call hook (callAt fd data j) k).1 ∧
      (s.call hook (callAt fd data j) k).2 = (callAt fd data j).result.toInt ∧
      (s.call hook (callAt fd data j) k).1.count = s.count ∧
      (s.call hook (callAt fd data j) k).1.looping = s.looping := by
  have hcount := hs.count_eq
  have hlast : callAt fd data (49 * (j / 49) + j % 49) = callAt fd data j := by
    rw [Nat.div_add_mod]
  have ha := hook_acts s.hooks.currentCount (callAt fd data j)
  unfold FsyncWrite.call
  generalize hook s.hooks.currentCount (callAt fd data j) = o at ha
  cases ha with
  | native hc => exact absurd (callAt_deferred fd data j) hc
  | queued hc h =>
    unfold patchSize at h
    have hdiv : (j + 1) / 49 = j / 49 := by omega
    have hmod : (j + 1) % 49 = j % 49 + 1 := by omega
    refine ⟨⟨?_, ?_, ?_, ?_, ?_⟩, rfl, rfl, rfl⟩
    · rw [hdiv, hmod, ← entries_concat, hlast, hs.ring_eq]
      rfl
    · rw [hmod, hcount]
      rfl
    · rw [hdiv]
      exact hs.content_eq
    · rw [hdiv]
      exact hs.le_synced
    · rw [hdiv]
      exact hs.synced_eq
  | filled hc h =>
    unfold patchSize at h
    have hmod48 : j % 49 = 48 := by omega
    have hdiv : (j + 1) / 49 = j / 49 + 1 := by omega
    have hmod : (j + 1) % 49 = 0 := by omega
    have hsettled : Settled s.hooks :=
      ⟨by rw [hs.ring_eq], by rw [hs.ring_eq, hcount, length_entries], by rw [hcount, hmod48]; rfl⟩
    have hlen : s.hooks.ring.queued.length = 48 := by rw [hs.ring_eq, length_entries, hmod48]
    have hn : (s.hooks.currentCount + 1).toNat = 49 := by omega
    -- the call completes the batch
    have hbatch : (s.hooks.ring.add ⟨callAt fd data j, false⟩).queued =
        entries fd data (49 * (j / 49)) 49 := by
      show s.hooks.ring.queued ++ _ = _
      rw [hs.ring_eq, ← hlast, hmod48, entries_concat]
    have hdisk : kernel (fun b d => serve effect b (k.order b) d) s.hooks.ring
        (.push (callAt fd data j) true :: .submit :: List.replicate 49 .wait) s.disk =
        serve effect (entries fd data (49 * (j / 49)) 49)
          (k.order (entries fd data (49 * (j / 49)) 49)) s.disk := by
      rw [← hbatch]
      exact kernel_flush (fun b d => serve effect b (k.order b) d)
        (s.hooks.ring.add ⟨callAt fd data j, false⟩) 49 s.disk
    obtain ⟨hcontent, hsynced⟩ := serve_batch fd data k (j / 49) s.disk
    have hlength : s.disk.content.length = old.length + 5 * writes (j / 49) := by
      rw [hs.content_eq, List.length_append, length_hellos]
    have hwrites : writes (j / 49) ≤ writes (j / 49 + 1) := by
      unfold writes
      omega
    dsimp only
    rw [hn, run_filled hsettled hlen, hdisk]
    refine ⟨⟨?_, ?_, ?_, ?_, ?_⟩, rfl, rfl, rfl⟩
    · rw [hmod]
      rfl
    · rw [hmod]
      rfl
    · rw [hdiv]
      show (serve effect _ _ s.disk).content = _
      rw [hcontent, hs.content_eq, List.append_assoc, hellos_append, Nat.add_sub_cancel' hwrites]
    · rw [hdiv, Nat.add_sub_cancel, ← hlength]
      exact hsynced
    · intro hworst
      rw [hdiv, Nat.add_sub_cancel, ← hlength, hk hworst]
      exact serve_syncsFirst fd data (j / 49) s.disk

/-! ## Runs -/

/-- The probes and the file after `k` iterations. -/
structure Looped (fd : Int) (data : BitVec 64) (old : List UInt8) (worst : Prop) (k : ℕ)
    (s : FsyncWrite) : Prop extends Reached fd data old worst (2 * k) s where
  looping : s.looping = true
  counted : s.count = k

/-- **One iteration.** Both calls are told that they succeeded. -/
theorem Looped.iteration {k : ℕ} (hs : Looped fd data old worst k s) (t : Turn)
    (ht : worst → t.write = syncsFirst ∧ t.fsync = syncsFirst) :
    Looped fd data old worst (k + 1) (iteration hook fd data s t) := by
  have hw : callAt fd data (2 * k) = .write fd data 5 := if_pos (by omega)
  have hf : callAt fd data (2 * k + 1) = .fsync fd := if_neg (by omega)
  obtain ⟨hwrite, hwritten, hcount, hlooping⟩ :=
    hs.toReached.call t.write fun h => (ht h).1
  rw [hw] at hwrite hwritten hcount hlooping
  obtain ⟨hfsync, hsynced, hcount', hlooping'⟩ := hwrite.call t.fsync fun h => (ht h).2
  rw [hf] at hfsync hsynced hcount' hlooping'
  have hfive : (Call.write fd data 5).result.toInt = 5 := by
    show (5 : BitVec 64).toInt = 5
    decide
  have hzero : ¬ (Call.fsync fd).result.toInt < 0 := by
    show ¬ (0 : BitVec 64).toInt < 0
    decide
  unfold WriteBatcher.iteration
  rw [if_pos hs.looping]
  dsimp only
  rw [if_neg (not_not.mpr (hwritten.trans hfive)), if_neg (hsynced ▸ hzero)]
  refine ⟨⟨hfsync.ring_eq, hfsync.count_eq, hfsync.content_eq, hfsync.le_synced,
    hfsync.synced_eq⟩, ?_, ?_⟩
  · exact hlooping'.trans (hlooping.trans hs.looping)
  · show (FsyncWrite.call _ _ _ _).1.count + 1 = k + 1
    rw [hcount', hcount, hs.counted]

theorem looped_run {ts : List Turn}
    (h : worst → ∀ t ∈ ts, t.write = syncsFirst ∧ t.fsync = syncsFirst) :
    Looped fd data old worst ts.length ((fsyncWrite hook fd data).after (.start old) ts) := by
  induction ts using List.reverseRecOn with
  | nil => exact ⟨reached_start fd data old worst, rfl, rfl⟩
  | append_singleton ts t ih =>
    rw [Machine.after_concat, List.length_append, List.length_singleton]
    refine (ih fun hw t' ht' => h hw t' (List.mem_append_left _ ht')).iteration t fun hw => ?_
    exact h hw t (List.mem_append_right _ List.mem_cons_self)

end Batches

/-- **The probes.** After `k` iterations the loop goes on, with `k` counted.  The file has all but
24 of the appends counted, and a crash leaves all but 48 of them.  The kernel can bring it about
that `synced` is no more than the bound given here. -/
theorem fsyncWrite_synced (fd : Int) (data : BitVec 64) (old : List UInt8) (ts : List Turn) :
    let s := (fsyncWrite hook fd data).after (.start old) ts
    let bound := writes (2 * ts.length / 49 - 1)
    (s.looping = true ∧ s.count = ts.length) ∧
      (∃ m, ts.length ≤ m + 24 ∧ s.disk.content = old ++ hellos m) ∧
      (old.length + 5 * bound ≤ s.disk.synced ∧ ts.length ≤ bound + 48) ∧
      ∃ ts' : List Turn, ts'.length = ts.length ∧
        ((fsyncWrite hook fd data).after (.start old) ts').disk.synced =
          old.length + 5 * bound := by
  have hs : Looped fd data old False ts.length ((fsyncWrite hook fd data).after (.start old) ts) :=
    looped_run False.elim
  refine ⟨⟨hs.looping, hs.counted⟩, ⟨_, ?_, hs.content_eq⟩, ⟨hs.le_synced, ?_⟩, ?_⟩
  · unfold writes
    omega
  · unfold writes
    omega
  · refine ⟨List.replicate ts.length ⟨syncsFirst, syncsFirst⟩, List.length_replicate, ?_⟩
    have hfirst : True → ∀ t ∈ List.replicate ts.length (⟨syncsFirst, syncsFirst⟩ : Turn),
        t.write = syncsFirst ∧ t.fsync = syncsFirst := by
      intro _ t ht
      rw [List.eq_of_mem_replicate ht]
      exact ⟨rfl, rfl⟩
    have hworst : Looped fd data old True _ _ := looped_run hfirst
    rw [List.length_replicate] at hworst
    exact hworst.synced_eq trivial

/-- **Without the probes.** Every append counted is safe. -/
theorem unprobed_synced (fd : Int) (data : BitVec 64) (old : List UInt8) (ts : List Turn) :
    let s := (fsyncWrite unprobed fd data).after (.start old) ts
    s.looping = true ∧ s.count = ts.length ∧ s.disk = .stable (old ++ hellos ts.length) := by
  induction ts using List.reverseRecOn with
  | nil => exact ⟨rfl, rfl, congrArg Disk.stable (List.append_nil old).symm⟩
  | append_singleton ts t ih =>
    obtain ⟨hlooping, hcount, hdisk⟩ := ih
    dsimp only
    rw [Machine.after_concat, List.length_append, List.length_singleton]
    generalize (fsyncWrite unprobed fd data).after (.start old) ts = s at hlooping hcount hdisk ⊢
    have hfive : (Call.write fd data 5).returned = 5 := by
      show (5 : BitVec 64).toInt = 5
      decide
    have hstep : (fsyncWrite unprobed fd data).step s t = { s with
        count := s.count + 1
        hooks := ⟨s.hooks.currentCount, s.hooks.ring⟩
        disk := effect (.fsync fd) (effect (.write fd data 5) s.disk) } := by
      show iteration unprobed fd data s t = _
      unfold iteration FsyncWrite.call unprobed
      rw [if_pos hlooping]
      dsimp only
      rw [if_neg (not_not.mpr hfive)]
      rfl
    rw [hstep]
    refine ⟨hlooping, congrArg (· + 1) hcount, ?_⟩
    have hone : hello = hellos 1 := rfl
    show Disk.stable (s.disk.content ++ hello) = _
    rw [hdisk, hone]
    show Disk.stable (old ++ hellos ts.length ++ hellos 1) = _
    rw [List.append_assoc, hellos_append]

end ClickhouseUring.WriteBatcher
