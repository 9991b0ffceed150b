import ClickhouseUring.Hotpatch.Threads

/-!
# Deadlocks of the batching hooks

A thread waits as often as `current_count` says, and all threads together have submitted as many
operations as it says.  Two threads in their loops wait for each of these twice.
-/

namespace ClickhouseUring.Hotpatch

open Uring

/-! ## One thread -/

/-- At no point does a thread want more completions than there are operations. -/
def Thread.Sound (sh : Shared) : Thread → Prop
  | .outside | .entered _ | .compared _ _ | .counted =>
    sh.currentCount.toInt ≤ sh.ring.outstanding
  | .queued _ => sh.currentCount.toInt + 1 ≤ sh.ring.outstanding
  | .loaded _ value => value.toInt + 1 ≤ sh.ring.outstanding
  | .looping i => sh.currentCount.toInt ≤ sh.ring.inflight + i
  | .waiting i => i < sh.currentCount.toInt ∧ sh.currentCount.toInt ≤ sh.ring.inflight + i
  | .reaped => True

theorem toInt_add_one_le (c : BitVec 32) : (c + 1).toInt ≤ c.toInt + 1 := by
  rw [BitVec.toInt_eq_toNat_cond, BitVec.toInt_eq_toNat_cond, BitVec.toNat_add,
    show (1 : BitVec 32).toNat = 1 from rfl]
  split_ifs <;> omega

section One

variable {patchSize : BitVec 32} {sh sh' : Shared} {t t' : Thread}

theorem Thread.Sound.next (ht : t.Sound sh) (h : t.next patchSize sh = some (t', sh')) :
    t'.Sound sh' := by
  cases t with
  | outside => exact absurd h (Option.some_ne_none _).symm
  | entered op =>
    obtain ⟨rfl, rfl⟩ := Prod.mk.inj (Option.some.inj h)
    exact ht
  | compared op flush =>
    obtain ⟨rfl, rfl⟩ := Prod.mk.inj (Option.some.inj h)
    have hle : sh.currentCount.toInt ≤ sh.ring.outstanding := ht
    have hadd := IoRing.outstanding_add sh.ring (Sqe.mk op false)
    show sh.currentCount.toInt + 1 ≤ (sh.ring.add (Sqe.mk op false)).outstanding
    omega
  | queued flush =>
    obtain ⟨rfl, rfl⟩ := Prod.mk.inj (Option.some.inj h)
    exact ht
  | loaded flush value =>
    obtain ⟨rfl, rfl⟩ := Prod.mk.inj (Option.some.inj h)
    have hle : (value + 1).toInt ≤ sh.ring.outstanding := Int.le_trans (toInt_add_one_le value) ht
    cases flush <;> exact hle
  | counted =>
    obtain ⟨rfl, rfl⟩ := Prod.mk.inj (Option.some.inj h)
    have hle : sh.currentCount.toInt ≤ (sh.ring.queued.length + sh.ring.inflight : ℕ) := ht
    show sh.currentCount.toInt ≤ ((sh.ring.inflight + sh.ring.queued.length : ℕ) : ℤ) + (0 : ℕ)
    omega
  | looping i =>
    obtain ⟨rfl, rfl⟩ := Prod.mk.inj (Option.some.inj h)
    by_cases hlt : (i : ℤ) < sh.currentCount.toInt
    · rw [if_pos hlt]
      exact ⟨hlt, ht⟩
    · rw [if_neg hlt]
      trivial
  | waiting i =>
    obtain ⟨ring, hwait, hnext⟩ := Option.map_eq_some_iff.mp h
    obtain ⟨rfl, rfl⟩ := Prod.mk.inj hnext
    have hle := ht.2
    unfold IoRing.exec at hwait
    split_ifs at hwait with hzero
    obtain rfl := Option.some.inj hwait
    show sh.currentCount.toInt ≤ ((sh.ring.inflight - 1 : ℕ) : ℤ) + ((i + 1 : ℕ) : ℤ)
    omega
  | reaped =>
    obtain ⟨rfl, rfl⟩ := Prod.mk.inj (Option.some.inj h)
    exact Int.natCast_nonneg sh.ring.outstanding

/-- A thread in its hook can go on. -/
theorem Thread.Sound.exists_next (ht : t.Sound sh) (hin : t ≠ .outside) :
    ∃ r, t.next patchSize sh = some r := by
  cases t with
  | outside => exact absurd rfl hin
  | waiting i =>
    obtain ⟨hlt, hle⟩ := ht
    have hpos : sh.ring.inflight ≠ 0 := by omega
    unfold Thread.next IoRing.exec
    rw [if_neg hpos]
    exact ⟨_, rfl⟩
  | _ => exact ⟨_, rfl⟩

end One

/-- At most one thread, which is sound. -/
def State.Single (s : State) : Prop :=
  s.threads = [] ∨ ∃ t : Thread, s.threads = [t] ∧ t.Sound s.shared

section Single

variable {patchSize : BitVec 32} {s s' : State}

theorem State.Single.step (hs : s.Single) {e : Event} (h : Hotpatch.step patchSize s e = some s') :
    s'.Single := by
  obtain ⟨shared, threads⟩ := s
  obtain rfl | ⟨t, rfl, ht⟩ := hs
  · cases e <;> simp [Hotpatch.step] at h
  · cases e with
    | call i op =>
      unfold Hotpatch.step at h
      dsimp only at h
      split_ifs at h with hout
      obtain rfl := Option.some.inj h
      obtain ⟨rfl, rfl⟩ : i = 0 ∧ t = .outside := by
        simpa [List.getElem?_singleton] using hout
      exact Or.inr ⟨_, rfl, ht⟩
    | step i =>
      obtain ⟨t', hget, -⟩ := Option.bind_eq_some_iff.mp h
      rw [step_of_getElem hget] at h
      obtain ⟨⟨next, sh⟩, hnext, rfl⟩ := Option.map_eq_some_iff.mp h
      obtain ⟨rfl, rfl⟩ : i = 0 ∧ t = t' := by
        simpa [List.getElem?_singleton] using hget
      exact Or.inr ⟨next, rfl, ht.next hnext⟩

theorem State.Single.not_deadlocked (hs : s.Single) : ¬ s.Deadlocked patchSize := by
  rintro ⟨⟨t, hmem, hin⟩, hstuck⟩
  obtain hnil | ⟨t', hone, ht⟩ := hs
  · rw [hnil] at hmem
    exact List.not_mem_nil hmem
  · rw [hone] at hmem
    obtain rfl := List.mem_singleton.mp hmem
    obtain ⟨r, hnext⟩ : ∃ r, t.next patchSize s.shared = some r := ht.exists_next hin
    have hget : s.threads[0]? = some t := by rw [hone]; rfl
    have hstep := hstuck 0
    rw [step_of_getElem hget, hnext] at hstep
    exact absurd hstep (Option.some_ne_none _)

theorem single_init {n : ℕ} (hn : n < 2) : (State.init n).Single := by
  obtain rfl | rfl : n = 0 ∨ n = 1 := by omega
  · exact Or.inl rfl
  · refine Or.inr ⟨.outside, rfl, ?_⟩
    show (0 : BitVec 32).toInt ≤ (0 : ℕ)
    decide

end Single

/-! ## Two threads -/

section Two

theorem toInt_add_one {c : BitVec 32} (h : c.toNat + 1 < 2 ^ 31) :
    (c + 1).toNat = c.toNat + 1 ∧ (c + 1).toInt = ((c.toNat + 1 : ℕ) : ℤ) := by
  have hnat : (c + 1).toNat = c.toNat + 1 := by
    rw [BitVec.toNat_add, show (1 : BitVec 32).toNat = 1 from rfl]
    omega
  refine ⟨hnat, ?_⟩
  rw [BitVec.toInt_eq_toNat_of_lt (show 2 * (c + 1).toNat < 2 ^ 32 by omega), hnat]

variable {patchSize : BitVec 32} {n : ℕ}

/-- The first thread can leave up to `patch_size` operations pending. -/
theorem exists_pending (hn : 0 < n) (hsize : patchSize.toNat < 2 ^ 31) (op : Op) {k : ℕ}
    (hk : k ≤ patchSize.toNat) :
    ∃ es queue, queue.length = k ∧ Transition.run (step patchSize) (.init n) es =
      some ⟨⟨BitVec.ofNat 32 k, queue, 0⟩, List.replicate n .outside⟩ := by
  induction k with
  | zero => exact ⟨[], [], rfl, rfl⟩
  | succ k ih =>
    obtain ⟨es, queue, hlength, hrun⟩ := ih (Nat.le_of_succ_le hk)
    have hcount : (BitVec.ofNat 32 k).toNat = k := by
      rw [BitVec.toNat_ofNat]
      omega
    have hslt : (BitVec.ofNat 32 k).slt patchSize = true := by
      rw [BitVec.slt_iff_toInt_lt,
        BitVec.toInt_eq_toNat_of_lt (show 2 * (BitVec.ofNat 32 k).toNat < 2 ^ 32 by omega),
        BitVec.toInt_eq_toNat_of_lt (show 2 * patchSize.toNat < 2 ^ 32 by omega), hcount]
      exact Int.ofNat_lt.mpr hk
    have hqueue : runAlone patchSize (.entered op, ⟨BitVec.ofNat 32 k, queue, 0⟩) 4 = _ :=
      runAlone_queue hslt
    have hcall := run_call (s := ⟨⟨BitVec.ofNat 32 k, queue, 0⟩, List.replicate n .outside⟩)
      (List.getElem?_replicate_of_lt hn) hqueue
    rw [List.set_replicate_self] at hcall
    refine ⟨_, queue ++ [⟨op, false⟩], by rw [List.length_append, hlength]; rfl,
      (Transition.run_trans hrun hcall).trans ?_⟩
    rw [BitVec.ofNat_add]
    rfl

/-- With nothing in flight no thread comes out of its wait. -/
theorem deadlocked_waiting (count : BitVec 32) (queue : List (Sqe Op)) (i j m : ℕ) :
    (State.mk ⟨count, queue, 0⟩
      (.waiting i :: .waiting j :: List.replicate m .outside)).Deadlocked patchSize := by
  refine ⟨⟨.waiting i, List.mem_cons_self, Thread.noConfusion⟩, fun k => ?_⟩
  cases hget : (Thread.waiting i :: .waiting j :: List.replicate m .outside)[k]? with
  | none =>
    unfold step
    dsimp only
    rw [hget]
    rfl
  | some t =>
    rw [step_of_getElem hget]
    have ht : t = .waiting i ∨ t = .waiting j ∨ t = .outside := by
      rcases List.mem_cons.mp (List.mem_of_getElem? hget) with h | h
      · exact Or.inl h
      · exact Or.inr ((List.mem_cons.mp h).imp id List.eq_of_mem_replicate)
    rcases ht with rfl | rfl | rfl <;> rfl

/-- A thread hands everything over and comes to its loop. -/
theorem run_flush (sh : Shared) (op : Op) {threads : List Thread} {i k : ℕ}
    (ht : threads[i]? = some .outside) (hfull : sh.currentCount.slt patchSize = false)
    (hk : sh.ring.outstanding = k) :
    Transition.run (step patchSize) ⟨sh, threads⟩ (.call i op :: List.replicate 5 (.step i)) =
      some ⟨⟨sh.currentCount + 1, [], k + 1⟩, threads.set i (.looping 0)⟩ := by
  subst hk
  exact run_call ht (runAlone_flush hfull)

variable (patchSize) in
/-- A thread sees so many completions and waits for one more. -/
theorem run_turns (count : BitVec 32) (queue : List (Sqe Op)) (inflight k : ℕ) {i : ℕ}
    {threads : List Thread} (ht : threads[i]? = some (.looping 0)) (hk : k < count.toInt) :
    Transition.run (step patchSize) ⟨⟨count, queue, inflight + k⟩, threads⟩
        (List.replicate (2 * k + 1) (.step i)) =
      some ⟨⟨count, queue, inflight⟩, threads.set i (.waiting k)⟩ := by
  have hloop := runAlone_loop patchSize count queue inflight (i := 0) (k := k) (by omega)
  rw [Nat.zero_add] at hloop
  have hlast : runAlone patchSize (.looping k, ⟨count, queue, inflight⟩) 1 =
      some (.waiting k, ⟨count, queue, inflight⟩) := by
    rw [runAlone_succ, next_looping, if_pos hk]
    rfl
  exact run_steps ht (runAlone_trans hloop hlast)

/-- Two threads find `patch_size` operations pending and wait for each other's completions. -/
theorem exists_deadlock (hsize : patchSize.toNat + 2 < 2 ^ 31) (op : Op) (m : ℕ) :
    ∃ es s, Transition.run (step patchSize) (.init (m + 2)) es = some s ∧
      s.Deadlocked patchSize := by
  have hsmall : patchSize.toNat < 2 ^ 31 := by omega
  obtain ⟨es, queue, hlength, hpending⟩ :=
    exists_pending (n := m + 2) (Nat.succ_pos _) hsmall op (Nat.le_refl patchSize.toNat)
  rw [BitVec.ofNat_toNat, BitVec.setWidth_eq] at hpending
  have hint : patchSize.toInt = patchSize.toNat :=
    BitVec.toInt_eq_toNat_of_lt (show 2 * patchSize.toNat < 2 ^ 32 by omega)
  obtain ⟨hnat₁, hint₁⟩ := toInt_add_one (c := patchSize) (by omega)
  obtain ⟨hnat₂, hint₂⟩ := toInt_add_one (c := patchSize + 1) (by omega)
  -- each of the two finds the ring full and hands everything over
  have hfull : patchSize.slt patchSize = false := by
    rw [Bool.eq_false_iff, ne_eq, BitVec.slt_iff_toInt_lt]
    omega
  have hfull' : (patchSize + 1).slt patchSize = false := by
    rw [Bool.eq_false_iff, ne_eq, BitVec.slt_iff_toInt_lt]
    omega
  have hfirst := run_flush ⟨patchSize, queue, 0⟩ op
    (show (List.replicate (m + 2) Thread.outside)[0]? = some .outside from rfl) hfull
    (show queue.length + 0 = patchSize.toNat from hlength)
  have hsecond := run_flush ⟨patchSize + 1, [], patchSize.toNat + 1⟩ op
    (show (Thread.looping 0 :: List.replicate (m + 1) .outside)[1]? = some .outside from rfl)
    hfull' (Nat.zero_add _)
  -- the first sees all completions but one, which the second sees
  have hthird := run_turns patchSize (patchSize + 1 + 1) [] 1 (patchSize.toNat + 1)
    (show (Thread.looping 0 :: .looping 0 :: List.replicate m .outside)[0]? = some _ from rfl)
    (by omega)
  have hfourth := run_turns patchSize (patchSize + 1 + 1) [] 0 1
    (show (Thread.waiting (patchSize.toNat + 1) :: .looping 0 ::
      List.replicate m .outside)[1]? = some _ from rfl) (by omega)
  rw [Nat.add_comm 1] at hthird
  exact ⟨_, _, Transition.run_trans (Transition.run_trans (Transition.run_trans
    (Transition.run_trans hpending hfirst) hsecond) hthird) hfourth, deadlocked_waiting _ _ _ _ _⟩

end Two

/-- **Deadlocks.**  The threads of an application can end in hooks that wait for good, in some
interleaving of any number of calls, exactly if there are two of them or more. -/
theorem deadlocks_iff (o : Object) (n : ℕ) :
    (∃ es s, Transition.run (step o.patchSize) (.init n) es = some s ∧
      s.Deadlocked o.patchSize) ↔ 2 ≤ n := by
  constructor
  · rintro ⟨es, s, hrun, hdead⟩
    by_contra hn
    have hsingle : s.Single := Transition.run_preserves (fun _ _ _ hs h => hs.step h)
      (single_init (Nat.lt_of_not_le hn)) hrun
    exact hsingle.not_deadlocked hdead
  · intro hn
    obtain ⟨m, rfl⟩ := Nat.exists_eq_add_of_le' hn
    have hsize : o.patchSize.toNat + 2 < 2 ^ 31 := by cases o <;> decide
    exact exists_deadlock hsize (.fsync 0) m

end ClickhouseUring.Hotpatch
