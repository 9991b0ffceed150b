import ClickhouseUring.FsyncLatency.Probes

/-!
# Which threads are inside `fsync`

`inside` reads off the events which threads have entered `fsync` and not left it, and when each
did.  As long as they fit in `start_map`, the map says the same (`startMap_eq_inside`), so the
latency of an exit is the time since the same thread entered (`pairing`).
-/

namespace ClickhouseUring.FsyncLatency

/-- The threads inside `fsync` after an event, with the time at which each entered. -/
def enterExit (inside : BitVec 64 → Option (BitVec 64)) (e : Event) :
    BitVec 64 → Option (BitVec 64) :=
  match e.probe with
  | .sysEnterFsync => Function.update inside e.pidTgid (some e.ns)
  | .writebackSingleInode => inside
  | .sysExitFsync => Function.update inside e.pidTgid none

/-- The threads inside `fsync` after the events. -/
def inside (es : List Event) : BitVec 64 → Option (BitVec 64) := es.foldl enterExit fun _ => none

/-- The threads inside `fsync`. -/
def threadsInside (es : List Event) : Finset (BitVec 64) :=
  (es.map Event.pidTgid).toFinset.filter fun tid => (inside es tid).isSome

/-- The clock never goes back and at most 1000 threads are inside `fsync` at once. -/
structure Admissible (es : List Event) : Prop where
  clock : es.Pairwise fun e e' => e.ns ≤ e'.ns
  room : ∀ past ∈ es.inits, (threadsInside past).card ≤ 1000

theorem inside_concat (es : List Event) (e : Event) :
    inside (es ++ [e]) = enterExit (inside es) e := by
  unfold inside
  rw [List.foldl_append]
  rfl

theorem enterExit_of_ne {f : BitVec 64 → Option (BitVec 64)} {e : Event} {tid : BitVec 64}
    (h : tid ≠ e.pidTgid) : enterExit f e tid = f tid := by
  obtain ⟨probe, tid', ns⟩ := e
  cases probe with
  | sysEnterFsync => exact Function.update_of_ne h _ _
  | writebackSingleInode => rfl
  | sysExitFsync => exact Function.update_of_ne h _ _

/-- A thread inside `fsync` entered at one of the events. -/
theorem exists_enter {es : List Event} {tid start : BitVec 64} (h : inside es tid = some start) :
    ⟨.sysEnterFsync, tid, start⟩ ∈ es := by
  induction es using List.reverseRecOn with
  | nil => cases h
  | append_singleton es e ih =>
    rw [inside_concat] at h
    by_cases htid : tid = e.pidTgid
    · subst htid
      obtain ⟨probe, tid, ns⟩ := e
      cases probe with
      | sysEnterFsync =>
        have hns : ns = start := by simpa [enterExit] using h
        rw [hns]
        exact List.mem_append_right _ List.mem_cons_self
      | writebackSingleInode => exact List.mem_append_left _ (ih h)
      | sysExitFsync => simp [enterExit] at h
    · rw [enterExit_of_ne htid] at h
      exact List.mem_append_left _ (ih h)

theorem mem_threadsInside {es : List Event} {tid : BitVec 64} :
    tid ∈ threadsInside es ↔ (inside es tid).isSome := by
  unfold threadsInside
  rw [Finset.mem_filter, and_iff_right_iff_imp]
  intro h
  obtain ⟨start, hstart⟩ := Option.isSome_iff_exists.mp h
  exact List.mem_toFinset.mpr (List.mem_map_of_mem (exists_enter hstart))

theorem Admissible.of_concat {es : List Event} {e : Event} (h : Admissible (es ++ [e])) :
    Admissible es where
  clock := (List.pairwise_append.mp h.clock).1
  room past hpast := by
    apply h.room
    rw [List.mem_inits] at hpast ⊢
    exact hpast.trans (List.prefix_append _ _)

theorem Admissible.card_le {es : List Event} (h : Admissible es) :
    (threadsInside es).card ≤ 1000 :=
  h.room es ((List.mem_inits es es).mpr List.prefix_rfl)

/-- There is room for the thread that enters next. -/
theorem Admissible.mem_or_card_lt {es : List Event} {tid ns : BitVec 64}
    (h : Admissible (es ++ [⟨.sysEnterFsync, tid, ns⟩])) :
    tid ∈ threadsInside es ∨ (threadsInside es).card < 1000 := by
  have hinsert : threadsInside (es ++ [⟨.sysEnterFsync, tid, ns⟩]) =
      insert tid (threadsInside es) := by
    ext t
    rw [Finset.mem_insert, mem_threadsInside, mem_threadsInside, inside_concat]
    by_cases ht : t = tid
    · subst ht
      simp [enterExit]
    · rw [enterExit_of_ne ht, or_iff_right ht]
  have hcard := h.card_le
  rw [hinsert] at hcard
  by_cases hmem : tid ∈ threadsInside es
  · exact Or.inl hmem
  · rw [Finset.card_insert_of_notMem hmem] at hcard
    exact Or.inr hcard

/-- **Refinement.** `start_map` has the threads inside `fsync`, each with its own time. -/
theorem startMap_eq_inside {es : List Event} (h : Admissible es) :
    (probes.after initial es).startMap.lookup = inside es := by
  induction es using List.reverseRecOn with
  | nil => rfl
  | append_singleton es e ih =>
    have hmap := ih h.of_concat
    have hkeys : (probes.after initial es).startMap.keys = threadsInside es := by
      ext tid
      rw [HashMap.mem_keys, hmap, mem_threadsInside]
    rw [Machine.after_concat, inside_concat, ← hmap]
    generalize probes.after initial es = g at hmap hkeys
    have hacts := hook_acts g e
    show (hook g e).1.startMap.lookup = _
    generalize (hook g e).1 = g', (hook g e).2 = os at hacts
    cases hacts with
    | enter =>
      apply HashMap.lookup_update
      unfold HashMap.Accepts
      rw [hkeys]
      exact h.mem_or_card_lt
    | @unmatched probe tid ns hprobe hnone =>
      cases probe with
      | sysEnterFsync => exact absurd rfl hprobe
      | writebackSingleInode => rfl
      | sysExitFsync => exact (Function.update_eq_self_iff.mpr hnone.symm).symm
    | writeback hstart => rfl
    | exit hstart => rfl

/-! ## Latencies -/

/-- The thread of an exit that is inside `fsync`: the latency is the time since it entered, and
only its own entry is removed. -/
structure Exits (g : Globals) (start : BitVec 64) (e : Event) : Prop where
  latency : ∃ count avg, (hook g e).2 =
    [⟨"fsync latency: %lls, count %llu", [e.ns - start, count]⟩,
      ⟨"avg fsync latency: %lls", [avg]⟩]
  since : (e.ns - start).toNat = e.ns.toNat - start.toNat ∧ start ≤ e.ns
  signed : e.ns.toNat < 2 ^ 63 → 0 ≤ (e.ns - start).toInt ∧
    (e.ns - start).toInt = e.ns.toNat - start.toNat
  removes : (hook g e).1.startMap.lookup = Function.update g.startMap.lookup e.pidTgid none

/-- After the events `start_map` has exactly the threads inside `fsync`, the exit of such a thread
reports its own latency, and what happens on other threads changes nothing. -/
structure Paired (es : List Event) : Prop where
  startMap : (probes.after initial es).startMap.lookup = inside es
  keys : (probes.after initial es).startMap.keys = threadsInside es
  exits : ∀ e, e.probe = .sysExitFsync → (∀ e' ∈ es, e'.ns ≤ e.ns) →
    ∀ start, inside es e.pidTgid = some start → Exits (probes.after initial es) start e
  unmatched : ∀ e, e.probe ≠ .sysEnterFsync → inside es e.pidTgid = none →
    hook (probes.after initial es) e = (probes.after initial es, [])

theorem exits_of_lookup {g : Globals} {start tid ns : BitVec 64}
    (h : g.startMap.lookup tid = some start) (hle : start ≤ ns) :
    Exits g start ⟨.sysExitFsync, tid, ns⟩ := by
  have hhook : hook g ⟨.sysExitFsync, tid, ns⟩ =
      (⟨g.avgLatency.fsyncExit (ns - start), g.startMap.delete tid⟩,
        [⟨"fsync latency: %lls, count %llu", [ns - start, g.avgLatency.count]⟩,
          ⟨"avg fsync latency: %lls",
            [(g.avgLatency.fsyncExit (ns - start)).latencyToFsyncExit]⟩]) := by
    unfold hook sysExitFsync
    dsimp only
    rw [h]
  have hsub : (ns - start).toNat = ns.toNat - start.toNat := BitVec.toNat_sub_of_le hle
  constructor
  · rw [hhook]
    exact ⟨_, _, rfl⟩
  · exact ⟨hsub, hle⟩
  · intro hlt
    have hle' : start.toNat ≤ ns.toNat := hle
    dsimp only at hlt ⊢
    rw [BitVec.toInt_eq_toNat_of_lt (by omega), hsub]
    omega
  · rw [hhook]
    rfl

theorem hook_of_lookup_none {g : Globals} {e : Event} (hprobe : e.probe ≠ .sysEnterFsync)
    (h : g.startMap.lookup e.pidTgid = none) : hook g e = (g, []) := by
  obtain ⟨probe, tid, ns⟩ := e
  cases probe with
  | sysEnterFsync => exact absurd rfl hprobe
  | writebackSingleInode =>
    unfold hook writebackSingleInode
    dsimp only at h ⊢
    rw [h]
  | sysExitFsync =>
    unfold hook sysExitFsync
    dsimp only at h ⊢
    rw [h]

/-- The probes pair each exit with the enter of the same thread, in every run in which the threads
inside `fsync` fit in the map. -/
theorem pairing {es : List Event} (h : Admissible es) : Paired es := by
  have hmap := startMap_eq_inside h
  constructor
  · exact hmap
  · ext tid
    rw [HashMap.mem_keys, hmap, mem_threadsInside]
  · rintro ⟨probe, tid, ns⟩ rfl hclock start hstart
    apply exits_of_lookup
    · rw [hmap]
      exact hstart
    · exact hclock _ (exists_enter hstart)
  · intro e hprobe hnone
    apply hook_of_lookup_none hprobe
    rw [hmap]
    exact hnone

/-- Two threads: the second enters before the first leaves. -/
theorem pairing_two_threads :
    Paired [⟨.sysExitFsync, 1, 5⟩, ⟨.sysEnterFsync, 1, 10⟩, ⟨.sysEnterFsync, 2, 20⟩,
      ⟨.writebackSingleInode, 1, 25⟩, ⟨.sysExitFsync, 1, 30⟩] :=
  pairing ⟨by decide, by decide⟩

end ClickhouseUring.FsyncLatency
