import ClickhouseUring.User.Probes

/-!
# The filter of `readS` in `IO_syscall_patch/user.bpf.c`

`readS` is to batch the reads of one type of buffer, whose name it has in a local array.  It gets a
pointer to the name of the type at hand, a string in the memory of the process, and compares the
pointer with the address of the array.

`selectsByName_iff` says when this is a comparison of the names; for a string that is not in the
array that is only when the names differ (`compared_iff_of_apart`).
-/

namespace ClickhouseUring.User

/-- A string in the memory of a process. -/
structure CStringAt where
  memory : BitVec 64 → Option (BitVec 8)
  addr : BitVec 64
  chars : List (BitVec 8)
  zero_notMem : 0 ∉ chars
  stored : ∀ i ≤ chars.length, memory (addr + BitVec.ofNat 64 i) = (chars ++ [0])[i]?

/-- The name that `readS` looks for. -/
def targetType : List (BitVec 8) :=
  ['N', '2', 'D', 'B', '2', '8', 'R', 'e', 'a', 'd', 'B', 'u', 'f', 'f', 'e', 'r', 'F', 'r', 'o',
    'm', 'F', 'i', 'l', 'e', 'D', 'e', 's', 'c', 'r', 'i', 'p', 't', 'o', 'r', 'E'].map fun c =>
    BitVec.ofNat 8 c.toNat

/-- A probe event with the string that `self_type` points to; `array` is where this `readS` has its
`target_type`. -/
inductive Call
  | readS (selfType : CStringAt) (array n toBuf isOverridden : BitVec 64)
  | preadRaw (fd : BitVec 32) (offset res bpfOverride toRead : BitVec 64)
  | batchSubmit (bytesRead : BitVec 64)

/-- The event for the probes, which compare pointers. -/
def Call.event : Call → Event
  | readS selfType array n toBuf isOverridden =>
    .readS (selfType.addr = array) n toBuf isOverridden
  | preadRaw fd offset res bpfOverride toRead => .preadRaw fd offset res bpfOverride toRead
  | batchSubmit bytesRead => .batchSubmit bytesRead

/-- What happened at one call. -/
structure CallReport where
  pid : BitVec 32
  call : Call
  outputs : List Output

/-- The probes with the comparison of pointers. -/
def filter : Machine Globals (BitVec 32 × Call) CallReport where
  step g e := (hook g e.1 e.2.event).1
  out g e := [⟨e.1, e.2, (hook g e.1 e.2.event).2⟩]

/-- The probes are those of `Probes`. -/
theorem after_filter (g : Globals) (es : List (BitVec 32 × Call)) :
    filter.after g es = probes.after g (es.map fun e => (e.1, e.2.event)) := by
  induction es generalizing g with
  | nil => rfl
  | cons e es ih => exact ih _

/-! ## Selection by name -/

/-- A `readS` of the type. -/
def Call.Named : Call → Prop
  | readS selfType .. => selfType.chars = targetType
  | preadRaw .. => False
  | batchSubmit _ => False

/-- A `readS`, or a `batchSubmit` that writes. -/
def CallReport.decides (r : CallReport) : Bool :=
  match r.call with
  | .readS .. => true
  | .preadRaw .. => false
  | .batchSubmit _ => r.outputs ≠ []

/-- The latest `readS` or writing `batchSubmit` was a `readS` of the type. -/
def Enabled (past : List CallReport) : Prop :=
  ∃ r, (past.filter CallReport.decides).getLast? = some r ∧ r.call.Named

/-- A `readS` is accepted exactly if its type has the name, and the read of a `preadRaw` is handed
to the consumer exactly if the latest decision was for that name. -/
def SelectsByName (p : Globals × List CallReport) (e : BitVec 32 × Call) : Prop :=
  let r := hook p.1 e.1 e.2.event
  match e.2 with
  | .readS selfType _ _ _ isOverridden =>
    (.writeFlag isOverridden true ∈ r.2 ↔ selfType.chars = targetType) ∧
    (r.1.overridden = true ↔ selfType.chars = targetType)
  | .preadRaw .. => (∃ info, .prepare info ∈ r.2) ↔ Enabled p.2
  | .batchSubmit _ => True

/-- The pointers are equal exactly if the names are. -/
def Call.Compared : Call → Prop
  | readS selfType array _ _ _ => selfType.addr = array ↔ selfType.chars = targetType
  | preadRaw .. => True
  | batchSubmit _ => True

/-- The array of the probe is not in the memory of the process. -/
def Call.Apart : Call → Prop
  | readS selfType array _ _ _ => selfType.memory array = none
  | preadRaw .. => True
  | batchSubmit _ => True

theorem CStringAt.addr_ne {s : CStringAt} {array : BitVec 64} (h : s.memory array = none) :
    s.addr ≠ array := by
  rintro rfl
  have hfirst : s.memory (s.addr + 0#64) = (s.chars ++ [0])[0]? := s.stored 0 (Nat.zero_le _)
  have hlen : 0 < (s.chars ++ [0]).length := by simp
  rw [BitVec.add_zero, h, List.getElem?_eq_getElem hlen] at hfirst
  cases hfirst

/-- Where the pointers always differ, the comparison is right only about other types. -/
theorem compared_iff_of_apart {c : Call} (h : c.Apart) : c.Compared ↔ ¬ c.Named := by
  cases c with
  | readS s array n toBuf isOverridden =>
    have hne : s.addr ≠ array := s.addr_ne h
    unfold Call.Compared Call.Named
    simp only [hne, false_iff]
  | preadRaw fd offset res bpfOverride toRead => exact iff_of_true trivial id
  | batchSubmit bytesRead => exact iff_of_true trivial id

/-! ## Whole runs -/

theorem enabled_concat (past : List CallReport) (r : CallReport) :
    Enabled (past ++ [r]) ↔ if r.decides = true then r.call.Named else Enabled past := by
  unfold Enabled
  rw [List.filter_append]
  split_ifs with h
  · rw [List.filter_cons_of_pos h, List.filter_nil, List.getLast?_concat]
    simp
  · rw [List.filter_cons_of_neg h, List.filter_nil, List.append_nil]

/-- The last decision was for the name exactly if reads are accepted. -/
def Follows (p : Globals × List CallReport) : Prop := p.1.overridden = true ↔ Enabled p.2

section Step

variable {p : Globals × List CallReport} {pid : BitVec 32} {c : Call}

theorem selectsByName_iff_compared (h : Follows p) : SelectsByName p (pid, c) ↔ c.Compared := by
  unfold Follows at h
  unfold SelectsByName
  have hacts := hook_acts p.1 pid c.event
  dsimp only
  generalize (hook p.1 pid c.event).1 = g', (hook p.1 pid c.event).2 = os at hacts
  cases c with
  | readS s array n toBuf isOverridden =>
    cases hacts with
    | decides => simp [Call.Compared, eq_comm]
  | preadRaw fd offset res bpfOverride toRead =>
    dsimp only
    rw [← h]
    refine iff_of_true ?_ trivial
    cases hacts with
    | skip ho => simp [ho]
    | accept ho => simp [ho]
  | batchSubmit bytesRead => exact iff_of_true trivial trivial

theorem Follows.step (h : Follows p) (hc : c.Compared) :
    Follows (filter.recorded.step p (pid, c)) := by
  obtain ⟨g, past⟩ := p
  unfold Follows at h
  rw [Machine.recorded_step]
  show (hook g pid c.event).1.overridden = true ↔
    Enabled (past ++ [⟨pid, c, (hook g pid c.event).2⟩])
  rw [enabled_concat]
  have hacts := hook_acts g pid c.event
  generalize (hook g pid c.event).1 = g', (hook g pid c.event).2 = os at hacts
  cases c with
  | readS s array n toBuf isOverridden =>
    cases hacts with
    | decides => exact decide_eq_true_iff.trans hc
  | preadRaw fd offset res bpfOverride toRead =>
    cases hacts with
    | skip => exact h
    | accept => exact h
  | batchSubmit bytesRead =>
    cases hacts with
    | unknown => exact h
    | dismiss hi ho =>
      rw [ho] at h
      exact h
    | report => exact iff_of_false Bool.false_ne_true id

end Step

/-- The filter selects by name exactly when every comparison of pointers is one of the names. -/
theorem selectsByName_iff (es : List (BitVec 32 × Call)) :
    filter.recorded.Steps SelectsByName (initial, []) es ↔ ∀ e ∈ es, e.2.Compared := by
  have hinitial : Follows (initial, []) :=
    iff_of_false Bool.false_ne_true (by rintro ⟨r, hr, -⟩; cases hr)
  rw [← filter.recorded.steps_iff_forall_mem]
  exact filter.recorded.steps_iff_of_invariant (I := Follows)
    (fun _ _ h => selectsByName_iff_compared h) (fun _ _ h hc => h.step hc) hinitial es

/-- The string in a memory that holds nothing else. -/
def CStringAt.only (addr : BitVec 64) (chars : List (BitVec 8)) (h : 0 ∉ chars)
    (hlen : chars.length < 2 ^ 64) : CStringAt where
  memory a := (chars ++ [0])[(a - addr).toNat]?
  addr := addr
  chars := chars
  zero_notMem := h
  stored i hi := by
    rw [BitVec.add_comm, BitVec.add_sub_cancel, BitVec.toNat_ofNat, Nat.mod_eq_of_lt (by omega)]

/-- A `readS` of the type is turned down. -/
theorem not_selectsByName_target :
    ¬ filter.recorded.Steps SelectsByName (initial, [])
      [(7, .readS (.only 0x4000 targetType (by decide) (by decide)) 0xffff0000 100 0x5000
        0x6000)] := by
  intro hsteps
  exact absurd (hsteps.1.1.mpr rfl) (by decide)

end ClickhouseUring.User
