import ClickhouseUring.Kit.Transitions
import Mathlib.Data.BitVec
import Mathlib.Data.List.Basic

/-!
# `op_count` of `clickhouse-uring.bpf.c` and `tp.bpf.c`

`bpf_start_patch`, `bpf_write_patch`, `read_from_task` and `read_strict` count their calls in the
same way: they add one to what the lookup points to, and then update the map with the value that is
in it already.  The hooks run on many threads at a time, and `main` of `clickhouse-uring.c` writes
79 once they are attached.

Both the sum and the update are a load and a store of the four bytes; the steps of the hooks
interleave in any way.  Messages are left out, and so is `global`, which decides over a message
only.
-/

namespace ClickhouseUring.OpCount

/-- Where a call of a hook is. -/
inductive Hook
  /-- Before `*count += 1`. -/
  | entered
  | loaded (value : BitVec 32)
  /-- Before `bpf_map_update_elem`. -/
  | added
  | copied (value : BitVec 32)
  | returned
  deriving DecidableEq, Repr

/-- The next load or store of a call, and what `op_count` holds after it. -/
def Hook.next (opCount : BitVec 32) : Hook → Option (Hook × BitVec 32)
  | .entered => some (.loaded opCount, opCount)
  | .loaded value => some (.added, value + 1)
  | .added => some (.copied opCount, opCount)
  | .copied value => some (.returned, value)
  | .returned => none

/-- The programs that load the hooks. -/
inductive Loader
  | clickhouseUring
  | tp
  deriving DecidableEq, Repr

/-- What `main` writes. -/
def Loader.written : Loader → Option (BitVec 32)
  | .clickhouseUring => some 79
  | .tp => none

/-- The map, the calls of hooks, and what `main` has still to write. -/
structure State where
  opCount : BitVec 32
  hooks : List Hook
  write : Option (BitVec 32)
  deriving DecidableEq, Repr

inductive Event
  | hook (i : ℕ)
  | write
  deriving DecidableEq, Repr

def step (s : State) : Event → Option State
  | .hook i => do
    let hook ← s.hooks[i]?
    let (hook, opCount) ← hook.next s.opCount
    return { s with opCount, hooks := s.hooks.set i hook }
  | .write => do
    let value ← s.write
    return { s with opCount := value, write := none }

/-- The map is new, and `n` calls are made. -/
def State.init (l : Loader) (n : ℕ) : State := ⟨0, List.replicate n .entered, l.written⟩

/-- The call has added. -/
def Hook.hasAdded : Hook → Bool
  | .entered | .loaded _ => false
  | .added | .copied _ | .returned => true

/-- The number of calls that have added. -/
def State.adds (s : State) : ℕ := s.hooks.countP Hook.hasAdded

section

variable {s s' : State} {e : Event} {i : ℕ}

/-- What the step of a call does to the calls. -/
theorem step_of_getElem {hook : Hook} (hhook : s.hooks[i]? = some hook) :
    step s (.hook i) = (hook.next s.opCount).map fun next =>
      ⟨next.2, s.hooks.set i next.1, s.write⟩ := by
  unfold step
  dsimp only
  rw [hhook]
  cases hook <;> rfl

/-- What a step does. -/
theorem step_cases (h : step s e = some s') :
    (∃ pre hook post hook' v, s.hooks = pre ++ hook :: post ∧ e = .hook pre.length ∧
      hook.next s.opCount = some (hook', v) ∧ s' = ⟨v, pre ++ hook' :: post, s.write⟩) ∨
    ∃ w, e = .write ∧ s.write = some w ∧ s' = ⟨w, s.hooks, none⟩ := by
  cases e with
  | hook i =>
    obtain ⟨hook, hhook, h⟩ := Option.bind_eq_some_iff.mp h
    obtain ⟨⟨hook', v⟩, hnext, hs'⟩ := Option.bind_eq_some_iff.mp h
    obtain ⟨hi, rfl⟩ := List.getElem?_eq_some_iff.mp hhook
    have hsplit : ∃ pre post, s.hooks = pre ++ s.hooks[i] :: post ∧ pre.length = i ∧
        s.hooks.set i hook' = pre ++ hook' :: post := List.exists_of_set hi
    obtain ⟨pre, post, hhooks, rfl, hset⟩ := hsplit
    refine Or.inl ⟨pre, _, post, hook', v, hhooks, rfl, hnext, ?_⟩
    rw [← hset]
    exact (Option.some.inj hs').symm
  | write =>
    obtain ⟨w, hw, h⟩ := Option.bind_eq_some_iff.mp h
    exact Or.inr ⟨w, rfl, hw, (Option.some.inj h).symm⟩

/-- The number of calls that have added, with one of them apart. -/
theorem countP_middle (pre post : List Hook) (hook : Hook) :
    (pre ++ hook :: post).countP Hook.hasAdded =
      (pre ++ post).countP Hook.hasAdded + hook.hasAdded.toNat := by
  rw [List.countP_append, List.countP_cons, List.countP_append, Nat.add_assoc]
  cases hook.hasAdded <;> rfl

end

end ClickhouseUring.OpCount
