import ClickhouseUring.Kit.Run
import Mathlib.Data.Int.Notation
import Mathlib.Data.List.Nodup

/-!
# Handles and the variables that hold them

A program acquires numbered handles, which it keeps in variables, and releases them again.  It is
disciplined when each release is of a handle that the variable still holds: a handle is then
released at most once, and never through a variable that held it before, even if its number has
been given out again.
-/

/-- What a program does with a handle, and the variable it is held in. -/
inductive Use (ν : Type*)
  | acquire (v : ν) (n : ℤ)
  | release (v : ν) (n : ℤ)
deriving DecidableEq, Repr

namespace Use

variable {ν : Type*} [DecidableEq ν]

/-- What is held after the use. -/
def ledger : Machine (List (ν × ℤ)) (Use ν) Empty where
  step held
    | .acquire v n => (v, n) :: held
    | .release v n => held.erase (v, n)
  out _ _ := []

/-- A release is of something held. -/
def Legal (held : List (ν × ℤ)) : Use ν → Prop
  | .acquire _ _ => True
  | .release v n => (v, n) ∈ held

/-- Every use is legal when it comes. -/
def Disciplined (held : List (ν × ℤ)) (us : List (Use ν)) : Prop := ledger.Steps Legal held us

instance (held : List (ν × ℤ)) : (u : Use ν) → Decidable (Legal held u)
  | .acquire _ _ => isTrue trivial
  | .release v n => inferInstanceAs (Decidable ((v, n) ∈ held))

instance (held : List (ν × ℤ)) (us : List (Use ν)) : Decidable (Disciplined held us) :=
  inferInstanceAs (Decidable (ledger.Steps Legal held us))

/-- The release of several handles in turn. -/
def releases (hs : List (ν × ℤ)) : List (Use ν) := hs.map fun h => .release h.1 h.2

@[simp] theorem disciplined_nil (held : List (ν × ℤ)) : Disciplined held [] := trivial

@[simp] theorem disciplined_acquire (held : List (ν × ℤ)) (v : ν) (n : ℤ) :
    Disciplined held [.acquire v n] := ⟨trivial, trivial⟩

/-- Different handles can be released in turn exactly if all of them are held. -/
theorem disciplined_releases {hs : List (ν × ℤ)} (hnodup : hs.Nodup) (held : List (ν × ℤ)) :
    Disciplined held (releases hs) ↔ ∀ h ∈ hs, h ∈ held := by
  induction hs generalizing held with
  | nil => exact iff_of_true trivial (List.forall_mem_nil _)
  | cons h hs ih =>
    obtain ⟨hnotin, hnodup⟩ := List.nodup_cons.mp hnodup
    have herase : ∀ h' ∈ hs, (h' ∈ held.erase h ↔ h' ∈ held) := fun h' hmem =>
      List.mem_erase_of_ne fun heq => hnotin (heq ▸ hmem)
    show (h ∈ held ∧ Disciplined (held.erase h) (releases hs)) ↔ _
    rw [ih hnodup, List.forall_mem_cons]
    exact and_congr_right' (forall₂_congr herase)

end Use
