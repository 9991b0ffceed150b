import Mathlib.Data.List.Induction
import Mathlib.Tactic.Common

/-!
# Transition systems

A system of several parties takes a step for each event; `step s e` is `none` where the event
cannot happen in the state `s`.  `run` takes the events one after the other, in any interleaving of
the parties.

`run_of_invariant` is the invariant rule.  A measure that every step lowers bounds the length of
the runs (`length_add_le`).  When, besides, some step is possible in every invariant state that is
not final, every run can be completed (`exists_completion`), and a run that cannot go on has ended
in a final state (`final_of_stuck`).
-/

namespace Transition

variable {σ ε : Type*} (step : σ → ε → Option σ)

/-- The state after the events, in order, if all of them can happen. -/
def run (s : σ) (es : List ε) : Option σ := es.foldlM step s

/-- No event can happen. -/
def Stuck (s : σ) : Prop := ∀ e, step s e = none

@[simp] theorem run_nil (s : σ) : run step s [] = some s := rfl

@[simp] theorem run_cons (s : σ) (e : ε) (es : List ε) :
    run step s (e :: es) = (step s e).bind fun s' => run step s' es := rfl

theorem run_append (s : σ) (es fs : List ε) :
    run step s (es ++ fs) = (run step s es).bind fun s' => run step s' fs :=
  List.foldlM_append

variable {step} in
/-- One run after the other. -/
theorem run_trans {s t u : σ} {es fs : List ε} (h : run step s es = some t)
    (h' : run step t fs = some u) : run step s (es ++ fs) = some u := by
  rw [run_append, h]
  exact h'

section Invariant

variable {step} {I : σ → Prop} {E : ε → Prop} {s t : σ} {es : List ε}

/-- **Invariant rule.** What the steps of a run preserve holds in the state it leads to. -/
theorem run_of_invariant (hI : ∀ s e s', I s → E e → step s e = some s' → I s') (h0 : I s)
    (hE : ∀ e ∈ es, E e) (h : run step s es = some t) : I t := by
  induction es generalizing s with
  | nil => exact Option.some.inj h ▸ h0
  | cons e es ih =>
    obtain ⟨s', hstep, hrest⟩ := Option.bind_eq_some_iff.mp h
    obtain ⟨he, hes⟩ := List.forall_mem_cons.mp hE
    exact ih (hI s e s' h0 he hstep) hes hrest

/-- What the steps preserve, whatever the events. -/
theorem run_preserves (hI : ∀ s e s', I s → step s e = some s' → I s') (h0 : I s)
    (h : run step s es = some t) : I t :=
  run_of_invariant (E := fun _ => True) (fun s e s' hs _ => hI s e s' hs) h0
    (fun _ _ => trivial) h

variable {μ : σ → ℕ}

/-- A measure that every step lowers bounds the length of a run. -/
theorem length_add_le (hI : ∀ s e s', I s → step s e = some s' → I s')
    (hμ : ∀ s e s', I s → step s e = some s' → μ s' < μ s) (h0 : I s)
    (h : run step s es = some t) : es.length + μ t ≤ μ s := by
  induction es generalizing s with
  | nil =>
    obtain rfl := Option.some.inj h
    exact Nat.le_of_eq (Nat.zero_add _)
  | cons e es ih =>
    obtain ⟨s', hstep, hrest⟩ := Option.bind_eq_some_iff.mp h
    have hlower := hμ s e s' h0 hstep
    have hlen := ih (hI s e s' h0 hstep) hrest
    rw [List.length_cons]
    omega

variable {Final : σ → Prop}

/-- A run that cannot go on has ended in a final state. -/
theorem final_of_stuck (hprog : ∀ s, I s → ¬ Final s → ∃ e s', E e ∧ step s e = some s')
    (hs : I s) (hstuck : Stuck step s) : Final s := by
  by_contra hfinal
  obtain ⟨e, s', -, hstep⟩ := hprog s hs hfinal
  rw [hstuck e] at hstep
  exact absurd hstep (Option.some_ne_none s').symm

/-- **Progress.** When some event that meets `E` can happen in every invariant state that is not
final, and every step lowers a measure, such events lead to a final state. -/
theorem exists_completion (hI : ∀ s e s', I s → step s e = some s' → I s')
    (hμ : ∀ s e s', I s → step s e = some s' → μ s' < μ s)
    (hprog : ∀ s, I s → ¬ Final s → ∃ e s', E e ∧ step s e = some s') (hs : I s) :
    ∃ es t, (∀ e ∈ es, E e) ∧ run step s es = some t ∧ Final t := by
  induction hn : μ s using Nat.strongRecOn generalizing s with
  | ind n ih =>
    by_cases hfinal : Final s
    · exact ⟨[], s, List.forall_mem_nil _, rfl, hfinal⟩
    · obtain ⟨e, s', he, hstep⟩ := hprog s hs hfinal
      obtain ⟨es, t, hes, hrun, ht⟩ :=
        ih (μ s') (hn ▸ hμ s e s' hs hstep) (hI s e s' hs hstep) rfl
      refine ⟨e :: es, t, List.forall_mem_cons.mpr ⟨he, hes⟩, ?_, ht⟩
      rw [run_cons, hstep]
      exact hrun

end Invariant

end Transition
