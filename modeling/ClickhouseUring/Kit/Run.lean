import Mathlib.Algebra.GroupWithZero.Nat
import Mathlib.Data.List.Induction
import Mathlib.Tactic.Common

/-!
# Runs of a program that reacts to events

A `Machine` takes one step for each event and emits outputs.  `after` is the state a list of
events leads to, `trace` everything emitted on the way.  `Steps C s es` says that every step
of the run of `es` from `s` meets `C`, a condition on the state before the step and on the
event.

`steps_of_invariant` is the invariant rule: what one step guarantees and preserves, a whole run
does.  `simulate` is the simulation rule for two machines.  `ofPartial` makes a machine of a step
that may be undefined, with the run rule `ofPartial_run`.  `steps_iff` compares two step
conditions along the same run, and `recorded` lets a step condition speak of everything that
happened before.  `readings` reads a list off a trace, output by output; two readings of a whole
run agree when they agree at every step.
-/

/-- A program that reacts to events of type `ε` and emits outputs of type `ω`. -/
structure Machine (σ ε ω : Type*) where
  step : σ → ε → σ
  out : σ → ε → List ω

namespace Machine

variable {σ ε ω : Type*} (M : Machine σ ε ω)

/-- The state after the events. -/
def after (s : σ) : List ε → σ
  | [] => s
  | e :: es => after (M.step s e) es

/-- Everything the events make the program emit, in order. -/
def trace (s : σ) : List ε → List ω
  | [] => []
  | e :: es => M.out s e ++ trace (M.step s e) es

/-- Every step of the run meets `C`. -/
def Steps (C : σ → ε → Prop) (s : σ) : List ε → Prop
  | [] => True
  | e :: es => C s e ∧ Steps C (M.step s e) es

instance Steps.decidable (C : σ → ε → Prop) [∀ s e, Decidable (C s e)] :
    ∀ (s : σ) (es : List ε), Decidable (M.Steps C s es)
  | _, [] => inferInstanceAs (Decidable True)
  | s, e :: es =>
    have := Steps.decidable C (M.step s e) es
    inferInstanceAs (Decidable (C s e ∧ M.Steps C (M.step s e) es))

@[simp] theorem after_nil (s : σ) : M.after s [] = s := rfl

@[simp] theorem after_cons (s : σ) (e : ε) (es : List ε) :
    M.after s (e :: es) = M.after (M.step s e) es := rfl

@[simp] theorem trace_nil (s : σ) : M.trace s [] = [] := rfl

@[simp] theorem trace_cons (s : σ) (e : ε) (es : List ε) :
    M.trace s (e :: es) = M.out s e ++ M.trace (M.step s e) es := rfl

@[simp] theorem steps_nil (C : σ → ε → Prop) (s : σ) : M.Steps C s [] := trivial

@[simp] theorem steps_cons (C : σ → ε → Prop) (s : σ) (e : ε) (es : List ε) :
    M.Steps C s (e :: es) ↔ C s e ∧ M.Steps C (M.step s e) es := Iff.rfl

theorem after_append (s : σ) (es fs : List ε) :
    M.after s (es ++ fs) = M.after (M.after s es) fs := by
  induction es generalizing s with
  | nil => rfl
  | cons e es ih => exact ih (M.step s e)

theorem trace_append (s : σ) (es fs : List ε) :
    M.trace s (es ++ fs) = M.trace s es ++ M.trace (M.after s es) fs := by
  induction es generalizing s with
  | nil => rfl
  | cons e es ih =>
    rw [List.cons_append, trace_cons, trace_cons, after_cons, ih, List.append_assoc]

theorem steps_append (C : σ → ε → Prop) (s : σ) (es fs : List ε) :
    M.Steps C s (es ++ fs) ↔ M.Steps C s es ∧ M.Steps C (M.after s es) fs := by
  induction es generalizing s with
  | nil => simp
  | cons e es ih => rw [List.cons_append, steps_cons, steps_cons, after_cons, ih, and_assoc]

@[simp] theorem after_concat (s : σ) (es : List ε) (e : ε) :
    M.after s (es ++ [e]) = M.step (M.after s es) e := by
  rw [after_append]; rfl

@[simp] theorem trace_concat (s : σ) (es : List ε) (e : ε) :
    M.trace s (es ++ [e]) = M.trace s es ++ M.out (M.after s es) e := by
  rw [trace_append, trace_cons, trace_nil, List.append_nil]

theorem steps_concat (C : σ → ε → Prop) (s : σ) (es : List ε) (e : ε) :
    M.Steps C s (es ++ [e]) ↔ M.Steps C s es ∧ C (M.after s es) e := by
  rw [steps_append, steps_cons, and_iff_left (M.steps_nil C _)]

theorem Steps.and {C D : σ → ε → Prop} {s : σ} {es : List ε} (hC : M.Steps C s es)
    (hD : M.Steps D s es) : M.Steps (fun t e => C t e ∧ D t e) s es := by
  induction es generalizing s with
  | nil => trivial
  | cons e es ih => exact ⟨⟨hC.1, hD.1⟩, ih hC.2 hD.2⟩

/-- **Invariant rule.** When steps from an invariant state meet `C` and keep the invariant, every
step of a run meets `C`.  The steps of the run are all assumed to meet `E`. -/
theorem steps_of_invariant {I : σ → Prop} {E C : σ → ε → Prop}
    (hC : ∀ t e, I t → E t e → C t e) (hI : ∀ t e, I t → E t e → I (M.step t e)) {s : σ}
    (h0 : I s) {es : List ε} (hE : M.Steps E s es) : M.Steps C s es := by
  induction es generalizing s with
  | nil => trivial
  | cons e es ih => exact ⟨hC s e h0 hE.1, ih (hI s e h0 hE.1) hE.2⟩

/-- The state that a run leads to keeps the invariant. -/
theorem after_of_invariant {I : σ → Prop} {E : σ → ε → Prop}
    (hI : ∀ t e, I t → E t e → I (M.step t e)) {s : σ} (h0 : I s) {es : List ε}
    (hE : M.Steps E s es) : I (M.after s es) := by
  induction es generalizing s with
  | nil => exact h0
  | cons e es ih => exact ih (hI s e h0 hE.1) hE.2

/-- The invariant rule for a property of everything emitted and of the state it leads to. -/
theorem invariant_trace {I : List ω → σ → Prop} {s : σ} (h0 : I [] s)
    (hs : ∀ tr t e, I tr t → I (tr ++ M.out t e) (M.step t e)) (es : List ε) :
    I (M.trace s es) (M.after s es) := by
  induction es using List.reverseRecOn with
  | nil => exact h0
  | append_singleton es e ih =>
    rw [trace_concat, after_concat]
    exact hs _ _ e ih

/-- A step condition holds throughout when it holds at every position. -/
theorem steps_of_forall {C : σ → ε → Prop} {s : σ} {es : List ε}
    (h : ∀ fs e gs, es = fs ++ e :: gs → C (M.after s fs) e) : M.Steps C s es := by
  induction es generalizing s with
  | nil => trivial
  | cons e es ih =>
    refine ⟨h [] e es rfl, ih fun fs e' gs hes => ?_⟩
    exact h (e :: fs) e' gs (congrArg (e :: ·) hes)

/-- A condition on the events alone. -/
theorem steps_iff_forall_mem {C : ε → Prop} {s : σ} {es : List ε} :
    M.Steps (fun _ e => C e) s es ↔ ∀ e ∈ es, C e := by
  induction es generalizing s with
  | nil => exact iff_of_true trivial (List.forall_mem_nil _)
  | cons e es ih => rw [steps_cons, ih, List.forall_mem_cons]

theorem steps_of_forall_mem {C : ε → Prop} {s : σ} {es : List ε} (h : ∀ e ∈ es, C e) :
    M.Steps (fun _ e => C e) s es :=
  M.steps_iff_forall_mem.mpr h

/-- **Exact step conditions.** When `C` and `Q` agree on every step from an invariant state, and
the steps that meet `C` keep the invariant, a run meets `Q` throughout exactly when it meets `C`
throughout.  The steps of the run are all assumed to meet `E`. -/
theorem steps_iff {I : σ → Prop} {E C Q : σ → ε → Prop}
    (hQC : ∀ t e, I t → E t e → (Q t e ↔ C t e))
    (hI : ∀ t e, I t → E t e → C t e → I (M.step t e)) {s : σ} (h0 : I s) {es : List ε}
    (hE : M.Steps E s es) : M.Steps Q s es ↔ M.Steps C s es := by
  induction es generalizing s with
  | nil => simp
  | cons e es ih =>
    rw [steps_cons, steps_cons, hQC s e h0 hE.1]
    constructor
    · intro h
      exact ⟨h.1, (ih (hI s e h0 hE.1 h.1) hE.2).mp h.2⟩
    · intro h
      exact ⟨h.1, (ih (hI s e h0 hE.1 h.1) hE.2).mpr h.2⟩

/-- Exact step conditions of runs without an assumption. -/
theorem steps_iff_of_invariant {I : σ → Prop} {C Q : σ → ε → Prop}
    (hQC : ∀ t e, I t → (Q t e ↔ C t e)) (hI : ∀ t e, I t → C t e → I (M.step t e)) {s : σ}
    (h0 : I s) (es : List ε) : M.Steps Q s es ↔ M.Steps C s es := by
  have hrun : M.Steps (fun _ _ => True) s es := M.steps_of_forall fun _ _ _ _ => trivial
  exact M.steps_iff (fun t e ht _ => hQC t e ht) (fun t e ht _ hC => hI t e ht hC) h0 hrun

/-- **Simulation.** When related states emit matching outputs and step to related states, a run
of `M` matches a run of `N`. -/
theorem simulate {τ ε' ω' : Type*} {N : Machine τ ε' ω'} (f : ε → ε') (g : ω → ω')
    {R : σ → τ → Prop} (hout : ∀ s t e, R s t → (M.out s e).map g = N.out t (f e))
    (hstep : ∀ s t e, R s t → R (M.step s e) (N.step t (f e))) {s : σ} {t : τ} (h : R s t)
    (es : List ε) :
    (M.trace s es).map g = N.trace t (es.map f) ∧ R (M.after s es) (N.after t (es.map f)) := by
  induction es generalizing s t with
  | nil => exact ⟨rfl, h⟩
  | cons e es ih =>
    obtain ⟨htrace, hafter⟩ := ih (hstep s t e h)
    rw [trace_cons, List.map_append, List.map_cons, trace_cons, hout s t e h, htrace]
    exact ⟨rfl, hafter⟩

/-! ## Steps that may be undefined -/

section OfPartial

variable {f : σ → ε → Option (σ × List ω)} {s s' : σ} {e : ε} {os : List ω}

/-- The machine of a step that may be undefined; after an undefined step nothing is emitted. -/
def ofPartial (f : σ → ε → Option (σ × List ω)) : Machine (Option σ) ε ω where
  step s e := (s.bind fun s => f s e).map Prod.fst
  out s e := ((s.bind fun s => f s e).map Prod.snd).getD []

theorem ofPartial_of_some (h : f s e = some (s', os)) :
    (ofPartial f).step (some s) e = some s' ∧ (ofPartial f).out (some s) e = os := by
  unfold ofPartial
  dsimp only
  rw [Option.bind_some, h]
  exact ⟨rfl, rfl⟩

theorem ofPartial_of_none (h : f s e = none) :
    (ofPartial f).step (some s) e = none ∧ (ofPartial f).out (some s) e = [] := by
  unfold ofPartial
  dsimp only
  rw [Option.bind_some, h]
  exact ⟨rfl, rfl⟩

theorem trace_ofPartial_none (es : List ε) : (ofPartial f).trace none es = [] := by
  induction es with
  | nil => rfl
  | cons e es ih => exact ih

/-- **Run rule.** When every step from an invariant state is defined and keeps the invariant, a
property of the number of steps, of everything emitted and of the state, so does a whole run. -/
theorem ofPartial_run {I : ℕ → List ω → σ → Prop} {E : ε → Prop}
    (hI : ∀ n tr s e, I n tr s → E e → ∃ s' os, f s e = some (s', os) ∧ I (n + 1) (tr ++ os) s')
    {s : σ} (h0 : I 0 [] s) {es : List ε} (hE : ∀ e ∈ es, E e) :
    ∃ s', (ofPartial f).after (some s) es = some s' ∧
      I es.length ((ofPartial f).trace (some s) es) s' := by
  induction es using List.reverseRecOn with
  | nil => exact ⟨s, rfl, h0⟩
  | append_singleton es e ih =>
    obtain ⟨t, hafter, ht⟩ := ih fun e' he' => hE e' (List.mem_append_left _ he')
    obtain ⟨t', os, hf, ht'⟩ :=
      hI _ _ t e ht (hE e (List.mem_append_right _ List.mem_cons_self))
    obtain ⟨hstep, hout⟩ := ofPartial_of_some hf
    refine ⟨t', ?_, ?_⟩
    · rw [after_concat, hafter, hstep]
    · rw [trace_concat, hafter, hout, List.length_append]
      exact ht'

end OfPartial

/-! ## Histories -/

/-- The machine that remembers everything it has emitted. -/
def recorded : Machine (σ × List ω) ε ω where
  step p e := (M.step p.1 e, p.2 ++ M.out p.1 e)
  out p e := M.out p.1 e

@[simp] theorem recorded_step (s : σ) (tr : List ω) (e : ε) :
    M.recorded.step (s, tr) e = (M.step s e, tr ++ M.out s e) := rfl

/-! ## Reading a trace -/

variable {α : Type*}

/-- What `f` reads off the outputs, each after those before it. -/
def readings (f : List ω → ω → List α) : List ω → List ω → List α
  | _, [] => []
  | past, o :: os => f past o ++ readings f (past ++ [o]) os

theorem readings_singleton (f : List ω → ω → List α) (past : List ω) (o : ω) :
    readings f past [o] = f past o := List.append_nil _

theorem readings_append (f : List ω → ω → List α) (past os os' : List ω) :
    readings f past (os ++ os') = readings f past os ++ readings f (past ++ os) os' := by
  induction os generalizing past with
  | nil => rw [List.append_nil]; rfl
  | cons o os ih =>
    show f past o ++ readings f (past ++ [o]) (os ++ os') =
      (f past o ++ readings f (past ++ [o]) os) ++ readings f (past ++ o :: os) os'
    rw [ih, List.append_assoc, List.append_assoc]
    rfl

/-- A reading that does not look back. -/
theorem readings_eq_flatMap (g : ω → List α) (past os : List ω) :
    readings (fun _ => g) past os = os.flatMap g := by
  induction os generalizing past with
  | nil => rfl
  | cons o os ih =>
    show g o ++ readings _ _ os = _
    rw [ih, List.flatMap_cons]

/-- Two readings that take equally many items off each step agree on a run exactly when they
agree at every step. -/
theorem readings_trace_eq_iff {f g : List ω → ω → List α} {E : ε → Prop}
    {C : σ × List ω → ε → Prop}
    (hlen : ∀ s past e, E e →
      (readings f past (M.out s e)).length = (readings g past (M.out s e)).length)
    (hC : ∀ s past e, E e →
      (readings f past (M.out s e) = readings g past (M.out s e) ↔ C (s, past) e))
    {es : List ε} (hE : ∀ e ∈ es, E e) (s : σ) (past : List ω) :
    readings f past (M.trace s es) = readings g past (M.trace s es) ↔
      M.recorded.Steps C (s, past) es := by
  induction es generalizing s past with
  | nil => exact iff_of_true rfl trivial
  | cons e es ih =>
    have he := hE e List.mem_cons_self
    have ih' := ih (fun e' he' => hE e' (List.mem_cons_of_mem _ he')) (M.step s e)
      (past ++ M.out s e)
    rw [trace_cons, readings_append, readings_append, steps_cons, recorded_step, ← ih',
      ← hC s past e he]
    constructor
    · intro h
      exact List.append_inj h (hlen s past e he)
    · rintro ⟨h, h'⟩
      rw [h, h']

end Machine
