import Mathlib.Tactic

/-!
# Runs of a machine

A machine takes one event at a time and may refuse it: its step is a partial function.
`exec` takes the events of a run one after another.  A condition on the single steps,
which may look at the state before the step and at the event, holds `Along` a run, and a
property of states holds `Throughout` a run when it holds in every state the run comes
to.

What one step preserves, a run preserves (`exec_invariant`).  When the steps that keep
an invariant are exactly those that meet a condition, and the others break the property
for good, then the property holds throughout a run exactly when the condition holds
along it (`throughout_iff_along`).
-/

universe u v

namespace Run

variable {σ : Type u} {ε : Type v} (step : σ → ε → Option σ)

/-- The state after the events of a run, if the machine takes all of them. -/
def exec : σ → List ε → Option σ
  | s, [] => some s
  | s, e :: es => (step s e).bind fun s' => exec s' es

/-- Every step of the run meets the condition `cond`. -/
def Along (cond : σ → ε → Prop) : σ → List ε → Prop
  | _, [] => True
  | s, e :: es => cond s e ∧ ∀ s', step s e = some s' → Along cond s' es

/-- The property `P` holds in every state of the run. -/
def Throughout (P : σ → Prop) : σ → List ε → Prop
  | s, [] => P s
  | s, e :: es => P s ∧ ∀ s', step s e = some s' → Throughout P s' es

variable {step}

theorem along_cons_of_some {cond : σ → ε → Prop} {s s' : σ} {e : ε} {es : List ε}
    (h : step s e = some s') :
  Along step cond s (e :: es) ↔ cond s e ∧ Along step cond s' es
  := by
  rw [Along]
  constructor
  · rintro ⟨hcond, hrest⟩
    exact ⟨hcond, hrest s' h⟩
  · rintro ⟨hcond, hrest⟩
    refine ⟨hcond, ?_⟩
    intro s'' h''
    obtain rfl := Option.some.inj (h.symm.trans h'')
    exact hrest

theorem along_cons_of_none {cond : σ → ε → Prop} {s : σ} {e : ε} {es : List ε}
    (h : step s e = none) :
  Along step cond s (e :: es) ↔ cond s e
  := by
  rw [Along]
  constructor
  · rintro ⟨hcond, -⟩
    exact hcond
  · intro hcond
    refine ⟨hcond, ?_⟩
    intro s' h'
    cases h.symm.trans h'

instance decidableAlong {cond : σ → ε → Prop} [∀ s e, Decidable (cond s e)] :
    ∀ (s : σ) (es : List ε), Decidable (Along step cond s es)
  | _, [] => .isTrue trivial
  | s, e :: es =>
    match h : step s e with
    | none => decidable_of_iff _ (along_cons_of_none h).symm
    | some s' =>
      have : Decidable (Along step cond s' es) := decidableAlong s' es
      decidable_of_iff _ (along_cons_of_some h).symm

/-- A condition that implies another holds along fewer runs. -/
theorem Along.imp {cond cond' : σ → ε → Prop} {s : σ} {es : List ε}
    (hcond : Along step cond s es) (h : ∀ s e, cond s e → cond' s e) :
  Along step cond' s es
  := by
  induction es generalizing s with
  | nil => trivial
  | cons e es ih => exact ⟨h s e hcond.1, fun s' hs' => ih (hcond.2 s' hs')⟩

/-- A condition that holds along a run holds along its beginning. -/
theorem Along.of_append {cond : σ → ε → Prop} {s : σ} {es es' : List ε}
    (h : Along step cond s (es ++ es')) :
  Along step cond s es
  := by
  induction es generalizing s with
  | nil => trivial
  | cons e es ih => exact ⟨h.1, fun s' hs' => ih (h.2 s' hs')⟩

/-- A condition on the events alone holds along a run of such events. -/
theorem along_of_mem {E : ε → Prop} {s : σ} {es : List ε} (h : ∀ e ∈ es, E e) :
  Along step (fun _ e => E e) s es
  := by
  induction es generalizing s with
  | nil => trivial
  | cons e es ih =>
      obtain ⟨he, hes⟩ := List.forall_mem_cons.mp h
      exact ⟨he, fun _ _ => ih hes⟩

/-- A condition that implies another in the states of an invariant, which it keeps, for the
events of a run. -/
theorem along_of_along {I : σ → Prop} {E : ε → Prop} {P Q : σ → ε → Prop}
    (keep : ∀ s e s', I s → E e → P s e → step s e = some s' → I s')
    (imp : ∀ s e, I s → E e → P s e → Q s e) {s : σ} {es : List ε} (hs : I s)
    (hes : ∀ e ∈ es, E e) (hP : Along step P s es) :
  Along step Q s es
  := by
  induction es generalizing s with
  | nil => trivial
  | cons e es ih =>
      obtain ⟨he, hes⟩ := List.forall_mem_cons.mp hes
      refine ⟨imp s e hs he hP.1, ?_⟩
      intro s' hs'
      apply ih (keep s e s' hs he hP.1 hs') hes (hP.2 s' hs')

/-- Two conditions that agree in the states of an invariant, which the second one keeps,
hold along the same runs. -/
theorem along_iff_along {I : σ → Prop} {P Q : σ → ε → Prop}
    (keep : ∀ s e s', I s → Q s e → step s e = some s' → I s')
    (iff : ∀ s e, I s → (P s e ↔ Q s e)) {s : σ} (hs : I s) (es : List ε) :
  Along step P s es ↔ Along step Q s es
  := by
  constructor
  · apply along_of_along (E := fun _ => True) _ _ hs (fun _ _ => trivial)
    · intro s e s' hs _ hP hs'
      apply keep s e s' hs ((iff s e hs).mp hP) hs'
    · intro s e hs _
      apply (iff s e hs).mp
  · apply along_of_along (E := fun _ => True) _ _ hs (fun _ _ => trivial)
    · intro s e s' hs _ hQ hs'
      apply keep s e s' hs hQ hs'
    · intro s e hs _
      apply (iff s e hs).mpr

theorem exec_cons {s t : σ} {e : ε} {es : List ε} :
  exec step s (e :: es) = some t ↔ ∃ s', step s e = some s' ∧ exec step s' es = some t
  := by
  rw [exec, Option.bind_eq_some_iff]

/-- The events of two runs, one behind the other. -/
theorem exec_append {s s' t : σ} {es es' : List ε} (h : exec step s es = some s')
    (h' : exec step s' es' = some t) :
  exec step s (es ++ es') = some t
  := by
  induction es generalizing s with
  | nil =>
      cases h
      exact h'
  | cons e es ih =>
      obtain ⟨s₁, hs₁, h⟩ := exec_cons.mp h
      apply exec_cons.mpr ⟨s₁, hs₁, ih h⟩

/-- A run of two lists of events comes to a state between them. -/
theorem exec_split {s t : σ} {es es' : List ε} (h : exec step s (es ++ es') = some t) :
  ∃ s', exec step s es = some s' ∧ exec step s' es' = some t
  := by
  induction es generalizing s with
  | nil => exact ⟨s, rfl, h⟩
  | cons e es ih =>
      obtain ⟨s₁, hs₁, h⟩ := exec_cons.mp h
      obtain ⟨s', hs', h⟩ := ih h
      exact ⟨s', exec_cons.mpr ⟨s₁, hs₁, hs'⟩, h⟩

/-- A property that does not hold before a run and holds at its end begins to hold at one
of its steps. -/
theorem exec_enters {P : σ → Prop} {s t : σ} {es : List ε} (h : exec step s es = some t)
    (hs : ¬ P s) (ht : P t) :
  ∃ pre e post s₁ s₂, es = pre ++ e :: post ∧ exec step s pre = some s₁ ∧ ¬ P s₁ ∧
    step s₁ e = some s₂ ∧ P s₂ ∧ exec step s₂ post = some t
  := by
  induction es generalizing s with
  | nil =>
      cases h
      apply absurd ht hs
  | cons e es ih =>
      obtain ⟨s', hs', h⟩ := exec_cons.mp h
      by_cases hP : P s'
      · exact ⟨[], e, es, s, s', rfl, rfl, hs, hs', hP, h⟩
      · obtain ⟨pre, e', post, s₁, s₂, rfl, hpre, hbefore, hstep, hafter, hpost⟩ := ih h hP
        exact ⟨e :: pre, e', post, s₁, s₂, rfl, exec_cons.mpr ⟨s', hs', hpre⟩, hbefore, hstep,
          hafter, hpost⟩

/-- A run is taken when an invariant and a condition on its steps see to it that each step
is. -/
theorem exec_of_along {I : σ → Prop} {cond : σ → ε → Prop}
    (take : ∀ s e, I s → cond s e → ∃ s', step s e = some s' ∧ I s')
    {s : σ} {es : List ε} (hs : I s) (hcond : Along step cond s es) :
  ∃ t, exec step s es = some t
  := by
  induction es generalizing s with
  | nil => exact ⟨s, rfl⟩
  | cons e es ih =>
      obtain ⟨s', hs', hI⟩ := take s e hs hcond.1
      obtain ⟨t, ht⟩ := ih hI (hcond.2 s' hs')
      exact ⟨t, exec_cons.mpr ⟨s', hs', ht⟩⟩

/-- An invariant that the steps keep which meet a condition holds at the end of a run
along which the condition holds. -/
theorem exec_invariant {I : σ → Prop} {cond : σ → ε → Prop}
    (keep : ∀ s e s', I s → cond s e → step s e = some s' → I s')
    {s t : σ} {es : List ε} (hs : I s) (hcond : Along step cond s es)
    (h : exec step s es = some t) :
  I t
  := by
  induction es generalizing s with
  | nil =>
      cases h
      apply hs
  | cons e es ih =>
      obtain ⟨s', hs', h⟩ := exec_cons.mp h
      apply ih (keep s e s' hs hcond.1 hs') (hcond.2 s' hs') h

/-- An invariant that every step keeps holds at the end of every run. -/
theorem exec_preserves {I : σ → Prop} (keep : ∀ s e s', I s → step s e = some s' → I s')
    {s t : σ} {es : List ε} (hs : I s) (h : exec step s es = some t) :
  I t
  := by
  induction es generalizing s with
  | nil =>
      cases h
      apply hs
  | cons e es ih =>
      obtain ⟨s', hs', h⟩ := exec_cons.mp h
      apply ih (keep s e s' hs hs') h

/-- When every step of one machine is simulated by another machine, so is every run. -/
theorem exec_simulation {τ : Type*} {step' : τ → ε → Option τ} {R : σ → τ → Prop}
    (sim : ∀ s t e s', R s t → step s e = some s' → ∃ t', step' t e = some t' ∧ R s' t')
    {s s' : σ} {t : τ} {es : List ε} (hst : R s t) (h : exec step s es = some s') :
  ∃ t', exec step' t es = some t' ∧ R s' t'
  := by
  induction es generalizing s t with
  | nil =>
      cases h
      exact ⟨t, rfl, hst⟩
  | cons e es ih =>
      obtain ⟨s₁, hs₁, h⟩ := exec_cons.mp h
      obtain ⟨t₁, ht₁, hst₁⟩ := sim s t e s₁ hst hs₁
      obtain ⟨t', ht', hst'⟩ := ih hst₁ h
      exact ⟨t', exec_cons.mpr ⟨t₁, ht₁, ht'⟩, hst'⟩

/-- A property that holds throughout a run holds at its end. -/
theorem throughout_end {P : σ → Prop} {s t : σ} {es : List ε} (hP : Throughout step P s es)
    (h : exec step s es = some t) :
  P t
  := by
  induction es generalizing s with
  | nil =>
      cases h
      exact hP
  | cons e es ih =>
      obtain ⟨s', hs', h⟩ := exec_cons.mp h
      apply ih (hP.2 s' hs') h

/-- What an invariant implies holds throughout every run along which the condition
holds. -/
theorem throughout_of_along {I P : σ → Prop} {cond : σ → ε → Prop}
    (keep : ∀ s e s', I s → cond s e → step s e = some s' → I s') (imp : ∀ s, I s → P s)
    {s : σ} {es : List ε} (hs : I s) (hcond : Along step cond s es) :
  Throughout step P s es
  := by
  induction es generalizing s with
  | nil => exact imp s hs
  | cons e es ih =>
      exact ⟨imp s hs, fun s' hs' => ih (keep s e s' hs hcond.1 hs') (hcond.2 s' hs')⟩

/-- When the steps that do not meet the condition lead to a state without the property,
the property holds throughout a run exactly when the condition holds along it. -/
theorem throughout_iff_along {I P : σ → Prop} {cond : σ → ε → Prop}
    (keep : ∀ s e s', I s → cond s e → step s e = some s' → I s')
    (spoil : ∀ s e s', I s → ¬ cond s e → step s e = some s' → ¬ P s')
    (imp : ∀ s, I s → P s) {s t : σ} {es : List ε} (hs : I s) (h : exec step s es = some t) :
  Throughout step P s es ↔ Along step cond s es
  := by
  constructor
  · intro hP
    induction es generalizing s with
    | nil => trivial
    | cons e es ih =>
        obtain ⟨s', hs', h⟩ := exec_cons.mp h
        have hP' := hP.2 s' hs'
        have hcond : cond s e := by
          by_contra hcond
          apply spoil s e s' hs hcond hs'
          cases es with
          | nil => exact hP'
          | cons e' es => exact hP'.1
        refine ⟨hcond, ?_⟩
        intro s'' hs''
        obtain rfl : s' = s'' := Option.some.inj (hs'.symm.trans hs'')
        apply ih (keep s e s' hs hcond hs') h hP'
  · apply throughout_of_along keep imp hs

/-! ### Machines that answer -/

/-- The answers of a machine to the events of a run, and the state behind them, if the
machine takes all of them. -/
def answers {ρ : Type*} (step : σ → ε → Option (ρ × σ)) : σ → List ε → Option (List ρ × σ)
  | s, [] => some ([], s)
  | s, e :: es =>
    (step s e).bind fun a => (answers step a.2 es).map fun b => (a.1 :: b.1, b.2)

/-- What a step keeps of a state and of a summary of the answers so far, a run keeps. -/
theorem answers_foldl {ρ β : Type*} {step : σ → ε → Option (ρ × σ)} {f : β → ρ → β}
    {I : σ → β → Prop}
    (keep : ∀ s b e r s', I s b → step s e = some (r, s') → I s' (f b r))
    {s t : σ} {b : β} {es : List ε} {rs : List ρ} (hs : I s b)
    (h : answers step s es = some (rs, t)) :
  I t (rs.foldl f b)
  := by
  induction es generalizing s b rs with
  | nil =>
      cases h
      exact hs
  | cons e es ih =>
      obtain ⟨⟨r, s'⟩, hstep, h⟩ := Option.bind_eq_some_iff.mp h
      obtain ⟨⟨rs', t'⟩, hrest, h⟩ := Option.map_eq_some_iff.mp h
      cases h
      apply ih (keep s b e r s' hs hstep) hrest

/-- The same answers, and related states behind them. -/
def SameAnswer {ρ σ τ : Type*} (R : σ → τ → Prop) (a : ρ × σ) (b : ρ × τ) : Prop :=
  a.1 = b.1 ∧ R a.2 b.2

/-- What follows related results is related. -/
theorem rel_bind {α β γ δ : Type*} {R : α → β → Prop} {S : γ → δ → Prop} {x : Option α}
    {y : Option β} {f : α → Option γ} {g : β → Option δ} (h : Option.Rel R x y)
    (hfg : ∀ a b, R a b → Option.Rel S (f a) (g b)) :
  Option.Rel S (x.bind f) (y.bind g)
  := by
  cases h with
  | none => exact .none
  | some hab => exact hfg _ _ hab

theorem rel_imp {α β : Type*} {R S : α → β → Prop} {x : Option α} {y : Option β}
    (h : Option.Rel R x y) (hRS : ∀ a b, R a b → S a b) :
  Option.Rel S x y
  := by
  cases h with
  | none => exact .none
  | some hab => exact .some (hRS _ _ hab)

/-- When two machines answer every event the same way, or both refuse it, so they do with
every run. -/
theorem answers_rel {ρ τ : Type*} {step : σ → ε → Option (ρ × σ)}
    {step' : τ → ε → Option (ρ × τ)} {R : σ → τ → Prop}
    (sim : ∀ s t e, R s t → Option.Rel (SameAnswer R) (step s e) (step' t e))
    {s : σ} {t : τ} (hst : R s t) (es : List ε) :
  Option.Rel (SameAnswer R) (answers step s es) (answers step' t es)
  := by
  induction es generalizing s t with
  | nil => exact .some ⟨rfl, hst⟩
  | cons e es ih =>
      apply rel_bind (sim s t e hst)
      rintro a b ⟨hanswer, hst'⟩
      rw [Option.map_eq_bind, Option.map_eq_bind]
      apply rel_bind (ih hst')
      rintro a' b' ⟨hanswers, hend⟩
      exact .some ⟨congrArg₂ _ hanswer hanswers, hend⟩

end Run
