import WebServer.Lib.Run

/-!
# Machines side by side

A machine that answers takes a trace when it takes the events of the trace one after
another and gives the answers of the trace to them (`Traces`).  Machines side by side,
`each`, take an event of one of them at a time, and take a trace exactly when each machine
takes its own part of it (`each_traces_iff`): no machine sees the events of another.

The steps of a machine may be seen as what they do to another one.  `output` is what the
steps of a run do, one after another, and when each step does what the other machine
takes, so does the run (`exec_traces`).
-/

universe u v w

namespace Run

variable {σ : Type u} {ε : Type v} {ρ : Type w}

/-- The machine takes the events of a trace and gives its answers to them. -/
def Traces (step : σ → ε → Option (ρ × σ)) : σ → List (ε × ρ) → σ → Prop
  | s, [], t => s = t
  | s, er :: l, t => ∃ s', step s er.1 = some (er.2, s') ∧ Traces step s' l t

section Traces

variable {step : σ → ε → Option (ρ × σ)} {s t u : σ} {l l' : List (ε × ρ)}

theorem Traces.append (h : Traces step s l t) (h' : Traces step t l' u) :
  Traces step s (l ++ l') u
  := by
  induction l generalizing s with
  | nil =>
      cases h
      exact h'
  | cons er l ih =>
      obtain ⟨s', hs', h⟩ := h
      exact ⟨s', hs', ih h⟩

theorem traces_singleton {e : ε} {r : ρ} (h : step s e = some (r, t)) :
  Traces step s [(e, r)] t
  := ⟨t, h, rfl⟩

/-- The events of a run with the answers to them are a trace. -/
theorem traces_of_answers {es : List ε} {rs : List ρ} (h : answers step s es = some (rs, t)) :
  Traces step s (es.zip rs) t
  := by
  induction es generalizing s rs with
  | nil =>
      cases h
      rfl
  | cons e es ih =>
      obtain ⟨⟨r, s'⟩, hs', h⟩ := Option.bind_eq_some_iff.mp h
      obtain ⟨⟨rs', t'⟩, hrest, h⟩ := Option.map_eq_some_iff.mp h
      cases h
      exact ⟨s', hs', ih hrest⟩

end Traces

/-! ### Side by side -/

section Each

variable {ι : Type*} [DecidableEq ι]

/-- One of the machines side by side takes an event. -/
def each (step : σ → ε → Option (ρ × σ)) (s : ι → σ) (e : ι × ε) : Option (ρ × (ι → σ)) :=
  (step (s e.1) e.2).map fun a => (a.1, Function.update s e.1 a.2)

/-- The part of a trace that is the own one of a machine. -/
def own (i : ι) (l : List ((ι × ε) × ρ)) : List (ε × ρ) :=
  (l.filter fun x => x.1.1 = i).map fun x => (x.1.2, x.2)

theorem own_cons_self (i : ι) (e : ε) (r : ρ) (l : List ((ι × ε) × ρ)) :
  own i (((i, e), r) :: l) = (e, r) :: own i l
  := by
  rw [own, List.filter_cons_of_pos (by simp), List.map_cons, own]

theorem own_cons_of_ne {i j : ι} (h : j ≠ i) (e : ε) (r : ρ) (l : List ((ι × ε) × ρ)) :
  own i (((j, e), r) :: l) = own i l
  := by
  rw [own, List.filter_cons_of_neg (by simpa using h), own]

/-- Machines side by side take a trace exactly when each takes its own part of it. -/
theorem each_traces_iff {step : σ → ε → Option (ρ × σ)} {s t : ι → σ}
    {l : List ((ι × ε) × ρ)} :
  Traces (each step) s l t ↔ ∀ i, Traces step (s i) (own i l) (t i)
  := by
  induction l generalizing s with
  | nil => exact ⟨fun h i => congrFun h i, fun h => funext h⟩
  | cons x l ih =>
      obtain ⟨⟨j, e⟩, r⟩ := x
      constructor
      · rintro ⟨s', hs', h⟩ i
        obtain ⟨⟨r', a⟩, ha, hs'⟩ := Option.map_eq_some_iff.mp hs'
        cases hs'
        have hrest := ih.mp h i
        by_cases hi : j = i
        · subst hi
          rw [own_cons_self]
          rw [Function.update_self] at hrest
          exact ⟨a, ha, hrest⟩
        · rw [own_cons_of_ne hi]
          rw [Function.update_of_ne (Ne.symm hi)] at hrest
          exact hrest
      · intro h
        have hj := h j
        rw [own_cons_self] at hj
        obtain ⟨a, ha, hj⟩ := hj
        refine ⟨Function.update s j a, Option.map_eq_some_iff.mpr ⟨(r, a), ha, rfl⟩, ?_⟩
        apply ih.mpr
        intro i
        by_cases hi : j = i
        · subst hi
          rw [Function.update_self]
          exact hj
        · rw [Function.update_of_ne (Ne.symm hi)]
          have hrest := h i
          rw [own_cons_of_ne hi] at hrest
          exact hrest

end Each

/-! ### What the steps of a run do -/

section Output

variable {δ : Type*} {τ : Type*}

/-- What the steps of a run do, one after another, when `out` is what a step does. -/
def output (step : σ → ε → Option σ) (out : σ → ε → σ → List δ) : σ → List ε → List δ
  | _, [] => []
  | s, e :: es => (step s e).elim [] fun s' => out s e s' ++ output step out s' es

/-- When each step of a machine does what another machine takes, so does every run along
which the condition holds. -/
theorem exec_traces {step : σ → ε → Option σ} {out : σ → ε → σ → List (δ × ρ)}
    {step' : τ → δ → Option (ρ × τ)} {R : σ → τ → Prop} {cond : σ → ε → Prop}
    (sim : ∀ s t e s', R s t → cond s e → step s e = some s' →
      ∃ t', Traces step' t (out s e s') t' ∧ R s' t')
    {s s' : σ} {t : τ} {es : List ε} (hst : R s t) (hcond : Along step cond s es)
    (h : exec step s es = some s') :
  ∃ t', Traces step' t (output step out s es) t' ∧ R s' t'
  := by
  induction es generalizing s t with
  | nil =>
      cases h
      exact ⟨t, rfl, hst⟩
  | cons e es ih =>
      obtain ⟨s₁, hs₁, h⟩ := exec_cons.mp h
      obtain ⟨t₁, ht₁, hst₁⟩ := sim s t e s₁ hst hcond.1 hs₁
      obtain ⟨t', ht', hst'⟩ := ih hst₁ (hcond.2 s₁ hs₁) h
      refine ⟨t', ?_, hst'⟩
      rw [output, hs₁]
      apply ht₁.append ht'

end Output

end Run
