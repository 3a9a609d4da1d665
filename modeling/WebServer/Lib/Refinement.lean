import WebServer.Lib.Run

/-!
# Refinement between two machines

A machine is seen as another one: each of its states is seen as a state, and each of its
events as a few events, or as none.  When every step is seen as a run (`Refines`), so is
every run.  When moreover, from states that are at rest, every step of the other machine is what
some run that ends at rest is seen as (`Realizes`), then the runs of the other machine are exactly
what the runs of the machine are seen as (`exec_iff`).
-/

universe u v w x

namespace Run

variable {σ : Type u} {ε : Type v} {τ : Type w} {ε' : Type x}

/-- In the states of an invariant, each step is seen as a run of the other machine. -/
structure Refines (step : σ → ε → Option σ) (step' : τ → ε' → Option τ) (I : σ → Prop)
    (view : σ → τ) (erase : ε → List ε') : Prop where
  keep : ∀ s e s', I s → step s e = some s' → I s'
  seen : ∀ s e s', I s → step s e = some s' → exec step' (view s) (erase e) = some (view s')

/-- From every state at rest, each step of the other machine is what a run that comes to rest
is seen as. -/
def Realizes (step : σ → ε → Option σ) (step' : τ → ε' → Option τ) (C : σ → Prop)
    (view : σ → τ) (erase : ε → List ε') : Prop :=
  ∀ s e t, C s → step' (view s) e = some t →
    ∃ es s', exec step s es = some s' ∧ C s' ∧ view s' = t ∧ es.flatMap erase = [e]

variable {step : σ → ε → Option σ} {step' : τ → ε' → Option τ} {I C : σ → Prop} {view : σ → τ}
  {erase : ε → List ε'}

/-- A run is seen as a run. -/
theorem Refines.exec (h : Refines step step' I view erase) {s t : σ} {es : List ε} (hs : I s)
    (ht : exec step s es = some t) :
  exec step' (view s) (es.flatMap erase) = some (view t)
  := by
  induction es generalizing s with
  | nil =>
      cases ht
      rfl
  | cons e es ih =>
      obtain ⟨s', hs', ht⟩ := exec_cons.mp ht
      rw [List.flatMap_cons]
      exact exec_append (h.seen s e s' hs hs') (ih (h.keep s e s' hs hs') ht)

/-- A run of the other machine is what a run is seen as. -/
theorem Realizes.exec (h : Realizes step step' C view erase) {s : σ} {t : τ} {es' : List ε'}
    (hs : C s) (ht : exec step' (view s) es' = some t) :
  ∃ es s', exec step s es = some s' ∧ C s' ∧ view s' = t ∧ es.flatMap erase = es'
  := by
  induction es' generalizing s with
  | nil =>
      cases ht
      exact ⟨[], s, rfl, hs, rfl, rfl⟩
  | cons e es' ih =>
      obtain ⟨t', ht', ht⟩ := exec_cons.mp ht
      obtain ⟨es₁, s₁, hs₁, hrest, rfl, herase⟩ := h s e t' hs ht'
      obtain ⟨es₂, s₂, hs₂, hrest', hview, herase'⟩ := ih hrest ht
      refine ⟨es₁ ++ es₂, s₂, exec_append hs₁ hs₂, hrest', hview, ?_⟩
      rw [List.flatMap_append, herase, herase']
      rfl

/-- The runs of the other machine are what the runs of the machine are seen as. -/
theorem exec_iff (h : Refines step step' I view erase) (h' : Realizes step step' C view erase)
    {s : σ} (hI : I s) (hC : C s) {t : τ} {es' : List ε'} :
  exec step' (view s) es' = some t ↔
    ∃ es s', exec step s es = some s' ∧ view s' = t ∧ es.flatMap erase = es'
  := by
  constructor
  · intro ht
    obtain ⟨es, s', hs', -, hview, herase⟩ := h'.exec hC ht
    exact ⟨es, s', hs', hview, herase⟩
  · rintro ⟨es, s', hs', rfl, rfl⟩
    exact h.exec hI hs'

end Run
