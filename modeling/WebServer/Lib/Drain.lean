import WebServer.Lib.Run

/-!
# Work that comes to an end

Some of the steps of a machine do the work that is left, and others bring new work.  When
each step of the first kind takes something off a measure, no run of them is longer than
the measure, and every one goes on until none of them is possible.  What holds then is what
the work comes to (`Finishes`), in whatever order the steps are taken.
-/

universe u v

namespace Run

variable {σ : Type u} {ε : Type v} (step : σ → ε → Option σ)

/-- No step of the work is possible. -/
def Done (work : ε → Prop) (s : σ) : Prop := ∀ e, work e → step s e = none

/-- A step of the work keeps the invariant and takes something off what is left. -/
structure Drains (I : σ → Prop) (work : ε → Prop) (left : σ → ℕ) : Prop where
  keep : ∀ s e s', I s → work e → step s e = some s' → I s'
  less : ∀ s e s', I s → work e → step s e = some s' → left s' < left s

/-- From `s` on, no run of the work has more than `n` steps, each goes on to one behind which
no step of the work is possible, and `goal` holds behind every such run. -/
structure Finishes (work : ε → Prop) (n : ℕ) (goal : σ → Prop) (s : σ) : Prop where
  bounded : ∀ es t, (∀ e ∈ es, work e) → exec step s es = some t → es.length ≤ n
  goesOn : ∀ es t, (∀ e ∈ es, work e) → exec step s es = some t →
    ∃ es' t', (∀ e ∈ es', work e) ∧ exec step t es' = some t' ∧ Done step work t'
  reaches : ∀ es t, (∀ e ∈ es, work e) → exec step s es = some t → Done step work t → goal t

variable {step} {I : σ → Prop} {work : ε → Prop} {left : σ → ℕ}

/-- A run of the work keeps the invariant. -/
theorem Drains.invariant (h : Drains step I work left) {s t : σ} {es : List ε} (hs : I s)
    (hes : ∀ e ∈ es, work e) (ht : exec step s es = some t) :
  I t
  := exec_invariant (fun s e s' hs he => h.keep s e s' hs he) hs (along_of_mem hes) ht

/-- Each step of a run of the work takes something off what is left. -/
theorem Drains.length_add_le (h : Drains step I work left) {s t : σ} {es : List ε} (hs : I s)
    (hes : ∀ e ∈ es, work e) (ht : exec step s es = some t) :
  es.length + left t ≤ left s
  := by
  induction es generalizing s with
  | nil =>
      cases ht
      exact (Nat.zero_add _).le
  | cons e es ih =>
      obtain ⟨he, hes⟩ := List.forall_mem_cons.mp hes
      obtain ⟨s', hs', ht⟩ := exec_cons.mp ht
      have hless := h.less s e s' hs he hs'
      have hle := ih (h.keep s e s' hs he hs') hes ht
      rw [List.length_cons]
      omega

/-- The work can be brought to its end. -/
theorem Drains.exists_done (h : Drains step I work left) {s : σ} (hs : I s) :
  ∃ es t, (∀ e ∈ es, work e) ∧ exec step s es = some t ∧ Done step work t
  := by
  induction hn : left s using Nat.strong_induction_on generalizing s with
  | _ n ih =>
      by_cases hdone : Done step work s
      · exact ⟨[], s, nofun, rfl, hdone⟩
      · rw [Done] at hdone
        push Not at hdone
        obtain ⟨e, he, hsome⟩ := hdone
        obtain ⟨s', hs'⟩ := Option.ne_none_iff_exists'.mp hsome
        have hless := hn ▸ h.less s e s' hs he hs'
        obtain ⟨es, t, hes, ht, hdone⟩ := ih _ hless (h.keep s e s' hs he hs') rfl
        exact ⟨e :: es, t, List.forall_mem_cons.mpr ⟨he, hes⟩, exec_cons.mpr ⟨s', hs', ht⟩, hdone⟩

/-- The work comes to what holds in the states of the invariant in which no step of it is
possible. -/
theorem Drains.finishes (h : Drains step I work left) {goal : σ → Prop}
    (hgoal : ∀ t, I t → Done step work t → goal t) {s : σ} (hs : I s) :
  Finishes step work (left s) goal s
  where
  bounded := fun _ _ hes ht => (Nat.le_add_right _ _).trans (h.length_add_le hs hes ht)
  goesOn := fun _ _ hes ht => h.exists_done (h.invariant hs hes ht)
  reaches := fun _ t hes ht hdone => hgoal t (h.invariant hs hes ht) hdone

end Run
