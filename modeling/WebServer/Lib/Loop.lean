import Mathlib.Tactic

/-!
# Loops with a measure

A loop is given by its body, a function `σ → σ ⊕ ρ` which either goes round again with
a new state or leaves with a result.  When a measure decreases on every further round,
`whileLoop` is the total function the loop computes.  It is a structural recursion on a
bound of the number of rounds, so it evaluates; `whileLoop_inl` and `whileLoop_inr`
unfold it one round without the bound, and `whileLoop_rule` is its induction principle.
-/

universe u v

namespace Loop

variable {σ : Type u} {ρ : Type v} (body : σ → σ ⊕ ρ) (μ : σ → ℕ)

/-- The measure `μ` decreases on every further round of the loop `body`. -/
def Decreases : Prop := ∀ s s', body s = .inl s' → μ s' < μ s

variable {body μ}

/-- The rounds of a loop from a state of measure below `n`. -/
def rounds (hμ : Decreases body μ) : (n : ℕ) → (s : σ) → μ s < n → ρ
  | 0, _, hs => absurd hs (Nat.not_lt_zero _)
  | n + 1, s, hs =>
    match h : body s with
    | .inl s' => rounds hμ n s' (Nat.lt_of_lt_of_le (hμ s s' h) (Nat.le_of_lt_succ hs))
    | .inr r => r

/-- The result of the loop `body` from the state `s`. -/
def whileLoop (hμ : Decreases body μ) (s : σ) : ρ :=
  rounds hμ (μ s + 1) s (Nat.lt_succ_self _)

/-- The bound on the number of rounds does not matter. -/
theorem rounds_eq (hμ : Decreases body μ) :
    ∀ (n m : ℕ) (s : σ) (hn : μ s < n) (hm : μ s < m),
      rounds hμ n s hn = rounds hμ m s hm
  | 0, _, _, hn, _ => absurd hn (Nat.not_lt_zero _)
  | _, 0, _, _, hm => absurd hm (Nat.not_lt_zero _)
  | n + 1, m + 1, s, hn, hm => by
      rw [rounds, rounds]
      split
      · apply rounds_eq
      · rfl

/-- A round after which the loop goes on. -/
theorem whileLoop_inl (hμ : Decreases body μ) {s s' : σ} (h : body s = .inl s') :
  whileLoop hμ s = whileLoop hμ s'
  := by
  rw [whileLoop, rounds]
  split
  · next t ht =>
      obtain rfl := Sum.inl.inj (h.symm.trans ht)
      apply rounds_eq
  · next r hr => cases h.symm.trans hr

/-- A round with which the loop is left. -/
theorem whileLoop_inr (hμ : Decreases body μ) {s : σ} {r : ρ} (h : body s = .inr r) :
  whileLoop hμ s = r
  := by
  rw [whileLoop, rounds]
  split
  · next t ht => cases h.symm.trans ht
  · next r' hr => apply Sum.inr.inj (hr.symm.trans h)

/-- A relation between states and results which holds at every exit of the loop and is
carried back over every round holds between every state and the result from it. -/
theorem whileLoop_rule
    (hμ : Decreases body μ) {P : σ → ρ → Prop}
    (again : ∀ s s' r, body s = .inl s' → P s' r → P s r)
    (leave : ∀ s r, body s = .inr r → P s r) (s : σ) :
  P s (whileLoop hμ s)
  := by
  induction h : μ s using Nat.strong_induction_on generalizing s with
  | _ n ih =>
      subst h
      cases hs : body s with
      | inl s' =>
          rw [whileLoop_inl hμ hs]
          apply again s s' _ hs
          apply ih _ (hμ s s' hs) _ rfl
      | inr r =>
          rw [whileLoop_inr hμ hs]
          apply leave s r hs

/-- The rule of `whileLoop_rule` from the states which satisfy an invariant of the
loop. -/
theorem whileLoop_invariant
    (hμ : Decreases body μ) {I : σ → Prop} {P : σ → ρ → Prop}
    (keep : ∀ s s', I s → body s = .inl s' → I s')
    (again : ∀ s s' r, I s → body s = .inl s' → P s' r → P s r)
    (leave : ∀ s r, I s → body s = .inr r → P s r) {s : σ} (hs : I s) :
  P s (whileLoop hμ s)
  := by
  revert hs
  apply whileLoop_rule hμ (P := fun s r => I s → P s r)
  · intro s s' r h hP hs
    apply again s s' r hs h
    apply hP (keep s s' hs h)
  · intro s r h hs
    apply leave s r hs h

/-- States from which the first round is the same have the same result. -/
theorem whileLoop_congr (hμ : Decreases body μ) {s s' : σ} (h : body s = body s') :
  whileLoop hμ s = whileLoop hμ s'
  := by
  cases hs : body s' with
  | inl t => rw [whileLoop_inl hμ hs, whileLoop_inl hμ (h.trans hs)]
  | inr r => rw [whileLoop_inr hμ hs, whileLoop_inr hμ (h.trans hs)]

end Loop
