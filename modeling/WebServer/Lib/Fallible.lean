import Mathlib.Tactic

/-!
# Computations that may fail

A computation that may fail returns in `Except`.  A sequence of two succeeds when both
parts do.  Two computations are `Related` when they fail in the same way or succeed with
related results.
-/

namespace Fallible

universe u

variable {ε : Type*} {α β : Type u}

/-- A sequence of two computations succeeds with the result of the second. -/
theorem bind_eq_ok {x : Except ε α} {f : α → Except ε β} {b : β} :
  (x >>= f) = .ok b ↔ ∃ a, x = .ok a ∧ f a = .ok b
  := by
  cases x with
  | error e => simp [bind, Except.bind]
  | ok a => simp [bind, Except.bind]

@[simp]
theorem ok_bind (a : α) (f : α → Except ε β) :
  (Except.ok a >>= f) = f a
  := rfl

/-- The result of a computation that succeeds. -/
theorem toOption_eq_some {x : Except ε α} {a : α} :
  x.toOption = some a ↔ x = .ok a
  := by
  cases x with
  | error e => simp [Except.toOption]
  | ok b => simp [Except.toOption]

/-- A computation succeeds with a pair when it succeeds with the first part of it. -/
theorem exists_of_map_fst {γ : Type*} {x : Except ε (γ × β)} {c : γ}
    (h : x.map Prod.fst = .ok c) :
  ∃ b, x = .ok (c, b)
  := by
  cases x with
  | error e => cases h
  | ok r =>
      use r.2
      rw [← Except.ok.inj h]

/-- Two computations that fail in the same way, or succeed with results that are related
by `R`. -/
inductive Related {β : Type*} (R : α → β → Prop) : Except ε α → Except ε β → Prop
  | ok {a : α} {b : β} : R a b → Related R (.ok a) (.ok b)
  | error (e : ε) : Related R (.error e) (.error e)

/-- What follows related computations is related. -/
theorem Related.bind {α' β' : Type u} {R : α → α' → Prop} {S : β → β' → Prop} {x : Except ε α}
    {y : Except ε α'} {f : α → Except ε β} {g : α' → Except ε β'} (h : Related R x y)
    (hfg : ∀ a b, R a b → Related S (f a) (g b)) :
  Related S (x >>= f) (y >>= g)
  := by
  cases h with
  | ok hab => exact hfg _ _ hab
  | error e => exact .error e

end Fallible
