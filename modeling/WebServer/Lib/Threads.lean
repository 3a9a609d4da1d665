import Mathlib.Algebra.BigOperators.Pi
import Mathlib.Algebra.BigOperators.Fin
import Mathlib.Algebra.Order.BigOperators.Group.Finset
import Mathlib.Data.Fintype.BigOperators
import Mathlib.Tactic

/-!
# Threads of a machine

Finitely many threads run side by side, and each is at a place of its own code.  What the
threads have together is the sum over the threads of what a thread at its place has: the
number of threads at some place, the elements that the threads hold.  A step moves one
thread: what is read off the others is left (`read_update`), and the sum changes by what
that thread has before and after (`total_update`).
-/

universe u v w

namespace Threads

variable {ι : Type u} {σ : Type v} {M : Type w} [Fintype ι] [AddCommMonoid M]

/-- What is read off a thread at its place, after one thread has moved. -/
theorem read_update {ι : Type*} {σ : Type*} {β : Type*} [DecidableEq ι] (read : σ → β)
    (place : ι → σ) (i : ι) (c : σ) (j : ι) :
  read (Function.update place i c j) = if j = i then read c else read (place j)
  := by
  rw [Function.update_apply, apply_ite read]

/-- What is read off a thread after one has moved was read off it before, or is that of the
thread that has moved. -/
theorem read_update_eq_some {ι : Type*} {σ : Type*} {β : Type*} [DecidableEq ι]
    {read : σ → Option β} {place : ι → σ} {i : ι} {c : σ} {j : ι} {b : β}
    (h : read (Function.update place i c j) = some b) :
  (j = i ∧ read c = some b) ∨ (j ≠ i ∧ read (place j) = some b)
  := by
  rw [read_update read] at h
  split at h
  next heq => exact .inl ⟨heq, h⟩
  next hne => exact .inr ⟨hne, h⟩

/-- What the threads have together, when a thread at the place `c` has `weight c`. -/
def total (weight : σ → M) (place : ι → σ) : M := ∑ i, weight (place i)

/-- Nobody has anything when all threads are at a place where a thread has nothing. -/
theorem total_const_zero {weight : σ → M} {c : σ} (h : weight c = 0) :
  total weight (fun _ : ι => c) = 0
  := Finset.sum_eq_zero fun _ _ => h

/-- One thread moves, and what it had is replaced by what it has now. -/
theorem total_update [DecidableEq ι] (weight : σ → M) (place : ι → σ) (i : ι) (c : σ) :
  total weight (Function.update place i c) + weight (place i) = total weight place + weight c
  := by
  have hrest : ∑ j ∈ Finset.univ.erase i, weight (Function.update place i c j)
      = ∑ j ∈ Finset.univ.erase i, weight (place j) := by
    apply Finset.sum_congr rfl
    intro j hj
    rw [Function.update_of_ne (Finset.ne_of_mem_erase hj)]
  rw [total, total, ← Finset.add_sum_erase _ _ (Finset.mem_univ i),
    ← Finset.add_sum_erase _ (fun j => weight (place j)) (Finset.mem_univ i), hrest,
    Function.update_self]
  ac_rfl

/-- A thread that moves and keeps what it has. -/
theorem total_update_of_eq [DecidableEq ι] [IsRightCancelAdd M] {weight : σ → M}
    {place : ι → σ} {i : ι} {c : σ} (h : weight c = weight (place i)) :
  total weight (Function.update place i c) = total weight place
  := by
  have hupdate := total_update weight place i c
  rw [h] at hupdate
  apply add_right_cancel hupdate

/-- What the threads have of two things. -/
theorem total_add (weight weight' : σ → M) (place : ι → σ) :
  total (fun c => weight c + weight' c) place = total weight place + total weight' place
  := Finset.sum_add_distrib

/-- A homomorphism may be applied to what each of the threads has. -/
theorem map_total {N : Type*} [AddCommMonoid N] (f : M →+ N) (weight : σ → M) (place : ι → σ) :
  f (total weight place) = total (fun c => f (weight c)) place
  := map_sum f _ _

section Order

variable [PartialOrder M] [CanonicallyOrderedAdd M]

/-- One thread has no more than all of them. -/
theorem le_total (weight : σ → M) (place : ι → σ) (i : ι) :
  weight (place i) ≤ total weight place
  := Finset.single_le_sum_of_canonicallyOrdered (f := fun j => weight (place j))
    (Finset.mem_univ i)

/-- Two threads have no more than all of them. -/
theorem add_le_total [DecidableEq ι] (weight : σ → M) (place : ι → σ) {i j : ι} (h : i ≠ j) :
  weight (place i) + weight (place j) ≤ total weight place
  := by
  rw [← Finset.sum_pair (f := fun k => weight (place k)) h]
  apply Finset.sum_le_sum_of_subset (Finset.subset_univ _)

end Order

/-- When every thread has at most one and some thread has nothing, the threads have fewer
than their number. -/
theorem total_lt_card {weight : σ → ℕ} {place : ι → σ} (hle : ∀ i, weight (place i) ≤ 1)
    {i : ι} (hi : weight (place i) = 0) :
  total weight place < Fintype.card ι
  := by
  have hlt : total weight place < ∑ _ : ι, 1 := by
    apply Finset.sum_lt_sum fun j _ => hle j
    exact ⟨i, Finset.mem_univ i, by omega⟩
  simpa using hlt

end Threads
