import Mathlib.Tactic

/-!
# Ring buffers

The values of an array of size `n` that lie at `len` places from `start` on, where the
place behind the last is the first.
-/

universe u

namespace Ring

variable {α : Type u} {n : ℕ}

/-- The values at `len` places from `start` on. -/
def window (f : ℕ → α) (n start len : ℕ) : List α :=
  (List.range len).map fun i => f ((start + i) % n)

@[simp]
theorem length_window (f : ℕ → α) (start len : ℕ) :
  (window f n start len).length = len
  := by
  rw [window, List.length_map, List.length_range]

/-- The place to start from may be given up to a turn around the ring. -/
theorem window_mod (f : ℕ → α) (start len : ℕ) :
  window f n (start % n) len = window f n start len
  := by
  simp only [window, Nat.mod_add_mod]

/-- The first value and those behind it. -/
theorem window_succ (f : ℕ → α) (start len : ℕ) :
  window f n start (len + 1) = f (start % n) :: window f n (start + 1) len
  := by
  rw [window, List.range_succ_eq_map, List.map_cons, List.map_map, Nat.add_zero]
  congr 1
  apply List.map_congr_left
  intro i _
  rw [Function.comp_apply, Nat.succ_eq_one_add, Nat.add_assoc]

/-- The last value. -/
theorem getLast?_window (f : ℕ → α) (start len : ℕ) :
  (window f n start (len + 1)).getLast? = some (f ((start + len) % n))
  := by
  rw [window, List.range_succ, List.map_append, List.map_singleton, List.getLast?_concat]

/-- Different places from `start` on are different places in the ring. -/
theorem add_mod_ne {start i len : ℕ} (hi : i < len) (hlen : len < n) :
  (start + i) % n ≠ (start + len) % n
  := by
  intro h
  have hmod : i ≡ len [MOD n] := Nat.ModEq.add_left_cancel' start h
  rw [Nat.ModEq, Nat.mod_eq_of_lt (hi.trans hlen), Nat.mod_eq_of_lt hlen] at hmod
  apply hi.ne hmod

/-- A value written at the free place behind the last. -/
theorem window_update (f : ℕ → α) {start len : ℕ} (hlen : len < n) (x : α) :
  window (Function.update f ((start + len) % n) x) n start (len + 1)
    = window f n start len ++ [x]
  := by
  rw [window, List.range_succ, List.map_append, List.map_singleton, Function.update_self]
  congr 1
  apply List.map_congr_left
  intro i hi
  apply Function.update_of_ne (add_mod_ne (List.mem_range.mp hi) hlen)

end Ring
