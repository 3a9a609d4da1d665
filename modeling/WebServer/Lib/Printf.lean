import Mathlib.Data.List.TakeWhile
import WebServer.Lib.CString

/-!
# What `printf` makes of numbers

The bytes of the conversions `%d` and `%0wd`, and what `snprintf` leaves of a text.  Numbers
are told apart by what is printed of them (`padded_injective`), which `atol` reads back
(`atol_padded`), and what is printed has only digits and a sign in it.
-/

namespace Printf

open CString

/-- The decimal digits of a number. -/
def digits (n : ℕ) : List UInt8 :=
  (Nat.toDigits 10 n).map fun c => c.toNat.toUInt8

/-- The conversion `%0wd`: zeros make up for what is missing to `w` bytes. -/
def padded (w : ℕ) (n : ℤ) : List UInt8 :=
  let ds := digits n.natAbs
  if n < 0 then
    45 :: (List.replicate (w - 1 - ds.length) 48 ++ ds)
  else
    List.replicate (w - ds.length) 48 ++ ds

/-- The conversion `%d`. -/
def decimal (n : ℤ) : List UInt8 := padded 0 n

/-- The string that `snprintf` leaves in a buffer of `size` bytes. -/
def snprintf (size : ℕ) (text : List UInt8) : List UInt8 := text.take (size - 1)

theorem snprintf_of_lt {size : ℕ} {text : List UInt8} (h : text.length < size) :
  snprintf size text = text
  := List.take_of_length_le (Nat.le_sub_one_of_lt h)

/-! ### Digits -/

/-- The byte of a digit stands for the digit. -/
theorem toUInt8_isDigit {c : Char} (h : c.isDigit = true) :
  c.toNat.toUInt8.toNat = c.toNat ∧ isDigit c.toNat.toUInt8 = true
  := by
  rw [Char.isDigit, Bool.and_eq_true, decide_eq_true_eq, decide_eq_true_eq] at h
  have hge : 48 ≤ c.toNat := h.1
  have hle : c.toNat ≤ 57 := h.2
  have hbyte : c.toNat.toUInt8.toNat = c.toNat := by
    rw [Nat.toUInt8, UInt8.toNat_ofNat']
    omega
  refine ⟨hbyte, ?_⟩
  rw [isDigit, Bool.and_eq_true, decide_eq_true_eq, decide_eq_true_eq, UInt8.le_iff_toNat_le,
    UInt8.le_iff_toNat_le, hbyte]
  exact ⟨hge, hle⟩

theorem isDigit_of_mem_digits {n : ℕ} {b : UInt8} (h : b ∈ digits n) :
  isDigit b = true
  := by
  obtain ⟨c, hc, rfl⟩ := List.mem_map.mp h
  apply (toUInt8_isDigit (Nat.isDigit_of_mem_toDigits (by decide) (by decide) hc)).2

theorem length_digits_le {n k : ℕ} (hk : 0 < k) (h : n < 10 ^ k) :
  (digits n).length ≤ k
  := by
  rw [digits, List.length_map]
  apply (Nat.length_toDigits_le_iff (by decide) hk).mpr h

theorem length_digits_pos (n : ℕ) :
  0 < (digits n).length
  := by
  rw [digits, List.length_map]
  apply Nat.length_toDigits_pos

/-- The value of the bytes of digits is the value of the digits. -/
theorem digitsValue_map {l : List Char} (h : ∀ c ∈ l, c.isDigit = true) :
  digitsValue (l.map fun c => c.toNat.toUInt8) = Nat.ofDigitChars 10 l 0
  := by
  rw [digitsValue, List.foldl_map, Nat.ofDigitChars]
  apply List.foldl_ext
  intro n c hc
  rw [(toUInt8_isDigit (h c hc)).1]
  rfl

theorem digitsValue_digits (n : ℕ) :
  digitsValue (digits n) = n
  := by
  rw [digits, digitsValue_map, Nat.ofDigitChars_ten_toDigits]
  intro c hc
  apply Nat.isDigit_of_mem_toDigits (by decide) (by decide) hc

/-- Zeros in front do not change a number. -/
theorem digitsValue_zeros (k : ℕ) (l : List UInt8) :
  digitsValue (List.replicate k 48 ++ l) = digitsValue l
  := by
  induction k with
  | zero => rfl
  | succ k ih => exact ih

/-! ### Padded numbers -/

/-- What is printed of a number are digits, but for a sign. -/
theorem mem_padded {w : ℕ} {n : ℤ} {b : UInt8} (h : b ∈ padded w n) :
  b = 45 ∨ isDigit b = true
  := by
  have hdigits : ∀ k, b ∈ List.replicate k 48 ++ digits n.natAbs → isDigit b = true := by
    intro k hb
    rcases List.mem_append.mp hb with hb | hb
    · rw [List.eq_of_mem_replicate hb]
      rfl
    · apply isDigit_of_mem_digits hb
  rw [padded] at h
  split at h
  next =>
    rcases List.mem_cons.mp h with hb | hb
    · apply Or.inl hb
    · apply Or.inr (hdigits _ hb)
  next => exact Or.inr (hdigits _ h)

/-- Numbers are told apart by what is printed of them. -/
theorem padded_injective (w : ℕ) :
  Function.Injective (padded w)
  := by
  have hhead : ∀ (k : ℕ) (n : ℤ) (l : List UInt8),
      45 :: l ≠ List.replicate k 48 ++ digits n.natAbs := by
    intro k n l h
    have hmem : (45 : UInt8) ∈ List.replicate k 48 ++ digits n.natAbs := h ▸ List.mem_cons_self
    rcases List.mem_append.mp hmem with hb | hb
    · apply absurd (List.eq_of_mem_replicate hb) (by decide)
    · apply absurd (isDigit_of_mem_digits hb) (by decide)
  intro n n' h
  rw [padded, padded] at h
  split at h
  next hneg =>
    split at h
    next hneg' =>
      have hvalue := congrArg digitsValue (List.cons.inj h).2
      rw [digitsValue_zeros, digitsValue_zeros, digitsValue_digits, digitsValue_digits] at hvalue
      omega
    next => exact absurd h (hhead _ _ _)
  next hpos =>
    split at h
    next => exact absurd h.symm (hhead _ _ _)
    next hpos' =>
      have hvalue := congrArg digitsValue h
      rw [digitsValue_zeros, digitsValue_zeros, digitsValue_digits, digitsValue_digits] at hvalue
      omega

theorem length_padded {w : ℕ} {n : ℤ} (hw : 0 < w) (hn : 0 ≤ n) (h : n < 10 ^ w) :
  (padded w n).length = w
  := by
  have hdigits := length_digits_le (n := n.natAbs) hw (by zify; rwa [abs_of_nonneg hn])
  rw [padded, if_neg (not_lt.mpr hn), List.length_append, List.length_replicate]
  omega

theorem length_padded_neg {w : ℕ} {n : ℤ} (hw : 0 < w) (hn : n < 0) (h : -n < 10 ^ w) :
  (padded (w + 1) n).length = w + 1
  := by
  have hdigits := length_digits_le (n := n.natAbs) hw (by zify; rwa [abs_of_neg hn])
  rw [padded, if_pos hn, List.length_cons, List.length_append, List.length_replicate]
  omega

/-- What `atol` makes of digits. -/
theorem atol_digits {k n : ℕ} (h : n < 2 ^ 63) :
  atol (List.replicate k 48 ++ digits n) = n ∧
    atol (45 :: (List.replicate k 48 ++ digits n)) = -n
  := by
  have hdigit : ∀ b ∈ List.replicate k 48 ++ digits n, isDigit b = true := by
    intro b hb
    rcases List.mem_append.mp hb with hb | hb
    · rw [List.eq_of_mem_replicate hb]
      rfl
    · apply isDigit_of_mem_digits hb
  have hvalue := (digitsValue_zeros k (digits n)).trans (digitsValue_digits n)
  have hne : List.replicate k 48 ++ digits n ≠ [] := by
    apply List.append_ne_nil_of_right_ne_nil
    apply List.ne_nil_of_length_pos (length_digits_pos n)
  revert hdigit hvalue hne
  cases List.replicate k 48 ++ digits n with
  | nil =>
      intro _ _ hne
      cases hne rfl
  | cons b l =>
      intro hdigit hvalue _
      have htake := List.takeWhile_eq_self_iff.mpr hdigit
      have hb := hdigit b List.mem_cons_self
      have hspace : isSpace b = false := by
        have hge : 48 ≤ b := of_decide_eq_true (Bool.and_eq_true_iff.mp hb).1
        rw [isSpace, Bool.or_eq_false_iff, beq_eq_false_iff_ne, Bool.and_eq_false_iff,
          decide_eq_false_iff_not, decide_eq_false_iff_not]
        refine ⟨?_, .inr fun hle => ?_⟩
        · rintro rfl
          exact absurd hge (by decide)
        · exact absurd (UInt8.le_trans hge hle) (by decide)
      constructor
      · rw [atol, List.dropWhile_cons_of_neg (by rw [hspace]; decide)]
        split
        · next hsign =>
            cases hsign
            exact absurd hb (by decide)
        · next hsign =>
            cases hsign
            exact absurd hb (by decide)
        · rw [htake, hvalue, clampLong]
          omega
      · change clampLong (-(digitsValue ((b :: l).takeWhile isDigit) : ℤ)) = _
        rw [htake, hvalue, clampLong]
        omega

/-- What is printed of a number is read back by `atol`. -/
theorem atol_padded {w : ℕ} {n : ℤ} (hneg : -2 ^ 63 < n) (hpos : n < 2 ^ 63) :
  atol (padded w n) = n
  := by
  rw [padded]
  split
  · rw [(atol_digits (by omega)).2]
    omega
  · rw [(atol_digits (by omega)).1]
    omega

/-- An `int` takes at most eleven bytes. -/
theorem length_decimal_le {n : ℤ} (hneg : -2 ^ 31 ≤ n) (hpos : n < 2 ^ 31) :
  (decimal n).length ≤ 11
  := by
  have hdigits := length_digits_le (n := n.natAbs) (k := 10) (by decide) (by omega)
  rw [decimal, padded]
  split
  · rw [List.length_cons, List.length_append, List.length_replicate]
    omega
  · rw [List.length_append, List.length_replicate]
    omega

/-! ### Texts with a separator -/

/-- Two texts that go on behind a separator are the same up to it and behind it. -/
theorem append_cons_inj {a : UInt8} {u v x y : List UInt8} (hu : a ∉ u) (hv : a ∉ v)
    (h : u ++ a :: x = v ++ a :: y) :
  u = v ∧ x = y
  := by
  induction u generalizing v with
  | nil =>
      cases v with
      | nil => exact ⟨rfl, (List.cons.inj h).2⟩
      | cons b v => exact absurd ((List.cons.inj h).1 ▸ List.mem_cons_self) hv
  | cons b u ih =>
      cases v with
      | nil => exact absurd ((List.cons.inj h).1 ▸ List.mem_cons_self) hu
      | cons c v =>
          obtain ⟨rfl, hrest⟩ := List.cons.inj h
          obtain ⟨rfl, rfl⟩ := ih (fun hm => hu (List.mem_cons_of_mem _ hm))
            (fun hm => hv (List.mem_cons_of_mem _ hm)) hrest
          exact ⟨rfl, rfl⟩

/-- The same for the last separator of the texts. -/
theorem append_cons_inj_last {a : UInt8} {u v x y : List UInt8} (hx : a ∉ x) (hy : a ∉ y)
    (h : u ++ a :: x = v ++ a :: y) :
  u = v ∧ x = y
  := by
  have hreverse := congrArg List.reverse h
  rw [List.reverse_append, List.reverse_append, List.reverse_cons, List.reverse_cons,
    List.append_assoc, List.append_assoc] at hreverse
  obtain ⟨hxy, huv⟩ := append_cons_inj (mt List.mem_reverse.mp hx) (mt List.mem_reverse.mp hy)
    hreverse
  exact ⟨List.reverse_injective huv, List.reverse_injective hxy⟩

/-- A byte that is no digit and no sign is not in what is printed of a number. -/
theorem not_mem_padded {b : UInt8} (hsign : b ≠ 45) (hdigit : isDigit b = false) (w : ℕ)
    (n : ℤ) :
  b ∉ padded w n
  := by
  intro h
  rcases mem_padded h with h | h
  · apply hsign h
  · rw [hdigit] at h
    cases h

end Printf
