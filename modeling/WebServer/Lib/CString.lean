import Mathlib.Tactic

/-!
# C strings in memory

A memory is a function from addresses to bytes.  A C string starts at an address and
ends before the first NUL byte; `stringAt` reads it, never past the end `limit` of the
object it lies in.  The functions of `string.h` and `stdlib.h` that only read are given
on the bytes of the strings they are passed.

What lies before the first NUL determines a string: `stringAt_congr` says so for two
memories, and `stringAt_spells` computes the string that memory spells out.
-/

namespace CString

/-- A memory holds a byte at every address. -/
abbrev Memory : Type := ℕ → UInt8

/-- The bytes of a string of ASCII characters. -/
def ascii (s : String) : List UInt8 :=
  s.toList.map fun c => c.toNat.toUInt8

/-! ### Writing -/

/-- The memory `m` with the bytes `l` written from the address `p` on. -/
def writeAt (m : Memory) (p : ℕ) (l : List UInt8) : Memory :=
  fun i => if p ≤ i then (l[i - p]?).getD (m i) else m i

theorem writeAt_of_lt (m : Memory) {p i : ℕ} (l : List UInt8) (h : i < p) :
  writeAt m p l i = m i
  := if_neg (Nat.not_le.mpr h)

theorem writeAt_of_ge (m : Memory) {p i : ℕ} (l : List UInt8) (h : p + l.length ≤ i) :
  writeAt m p l i = m i
  := by
  rw [writeAt, if_pos (by omega), List.getElem?_eq_none (by omega)]
  rfl

theorem writeAt_add (m : Memory) (p : ℕ) {l : List UInt8} {i : ℕ} (h : i < l.length) :
  writeAt m p l (p + i) = l[i]
  := by
  rw [writeAt, if_pos (by omega), Nat.add_sub_cancel_left, List.getElem?_eq_getElem h]
  rfl

@[simp]
theorem writeAt_nil (m : Memory) (p : ℕ) :
  writeAt m p [] = m
  := by
  funext i
  simp [writeAt]

/-- Writing two lists of bytes one behind the other writes their concatenation. -/
theorem writeAt_append (m : Memory) (p : ℕ) (l₁ l₂ : List UInt8) :
  writeAt (writeAt m p l₁) (p + l₁.length) l₂ = writeAt m p (l₁ ++ l₂)
  := by
  funext i
  by_cases h : i < p + l₁.length
  · rw [writeAt_of_lt _ _ h]
    by_cases hp : p ≤ i
    · rw [writeAt, writeAt, if_pos hp, if_pos hp, List.getElem?_append_left (by omega)]
    · rw [writeAt_of_lt _ _ (by omega), writeAt_of_lt _ _ (by omega)]
  · rw [writeAt, if_pos (by omega), writeAt_of_ge _ _ (by omega)]
    rw [writeAt, if_pos (by omega), List.getElem?_append_right (by omega), Nat.sub_sub]

/-- The bytes from the beginning to what was written, and on to within it. -/
theorem map_range_writeAt (m : Memory) (p : ℕ) (l₁ l₂ : List UInt8) :
  (List.range (p + l₁.length)).map (writeAt m p (l₁ ++ l₂)) = (List.range p).map m ++ l₁
  := by
  rw [List.range_add, List.map_append, List.map_map]
  congr 1
  · apply List.map_congr_left
    intro i hi
    apply writeAt_of_lt _ _ (List.mem_range.mp hi)
  · apply List.ext_getElem
    · rw [List.length_map, List.length_range]
    · intro i hi hi'
      rw [List.getElem_map, List.getElem_range, Function.comp_apply,
        writeAt_add _ _ (by rw [List.length_append]; omega), List.getElem_append_left hi']

/-- What is written over bytes replaces them, if it is as long. -/
theorem writeAt_over (m : Memory) (p : ℕ) {l₁ l₂ : List UInt8} (h : l₁.length ≤ l₂.length) :
  writeAt (writeAt m p l₁) p l₂ = writeAt m p l₂
  := by
  funext i
  by_cases hp : p ≤ i
  · rcases Nat.lt_or_ge (i - p) l₂.length with hlt | hge
    · simp only [writeAt, if_pos hp, List.getElem?_eq_getElem hlt, Option.getD_some]
    · rw [writeAt_of_ge _ _ (by omega), writeAt_of_ge _ _ (by omega),
        writeAt_of_ge _ _ (by omega)]
  · rw [writeAt_of_lt _ _ (by omega), writeAt_of_lt _ _ (by omega),
      writeAt_of_lt _ _ (by omega)]

/-- The same for bytes behind others that stay. -/
theorem writeAt_append_over (m : Memory) (p : ℕ) (l : List UInt8) {l₁ l₂ : List UInt8}
    (h : l₁.length ≤ l₂.length) :
  writeAt (writeAt m p (l ++ l₁)) (p + l.length) l₂ = writeAt m p (l ++ l₂)
  := by
  rw [← writeAt_append, writeAt_over _ _ h, writeAt_append]

/-- A byte written below `p` and bytes written from `p` on do not interfere. -/
theorem update_writeAt (m : Memory) {p i : ℕ} (l : List UInt8) (b : UInt8) (h : i < p) :
  Function.update (writeAt m p l) i b = writeAt (Function.update m i b) p l
  := by
  funext j
  by_cases hj : j = i
  · subst hj
    rw [Function.update_self, writeAt_of_lt _ _ h, Function.update_self]
  · rw [Function.update_of_ne hj]
    simp only [writeAt, Function.update_of_ne hj]

/-! ### What memory spells -/

/-- The memory `m` holds the bytes `l` from the address `p` on. -/
def Spells (m : Memory) : ℕ → List UInt8 → Prop
  | _, [] => True
  | p, b :: l => m p = b ∧ Spells m (p + 1) l

@[simp]
theorem spells_nil (m : Memory) (p : ℕ) :
  Spells m p []
  := trivial

@[simp]
theorem spells_cons (m : Memory) (p : ℕ) (b : UInt8) (l : List UInt8) :
  Spells m p (b :: l) ↔ m p = b ∧ Spells m (p + 1) l
  := Iff.rfl

theorem spells_append (m : Memory) (p : ℕ) (l₁ l₂ : List UInt8) :
  Spells m p (l₁ ++ l₂) ↔ Spells m p l₁ ∧ Spells m (p + l₁.length) l₂
  := by
  induction l₁ generalizing p with
  | nil => simp
  | cons b l ih =>
      rw [List.cons_append, spells_cons, spells_cons, ih, List.length_cons, and_assoc]
      rw [show p + 1 + l.length = p + (l.length + 1) by omega]

theorem Spells.congr
    {m m' : Memory} {p : ℕ} {l : List UInt8} (h : Spells m p l)
    (hm : ∀ i, p ≤ i → i < p + l.length → m' i = m i) :
  Spells m' p l
  := by
  induction l generalizing p with
  | nil => trivial
  | cons b l ih =>
      rw [List.length_cons] at hm
      constructor
      · rw [hm p (by omega) (by omega)]
        apply h.1
      · apply ih h.2
        intro i hi hi'
        apply hm i (by omega) (by omega)

theorem Spells.getElem
    {m : Memory} {p : ℕ} {l : List UInt8} (h : Spells m p l) {i : ℕ} (hi : i < l.length) :
  m (p + i) = l[i]
  := by
  induction l generalizing p i with
  | nil => simp at hi
  | cons b l ih =>
      cases i with
      | zero => apply h.1
      | succ i =>
          rw [show p + (i + 1) = p + 1 + i by omega, List.getElem_cons_succ]
          apply ih h.2

theorem spells_of_getElem
    {m : Memory} {p : ℕ} {l : List UInt8} (h : ∀ i (hi : i < l.length), m (p + i) = l[i]) :
  Spells m p l
  := by
  induction l generalizing p with
  | nil => trivial
  | cons b l ih =>
      constructor
      · apply h 0 (by simp)
      · apply ih
        intro i hi
        rw [show p + 1 + i = p + (i + 1) by omega]
        apply h (i + 1) (by simpa using hi)

theorem spells_writeAt (m : Memory) (p : ℕ) (l : List UInt8) :
  Spells (writeAt m p l) p l
  := spells_of_getElem fun _ hi => writeAt_add m p hi

/-- The `n` bytes from the address `p` on. -/
def bytes (m : Memory) (p n : ℕ) : List UInt8 := (List.range' p n).map m

@[simp]
theorem length_bytes (m : Memory) (p n : ℕ) :
  (bytes m p n).length = n
  := by
  rw [bytes, List.length_map, List.length_range']

theorem bytes_succ (m : Memory) (p n : ℕ) :
  bytes m p (n + 1) = m p :: bytes m (p + 1) n
  := rfl

theorem bytes_add (m : Memory) (p n k : ℕ) :
  bytes m p (n + k) = bytes m p n ++ bytes m (p + n) k
  := by
  rw [bytes, bytes, bytes, ← List.map_append, List.range'_append_1]

theorem spells_bytes (m : Memory) (p n : ℕ) :
  Spells m p (bytes m p n)
  := by
  induction n generalizing p with
  | zero => trivial
  | succ n ih => exact ⟨rfl, ih (p + 1)⟩

theorem Spells.eq_bytes {m : Memory} {p : ℕ} {l : List UInt8} (h : Spells m p l) :
  l = bytes m p l.length
  := by
  induction l generalizing p with
  | nil => rfl
  | cons b l ih => rw [List.length_cons, bytes_succ, h.1, ← ih h.2]

theorem bytes_congr {m m' : Memory} {p n : ℕ} (h : ∀ i, p ≤ i → i < p + n → m' i = m i) :
  bytes m' p n = bytes m p n
  := by
  apply List.map_congr_left
  intro i hi
  rw [List.mem_range'_1] at hi
  apply h i hi.1 hi.2

/-! ### Strings -/

/-- The bytes from `p` on up to the first NUL, at most `n` of them. -/
def scan (m : Memory) : (n : ℕ) → (p : ℕ) → List UInt8
  | 0, _ => []
  | n + 1, p => if m p = 0 then [] else m p :: scan m n (p + 1)

/-- The string that starts at `p` in an object which ends at `limit`. -/
def stringAt (m : Memory) (limit p : ℕ) : List UInt8 :=
  scan m (limit - p) p

theorem scan_congr
    {m m' : Memory} {n p q : ℕ} (hp : p ≤ q) (hn : q < p + n) (hq : m q = 0)
    (h : ∀ i, p ≤ i → i ≤ q → m' i = m i) :
  scan m' n p = scan m n p
  := by
  induction n generalizing p with
  | zero => rfl
  | succ n ih =>
      rw [scan, scan, h p le_rfl hp]
      split
      · rfl
      · next hmp =>
          have hpq : p ≠ q := by
            rintro rfl
            apply hmp hq
          rw [ih (by omega) (by omega)]
          intro i hi hi'
          apply h i (by omega) hi'

/-- Two memories with the same bytes from `p` to a NUL hold the same string at `p`. -/
theorem stringAt_congr
    {m m' : Memory} {limit p q : ℕ} (hp : p ≤ q) (hlimit : q < limit) (hq : m q = 0)
    (h : ∀ i, p ≤ i → i ≤ q → m' i = m i) :
  stringAt m' limit p = stringAt m limit p
  := scan_congr hp (by omega) hq h

/-- The string at `p` is what memory spells from `p` to the first NUL. -/
theorem stringAt_spells
    {m : Memory} {limit p : ℕ} {l : List UInt8} (h : Spells m p l)
    (hnul : m (p + l.length) = 0) (hl : 0 ∉ l) (hlimit : p + l.length < limit) :
  stringAt m limit p = l
  := by
  have key : ∀ (n p : ℕ), Spells m p l → m (p + l.length) = 0 → l.length < n →
      scan m n p = l := by
    clear h hnul hlimit
    induction l with
    | nil =>
        intro n p _ hnul hn
        cases n with
        | zero => rfl
        | succ n => rw [scan, if_pos (by simpa using hnul)]
    | cons b l ih =>
        intro n p h hnul hn
        rw [List.mem_cons, not_or] at hl
        cases n with
        | zero => simp at hn
        | succ n =>
            have hb : m p ≠ 0 := by
              rw [h.1]
              apply Ne.symm hl.1
            rw [scan, if_neg hb, h.1, ih hl.2 n (p + 1) h.2]
            · rw [← hnul, List.length_cons]
              congr 1
              omega
            · simpa using hn
  apply key _ _ h hnul
  omega

/-- What stands before the first byte `b` begins with bytes that are not `b`. -/
theorem takeWhile_ne_append {b : UInt8} {v : List UInt8} (hv : b ∉ v) (w : List UInt8) :
  (v ++ w).takeWhile (· != b) = v ++ w.takeWhile (· != b)
  := by
  apply List.takeWhile_append_of_pos
  intro a ha
  rw [bne_iff_ne]
  rintro rfl
  apply hv ha

theorem takeWhile_ne_cons {b : UInt8} {v : List UInt8} (hv : b ∉ v) (w : List UInt8) :
  (v ++ b :: w).takeWhile (· != b) = v
  := by
  rw [takeWhile_ne_append hv, List.takeWhile_cons_of_neg (by simp), List.append_nil]

/-- The string at the beginning of bytes with a NUL among them. -/
theorem stringAt_writeAt (m : Memory) {size : ℕ} {l : List UInt8} (hnul : 0 ∈ l)
    (hsize : l.length ≤ size) :
  stringAt (writeAt m 0 l) size 0 = l.takeWhile (· != 0)
  := by
  obtain ⟨v, w, rfl, hv⟩ := List.eq_append_cons_of_mem hnul
  rw [List.length_append, List.length_cons] at hsize
  have hspells := spells_writeAt m 0 (v ++ 0 :: w)
  rw [spells_append, spells_cons] at hspells
  rw [takeWhile_ne_cons hv]
  apply stringAt_spells hspells.1 hspells.2.1 hv
  omega

/-- A string ends at the first NUL: before any NUL behind its start. -/
theorem stringAt_length
    {m : Memory} {limit p q : ℕ} (hp : p ≤ q) (hlimit : q < limit) (hq : m q = 0) :
  p + (stringAt m limit p).length ≤ q
  := by
  have key : ∀ (n p : ℕ), p ≤ q → q < p + n → p + (scan m n p).length ≤ q := by
    intro n
    induction n with
    | zero => intro p hp _; simpa [scan] using hp
    | succ n ih =>
        intro p hp hn
        rw [scan]
        split
        · simpa using hp
        · next hmp =>
            have hpq : p ≠ q := by
              rintro rfl
              apply hmp hq
            have := ih (p + 1) (by omega) (by omega)
            rw [List.length_cons]
            omega
  apply key _ _ hp
  omega

/-- Memory spells the string it holds. -/
theorem spells_stringAt (m : Memory) (limit p : ℕ) :
  Spells m p (stringAt m limit p)
  := by
  have key : ∀ (n p : ℕ), Spells m p (scan m n p) := by
    intro n
    induction n with
    | zero => intro p; trivial
    | succ n ih =>
        intro p
        rw [scan]
        split
        · trivial
        · exact ⟨rfl, ih (p + 1)⟩
  apply key

theorem not_mem_stringAt (m : Memory) (limit p : ℕ) :
  0 ∉ stringAt m limit p
  := by
  have key : ∀ (n p : ℕ), 0 ∉ scan m n p := by
    intro n
    induction n with
    | zero => intro p; exact List.not_mem_nil
    | succ n ih =>
        intro p
        rw [scan]
        split
        · apply List.not_mem_nil
        · next hp =>
            rw [List.mem_cons, not_or]
            exact ⟨Ne.symm hp, ih (p + 1)⟩
  apply key

/-- A NUL ends a string that ends before its object does. -/
theorem stringAt_end {m : Memory} {limit p : ℕ} (h : p + (stringAt m limit p).length < limit) :
  m (p + (stringAt m limit p).length) = 0
  := by
  have key : ∀ (n p : ℕ), (scan m n p).length < n → m (p + (scan m n p).length) = 0 := by
    intro n
    induction n with
    | zero => intro p hp; exact absurd hp (Nat.not_lt_zero _)
    | succ n ih =>
        intro p hp
        rw [scan] at hp ⊢
        split at hp
        · next hnul =>
            rw [if_pos hnul]
            exact hnul
        · next hne =>
            rw [if_neg hne, List.length_cons, Nat.add_comm _ 1, ← Nat.add_assoc]
            rw [List.length_cons] at hp
            apply ih (p + 1) (Nat.lt_of_succ_lt_succ hp)
  apply key
  rw [stringAt] at h
  omega

theorem stringAt_cons {m : Memory} {limit p : ℕ} (hp : p < limit) (hb : m p ≠ 0) :
  stringAt m limit p = m p :: stringAt m limit (p + 1)
  := by
  obtain ⟨n, hn⟩ := Nat.exists_eq_add_of_lt hp
  have hn' : limit - (p + 1) = n := by omega
  rw [stringAt, stringAt, hn', show limit - p = n + 1 by omega, scan, if_neg hb]

/-- What follows the first bytes of a string is the string that starts behind them. -/
theorem stringAt_append {m : Memory} {limit p : ℕ} {v w : List UInt8}
    (h : stringAt m limit p = v ++ w) :
  stringAt m limit (p + v.length) = w
  := by
  have key : ∀ (n p : ℕ), scan m n p = v ++ w → scan m (n - v.length) (p + v.length) = w := by
    clear h
    induction v with
    | nil => intro n p h; exact h
    | cons b v ih =>
        intro n p h
        cases n with
        | zero => cases h
        | succ n =>
            rw [scan] at h
            split at h
            · cases h
            · have hrest := ih n (p + 1) (List.cons.inj h).2
              rw [List.length_cons, Nat.add_sub_add_right, Nat.add_comm v.length 1,
                ← Nat.add_assoc]
              apply hrest
  have hrest := key _ _ h
  rw [Nat.sub_sub] at hrest
  apply hrest

/-- What follows the first bytes of a string is the rest of the string. -/
theorem stringAt_drop {m : Memory} {limit p n : ℕ} (h : n ≤ (stringAt m limit p).length) :
  stringAt m limit (p + n) = (stringAt m limit p).drop n
  := by
  have happ := stringAt_append (List.take_append_drop n (stringAt m limit p)).symm
  rw [List.length_take, Nat.min_eq_left h] at happ
  apply happ

/-! ### The functions of the C library -/

/-- `' '` and `'\t'`. -/
def isBlank (b : UInt8) : Bool := b == 32 || b == 9

/-- `tolower` in the C locale. -/
def toLower (b : UInt8) : UInt8 :=
  if 65 ≤ b ∧ b ≤ 90 then b + 32 else b

/-- `strcasecmp(s, t) == 0`. -/
def eqIgnoreCase (s t : List UInt8) : Bool :=
  s.map toLower == t.map toLower

/-- `strncasecmp(s, t, n) == 0` for a string `t` of length `n`. -/
def hasPrefixIgnoreCase (s t : List UInt8) : Bool :=
  eqIgnoreCase (s.take t.length) t

/-- The address in the string at `p` of the first byte `accept` holds of: `strpbrk` for
the bytes of a set, `strchr` for a single byte. -/
def strpbrk (m : Memory) (limit p : ℕ) (accept : UInt8 → Bool) : Option ℕ :=
  ((stringAt m limit p).findIdx? accept).map (p + ·)

/-- A string has room for the prefix it begins with. -/
theorem length_of_hasPrefixIgnoreCase {s t : List UInt8} (h : hasPrefixIgnoreCase s t = true) :
  t.length ≤ s.length
  := by
  have hlen := congrArg List.length (eq_of_beq h)
  simp only [List.length_map, List.length_take] at hlen
  omega

theorem length_of_eqIgnoreCase {s t : List UInt8} (h : eqIgnoreCase s t = true) :
  s.length = t.length
  := by
  have hlen := congrArg List.length (eq_of_beq h)
  simpa only [List.length_map] using hlen

/-- `strrchr`: the address in the string at `p` of the last byte `b`. -/
def strrchr (m : Memory) (limit p : ℕ) (b : UInt8) : Option ℕ :=
  let s := stringAt m limit p
  (s.reverse.findIdx? (· == b)).map fun i => p + (s.length - 1 - i)

/-- The place of the last byte `b` in a string. -/
def lastIndexOf (s : List UInt8) (b : UInt8) : Option ℕ :=
  (s.reverse.findIdx? (· == b)).map fun i => s.length - 1 - i

theorem lastIndexOf_append {b : UInt8} {w : List UInt8} (hw : b ∉ w) (v : List UInt8) :
  lastIndexOf (v ++ b :: w) b = some v.length
  := by
  have hnone : w.reverse.findIdx? (· == b) = none := by
    rw [List.findIdx?_eq_none_iff]
    intro x hx
    rw [beq_eq_false_iff_ne]
    rintro rfl
    apply hw (List.mem_reverse.mp hx)
  have hlen : (v ++ b :: w).length - 1 - w.length = v.length := by
    rw [List.length_append, List.length_cons]
    omega
  have hfind : (v ++ b :: w).reverse.findIdx? (· == b) = some w.length := by
    rw [List.reverse_append, List.reverse_cons, List.append_assoc, List.findIdx?_append, hnone]
    simp [List.findIdx?_cons]
  rw [lastIndexOf, hfind, Option.map_some, hlen]

theorem lastIndexOf_eq_none {b : UInt8} {s : List UInt8} (h : b ∉ s) :
  lastIndexOf s b = none
  := by
  rw [lastIndexOf, Option.map_eq_none_iff, List.findIdx?_eq_none_iff]
  intro x hx
  rw [beq_eq_false_iff_ne]
  rintro rfl
  apply h (List.mem_reverse.mp hx)

/-- A string with a byte `b` is split at the last one. -/
theorem eq_append_last {b : UInt8} {s : List UInt8} (h : b ∈ s) :
  ∃ v w, s = v ++ b :: w ∧ b ∉ w
  := by
  obtain ⟨w, v, hs, hw⟩ := List.eq_append_cons_of_mem (List.mem_reverse.mpr h)
  refine ⟨v.reverse, w.reverse, ?_, ?_⟩
  · rw [← List.reverse_reverse s, hs, List.reverse_append, List.reverse_cons, List.append_assoc]
    rfl
  · rw [List.mem_reverse]
    exact hw

/-- `strcpy`. -/
def strcpy (m : Memory) (p : ℕ) (s : List UInt8) : Memory := writeAt m p (s ++ [0])

/-- `strncpy`, which pads with NULs what the string leaves of the `n` bytes, and sets no
NUL behind them. -/
def strncpy (m : Memory) (p : ℕ) (s : List UInt8) (n : ℕ) : Memory :=
  writeAt m p (s.take n ++ List.replicate (n - s.length) 0)

/-- What `strrchr` finds lies in the string. -/
theorem strrchr_eq_some {m : Memory} {limit p r : ℕ} {b : UInt8}
    (h : strrchr m limit p b = some r) :
  p ≤ r ∧ stringAt m limit p ≠ []
  := by
  obtain ⟨i, hi, rfl⟩ := Option.map_eq_some_iff.mp h
  refine ⟨Nat.le_add_right _ _, ?_⟩
  intro hnil
  rw [hnil] at hi
  cases hi

theorem strrchr_lt {m : Memory} {limit p r : ℕ} {b : UInt8} (h : strrchr m limit p b = some r) :
  r < p + (stringAt m limit p).length
  := by
  obtain ⟨i, hi, rfl⟩ := Option.map_eq_some_iff.mp h
  obtain ⟨hlt, -⟩ := List.findIdx?_eq_some_iff_getElem.mp hi
  rw [List.length_reverse] at hlt
  omega

/-- `strrchr` finds the last byte `b`. -/
theorem strrchr_append {m : Memory} {limit p : ℕ} {b : UInt8} {v w : List UInt8}
    (h : stringAt m limit p = v ++ b :: w) (hw : b ∉ w) :
  strrchr m limit p b = some (p + v.length)
  := by
  have hlast := lastIndexOf_append hw v
  rw [lastIndexOf, ← h, Option.map_eq_some_iff] at hlast
  obtain ⟨i, hi, hlen⟩ := hlast
  rw [strrchr, hi, Option.map_some, hlen]

theorem strncpy_of_lt {m : Memory} {p i n : ℕ} {s : List UInt8} (h : i < p) :
  strncpy m p s n i = m i
  := writeAt_of_lt _ _ h

theorem strncpy_of_ge {m : Memory} {p i n : ℕ} {s : List UInt8} (h : p + n ≤ i) :
  strncpy m p s n i = m i
  := by
  apply writeAt_of_ge
  rw [List.length_append, List.length_take, List.length_replicate]
  omega

/-- A string copied by `strncpy` behind another string. -/
theorem stringAt_strncpy {m : Memory} {limit n : ℕ} {t s : List UInt8} (ht : Spells m 0 t)
    (ht0 : 0 ∉ t) (hs : 0 ∉ s) (hnul : m (t.length + n) = 0)
    (hlimit : t.length + n < limit) :
  stringAt (strncpy m t.length s n) limit 0 = t ++ s.take n
  := by
  have hlen : (s.take n).length ≤ n := List.length_take_le n s
  have hwritten := spells_writeAt m t.length (s.take n ++ List.replicate (n - s.length) 0)
  rw [spells_append] at hwritten
  apply stringAt_spells
  · rw [spells_append, Nat.zero_add]
    refine ⟨?_, hwritten.1⟩
    apply ht.congr
    intro i _ hi
    apply writeAt_of_lt
    omega
  · rw [Nat.zero_add, List.length_append]
    rcases Nat.lt_or_ge s.length n with hlt | hge
    · -- `strncpy` pads with NULs
      have hpad := hwritten.2.getElem (i := 0) (by rw [List.length_replicate]; omega)
      rw [List.getElem_replicate, Nat.add_zero] at hpad
      exact hpad
    · rw [strncpy, writeAt_of_ge]
      · rw [List.length_take, Nat.min_eq_left hge]
        exact hnul
      · rw [List.length_append, List.length_replicate]
        omega
  · rw [List.mem_append, not_or]
    exact ⟨ht0, fun h => hs (List.mem_of_mem_take h)⟩
  · rw [List.length_append]
    omega

/-- What `strpbrk` finds lies in the string. -/
theorem strpbrk_eq_some
    {m : Memory} {limit p r : ℕ} {accept : UInt8 → Bool}
    (h : strpbrk m limit p accept = some r) :
  p ≤ r ∧ r < p + (stringAt m limit p).length ∧ accept (m r) = true
  := by
  obtain ⟨i, hi, rfl⟩ := Option.map_eq_some_iff.mp h
  obtain ⟨hlt, hacc, -⟩ := List.findIdx?_eq_some_iff_getElem.mp hi
  refine ⟨by omega, by omega, ?_⟩
  rw [(spells_stringAt m limit p).getElem hlt]
  apply hacc

/-- The string at what `strpbrk` finds. -/
theorem stringAt_strpbrk
    {m : Memory} {limit p r : ℕ} {accept : UInt8 → Bool}
    (h : strpbrk m limit p accept = some r) :
  stringAt m limit r = (stringAt m limit p).dropWhile fun b => !accept b
  := by
  obtain ⟨i, hi, rfl⟩ := Option.map_eq_some_iff.mp h
  obtain ⟨hlt, hindex⟩ := List.findIdx?_eq_some_iff_findIdx_eq.mp hi
  have happ := stringAt_append (List.take_append_drop i (stringAt m limit p)).symm
  rw [List.length_take, Nat.min_eq_left (Nat.le_of_lt hlt)] at happ
  rw [happ, List.dropWhile_eq_drop_findIdx_not]
  simp only [Bool.not_not, hindex]

/-- `strpbrk` stops at the first byte that is accepted. -/
theorem strpbrk_append
    {m : Memory} {limit p : ℕ} {accept : UInt8 → Bool} {w l : List UInt8} {b : UInt8}
    (h : stringAt m limit p = w ++ b :: l) (hw : ∀ x ∈ w, accept x = false)
    (hb : accept b = true) :
  strpbrk m limit p accept = some (p + w.length)
  := by
  have hnone : w.findIdx? accept = none := List.findIdx?_eq_none_iff.mpr hw
  rw [strpbrk, h, List.findIdx?_append, hnone, List.findIdx?_cons, hb]
  simp

/-- `strpbrk` finds a byte that is there. -/
theorem strpbrk_of_mem
    {m : Memory} {limit p : ℕ} {accept : UInt8 → Bool} {b : UInt8}
    (h : b ∈ stringAt m limit p) (hb : accept b = true) :
  ∃ r, strpbrk m limit p accept = some r
  := by
  have hany : (stringAt m limit p).any accept = true := List.any_eq_true.mpr ⟨b, h, hb⟩
  rw [← List.findIdx?_isSome] at hany
  obtain ⟨i, hi⟩ := Option.isSome_iff_exists.mp hany
  use p + i
  rw [strpbrk, hi]
  rfl

theorem strpbrk_eq_none
    {m : Memory} {limit p : ℕ} {accept : UInt8 → Bool}
    (h : ∀ b ∈ stringAt m limit p, accept b = false) :
  strpbrk m limit p accept = none
  := by
  rw [strpbrk, List.findIdx?_eq_none_iff.mpr h]
  rfl

/-- `strspn(s, " \t")`. -/
def strspnBlank (s : List UInt8) : ℕ := (s.takeWhile isBlank).length

/-- `isspace` in the C locale. -/
def isSpace (b : UInt8) : Bool := b == 32 || (9 ≤ b && b ≤ 13)

/-- `isdigit`. -/
def isDigit (b : UInt8) : Bool := 48 ≤ b && b ≤ 57

/-- The value of a string of decimal digits. -/
def digitsValue (s : List UInt8) : ℕ :=
  s.foldl (fun n b => 10 * n + (b.toNat - 48)) 0

/-- The `long` nearest to an integer. -/
def clampLong (n : ℤ) : ℤ := max (-2 ^ 63) (min n (2 ^ 63 - 1))

/-- `atol`: leading white space, an optional sign, and the digits that follow; values
out of the range of `long` are clamped to it, as `strtol` does. -/
def atol (s : List UInt8) : ℤ :=
  match s.dropWhile isSpace with
  | 45 :: r => clampLong (-(digitsValue (r.takeWhile isDigit) : ℤ))
  | 43 :: r => clampLong (digitsValue (r.takeWhile isDigit))
  | r => clampLong (digitsValue (r.takeWhile isDigit))

/-- The conversion of an integer to a signed integer of 32 bits. -/
def toInt32 (n : ℤ) : ℤ := Int.bmod n (2 ^ 32)

theorem toInt32_of_lt {n : ℕ} (h : n < 2 ^ 31) :
  toInt32 n = n
  := by
  rw [toInt32]
  apply Int.bmod_eq_of_le
  · omega
  · omega

theorem toInt32_lt (n : ℤ) :
  toInt32 n < 2 ^ 31
  := by
  have h := Int.bmod_lt (x := n) (m := 2 ^ 32) (by decide)
  rw [toInt32]
  omega

end CString
