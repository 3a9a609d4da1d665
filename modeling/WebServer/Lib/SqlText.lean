import Mathlib.Tactic

/-!
# String literals of SQL

How MySQL reads a string literal between single quotes, in its default mode: a doubled
quote is a quote, a backslash begins an escape sequence, and a single quote ends the
literal.  An escape sequence is never shorter than what it denotes, so a literal denotes
its own bytes only if there is nothing in it to decode (`readString_eq_some`).
-/

namespace Sql

/-- `'`. -/
def quote : UInt8 := 39

/-- `\`. -/
def backslash : UInt8 := 92

/-- What a backslash and the byte behind it denote.  The two sequences for patterns stay
as they are. -/
def unescape (b : UInt8) : List UInt8 :=
  if b = 48 then [0]
  else if b = 98 then [8]
  else if b = 110 then [10]
  else if b = 114 then [13]
  else if b = 116 then [9]
  else if b = 90 then [26]
  else if b = 37 ∨ b = 95 then [backslash, b]
  else [b]

/-- Reads a string literal from behind its opening quote: what it denotes, and the text
behind its closing quote. -/
def readString : List UInt8 → Option (List UInt8 × List UInt8)
  | [] => none
  | [b] => if b = quote then some ([], []) else none
  | b :: c :: l =>
    if b = quote then
      if c = quote then (readString l).map fun (v, r) => (quote :: v, r) else some ([], c :: l)
    else if b = backslash then
      (readString l).map fun (v, r) => (unescape c ++ v, r)
    else
      (readString (c :: l)).map fun (v, r) => (b :: v, r)

/-- There is nothing to decode in the bytes: they are made of bytes that are neither a
quote nor a backslash, and of the escape sequences for patterns. -/
inductive Verbatim : List UInt8 → Prop where
  | nil : Verbatim []
  | plain {b : UInt8} {v : List UInt8} (hquote : b ≠ quote) (hbackslash : b ≠ backslash)
      (hv : Verbatim v) : Verbatim (b :: v)
  | pattern {b : UInt8} {v : List UInt8} (hb : b = 37 ∨ b = 95) (hv : Verbatim v) :
      Verbatim (backslash :: b :: v)

/-! ### Escape sequences -/

theorem unescape_pattern {b : UInt8} (hb : b = 37 ∨ b = 95) :
  unescape b = [backslash, b]
  := by
  rcases hb with rfl | rfl
  · rfl
  · rfl

/-- The escape sequences that are as long as what they denote are those for patterns. -/
theorem unescape_cases (b : UInt8) :
  (unescape b).length = 1 ∨ b = 37 ∨ b = 95
  := by
  rw [unescape]
  split_ifs with h₁ h₂ h₃ h₄ h₅ h₆ h₇
  · exact .inl rfl
  · exact .inl rfl
  · exact .inl rfl
  · exact .inl rfl
  · exact .inl rfl
  · exact .inl rfl
  · exact .inr h₇
  · exact .inl rfl

/-! ### Reading byte by byte -/

theorem readString_quote {r : List UInt8} (hr : r.head? ≠ some quote) :
  readString (quote :: r) = some ([], r)
  := by
  cases r with
  | nil => rfl
  | cons c r =>
      have hc : c ≠ quote := fun hc => hr (congrArg some hc)
      rw [readString, if_pos rfl, if_neg hc]

theorem readString_plain {b : UInt8} (hquote : b ≠ quote) (hbackslash : b ≠ backslash)
    (t : List UInt8) :
  readString (b :: t) = (readString t).map fun (v, r) => (b :: v, r)
  := by
  cases t with
  | nil => exact if_neg hquote
  | cons c t => rw [readString, if_neg hquote, if_neg hbackslash]

theorem readString_escape (c : UInt8) (t : List UInt8) :
  readString (backslash :: c :: t) = (readString t).map fun (v, r) => (unescape c ++ v, r)
  := by
  rw [readString, if_neg (by decide), if_pos rfl]

/-- A literal with nothing to decode denotes its own bytes. -/
theorem Verbatim.readString {v r : List UInt8} (h : Verbatim v) (hr : r.head? ≠ some quote) :
  readString (v ++ quote :: r) = some (v, r)
  := by
  induction h with
  | nil => exact readString_quote hr
  | plain hquote hbackslash _ ih =>
      rw [List.cons_append, readString_plain hquote hbackslash, ih]
      rfl
  | pattern hb _ ih =>
      rw [List.cons_append, List.cons_append, readString_escape, ih, unescape_pattern hb]
      rfl

/-- A literal is no shorter than what it denotes, and when it is as long, it has nothing
to decode in it. -/
theorem readString_length {t v r : List UInt8} (h : readString t = some (v, r)) :
  v.length + 1 + r.length ≤ t.length
    ∧ (v.length + 1 + r.length = t.length → t = v ++ quote :: r ∧ Verbatim v)
  := by
  induction t using Sql.readString.induct generalizing v r with
  | case1 => cases h
  | case2 =>
      cases h
      exact ⟨Nat.le_refl 1, fun _ => ⟨rfl, .nil⟩⟩
  | case3 b hb =>
      rw [readString, if_neg hb] at h
      cases h
  | case4 l ih =>
      rw [readString, if_pos rfl, if_pos rfl] at h
      obtain ⟨⟨w, r'⟩, hw, h⟩ := Option.map_eq_some_iff.mp h
      cases h
      -- the doubled quote is longer than what it denotes
      have hlen := (ih hw).1
      simp only [List.length_cons]
      exact ⟨by omega, by omega⟩
  | case5 c l hc =>
      rw [readString, if_pos rfl, if_neg hc] at h
      cases h
      refine ⟨?_, fun _ => ⟨rfl, .nil⟩⟩
      simp only [List.length_nil, List.length_cons]
      omega
  | case6 c l _ ih =>
      rw [readString_escape] at h
      obtain ⟨⟨w, r'⟩, hw, h⟩ := Option.map_eq_some_iff.mp h
      cases h
      obtain ⟨hle, heq⟩ := ih hw
      simp only [List.length_append, List.length_cons]
      rcases unescape_cases c with hone | hc
      · exact ⟨by omega, by omega⟩
      · rw [unescape_pattern hc]
        simp only [List.length_cons, List.length_nil]
        refine ⟨by omega, ?_⟩
        intro hlen
        obtain ⟨rfl, hv⟩ := heq (by omega)
        exact ⟨rfl, .pattern hc hv⟩
  | case7 b c l hquote hbackslash ih =>
      rw [readString_plain hquote hbackslash] at h
      obtain ⟨⟨w, r'⟩, hw, h⟩ := Option.map_eq_some_iff.mp h
      cases h
      obtain ⟨hle, heq⟩ := ih hw
      simp only [List.length_cons] at hle heq ⊢
      refine ⟨by omega, ?_⟩
      intro hlen
      obtain ⟨ht, hv⟩ := heq (by omega)
      exact ⟨by rw [ht, List.cons_append], .plain hquote hbackslash hv⟩

end Sql
