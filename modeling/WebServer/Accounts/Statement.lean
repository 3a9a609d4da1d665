import WebServer.Http.DoRequest
import WebServer.Lib.SqlText

/-!
# The statement of a registration

`do_request` puts a name and a password between quotes as they are.  MySQL reads the
statement as two string literals for the name and the password exactly when neither has a
byte that a literal gives another meaning (`readInsert_iff`).
-/

open CString

namespace WebServer

/-- The text of the statement from behind the opening quote of its first literal: what the
two literals denote. -/
def readValues (text : List UInt8) : Option (List UInt8 × List UInt8) := do
  let (name, text) ← Sql.readString text
  let text ← text.dropPrefix? (ascii ", " ++ [Sql.quote])
  let (password, text) ← Sql.readString text
  if text = ascii ")" then some (name, password) else none

/-- Reads a statement `INSERT INTO webdb(name,password) VALUES(L₁, L₂)` with two string
literals, and gives what they denote. -/
def readInsert (text : List UInt8) : Option (List UInt8 × List UInt8) := do
  let text ← text.dropPrefix? (ascii "INSERT INTO webdb(name,password) VALUES(" ++ [Sql.quote])
  readValues text

theorem dropPrefix?_append (l r : List UInt8) :
  (l ++ r).dropPrefix? l = some r
  := List.dropPrefix?_eq_some_iff.mpr ⟨l, rfl, beq_self_eq_true l⟩

theorem append_of_dropPrefix? {l p r : List UInt8} (h : l.dropPrefix? p = some r) :
  l = p ++ r
  := by
  obtain ⟨p', rfl, hp⟩ := List.dropPrefix?_eq_some_iff.mp h
  rw [eq_of_beq hp]

/-- What follows the opening quote of the first literal in the statement that is
assembled. -/
def values (name password : List UInt8) : List UInt8 :=
  name ++ Sql.quote :: (ascii ", " ++ [Sql.quote] ++ (password ++ Sql.quote :: ascii ")"))

theorem readInsert_sqlInsert (name password : List UInt8) :
  readInsert (sqlInsert name password) = readValues (values name password)
  := by
  have h₁ : ascii "'" = [Sql.quote] := rfl
  have h₂ : ascii "', '" = Sql.quote :: (ascii ", " ++ [Sql.quote]) := rfl
  have h₃ : ascii "')" = Sql.quote :: ascii ")" := rfl
  have htext : sqlInsert name password
      = ascii "INSERT INTO webdb(name,password) VALUES(" ++ [Sql.quote]
        ++ values name password := by
    rw [sqlInsert, h₁, h₂, h₃, values]
    simp only [List.append_assoc, List.cons_append]
  rw [readInsert, htext, dropPrefix?_append]
  rfl

/-- The values that are read, one literal after the other. -/
theorem readValues_eq_some {text name password : List UInt8} :
  readValues text = some (name, password) ↔
    ∃ t, Sql.readString text = some (name, ascii ", " ++ [Sql.quote] ++ t)
      ∧ Sql.readString t = some (password, ascii ")")
  := by
  constructor
  · intro h
    obtain ⟨⟨n, r⟩, hn, h⟩ := Option.bind_eq_some_iff.mp h
    obtain ⟨t, ht, h⟩ := Option.bind_eq_some_iff.mp h
    obtain ⟨⟨p, r'⟩, hp, h⟩ := Option.bind_eq_some_iff.mp h
    dsimp only at h
    split at h
    next hr' =>
      obtain ⟨rfl, rfl⟩ := Prod.mk.inj (Option.some.inj h)
      refine ⟨t, ?_, ?_⟩
      · rw [hn, append_of_dropPrefix? ht]
      · rw [hp, hr']
    next => cases h
  · rintro ⟨t, hn, hp⟩
    rw [readValues, hn]
    change (do
      let text ← (ascii ", " ++ [Sql.quote] ++ t).dropPrefix? (ascii ", " ++ [Sql.quote])
      let (password, text) ← Sql.readString text
      if text = ascii ")" then some (name, password) else none) = _
    rw [dropPrefix?_append]
    change (do
      let (password, text) ← Sql.readString t
      if text = ascii ")" then some (name, password) else none) = _
    rw [hp]
    rfl

/-- MySQL reads the statement that is assembled for a name and a password as that name and
that password exactly when both are made of bytes other than quotes and backslashes and of
the sequences of a backslash and `%` or `_`. -/
theorem readInsert_iff (name password : List UInt8) :
  readInsert (sqlInsert name password) = some (name, password) ↔
    Sql.Verbatim name ∧ Sql.Verbatim password
  := by
  rw [readInsert_sqlInsert, readValues_eq_some]
  constructor
  · rintro ⟨t, hn, hp⟩
    -- neither literal is longer than what it denotes, since the statement is not
    obtain ⟨hnle, hneq⟩ := Sql.readString_length hn
    obtain ⟨hple, hpeq⟩ := Sql.readString_length hp
    have hvalues : (values name password).length = name.length + password.length + 6 := by
      simp [values, ascii]
      omega
    have hsep : (ascii ", " ++ [Sql.quote] ++ t).length = t.length + 3 := by
      simp [ascii]
    have hend : (ascii ")").length = 1 := rfl
    rw [hvalues, hsep] at hnle hneq
    rw [hend] at hple hpeq
    obtain ⟨htext, hname⟩ := hneq (by omega)
    exact ⟨hname, (hpeq (by omega)).2⟩
  · rintro ⟨hname, hpassword⟩
    refine ⟨password ++ Sql.quote :: ascii ")", ?_, ?_⟩
    · apply hname.readString
      change some (44 : UInt8) ≠ some Sql.quote
      decide
    · apply hpassword.readString (by decide)

/-- A name with a quote in it makes a statement of another form. -/
theorem not_readInsert :
  ¬ ∀ name password : List UInt8, 0 ∉ name → 38 ∉ name → 0 ∉ password →
    name.length ≤ 99 → password.length ≤ 99 → name.length + password.length ≤ 152 →
    readInsert (sqlInsert name password) = some (name, password)
  := by
  intro h
  have hread := h (ascii "O'Brien") (ascii "secret") (by decide) (by decide) (by decide)
    (by decide) (by decide) (by decide)
  revert hread
  decide +kernel

end WebServer
