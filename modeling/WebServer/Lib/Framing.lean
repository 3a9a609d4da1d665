import Mathlib.Tactic

/-!
# Frames

A code whose words are read off the front of a list, whatever follows them: `decode` reads
what `encode` writes, and what it reads does not change when more of the list comes.  So no
word is read before all of it is there (`decode_eq_none`), and who reads the words of a
list that comes bit by bit reads at any time the first of them, each whole and in order
(`decodeAll_received`).

`message` is the code of a message with a head and a body: the head is lines that end with
a mark of two letters, the last of them empty, and says how long the body is.
-/

universe u v

/-- A code with its well-formed words. -/
structure Framing (α : Type u) (β : Type v) where
  encode : α → List β
  decode : List β → Option (α × List β)
  Valid : α → Prop
  decode_encode : ∀ a l, Valid a → decode (encode a ++ l) = some (a, l)
  decode_append : ∀ w a r l, decode w = some (a, r) → decode (w ++ l) = some (a, r ++ l)
  decode_nil : decode [] = none

namespace Framing

variable {α : Type u} {β : Type v} (code : Framing α β)

variable {code} in
theorem encode_ne_nil {a : α} (ha : code.Valid a) :
  code.encode a ≠ []
  := by
  intro hnil
  have hdecode := code.decode_encode a [] ha
  rw [hnil, List.append_nil, code.decode_nil] at hdecode
  cases hdecode

/-- A word is not read before all of it is there. -/
theorem decode_eq_none {a : α} (ha : code.Valid a) {w : List β} (hinitial : w <+: code.encode a)
    (hne : w ≠ code.encode a) :
  code.decode w = none
  := by
  obtain ⟨l, hl⟩ := hinitial
  rw [Option.eq_none_iff_forall_ne_some]
  rintro ⟨b, r⟩ hread
  have hmore := code.decode_append w b r l hread
  have hall := code.decode_encode a [] ha
  rw [List.append_nil, ← hl, hmore] at hall
  obtain ⟨-, hrest⟩ := Prod.mk.inj (Option.some.inj hall)
  apply hne
  rw [← hl, (List.append_eq_nil_iff.mp hrest).2, List.append_nil]

/-- Reads at most `n` words, as long as there is one. -/
def decodeMany : ℕ → List β → List α × List β
  | 0, w => ([], w)
  | n + 1, w =>
    match code.decode w with
    | none => ([], w)
    | some (a, r) => (a :: (decodeMany n r).1, (decodeMany n r).2)

/-- Reads all words that are there, and leaves the rest. -/
def decodeAll (w : List β) : List α × List β := code.decodeMany w.length w

variable {code} in
theorem decodeMany_of_none {w : List β} (h : code.decode w = none) (n : ℕ) :
  code.decodeMany n w = ([], w)
  := by
  cases n with
  | zero => rfl
  | succ n => rw [decodeMany, h]

variable {code} in
theorem decodeMany_encode {a : α} (ha : code.Valid a) (n : ℕ) (l : List β) :
  code.decodeMany (n + 1) (code.encode a ++ l) =
    (a :: (code.decodeMany n l).1, (code.decodeMany n l).2)
  := by
  rw [decodeMany, code.decode_encode a l ha]

/-- The words of a list of which an initial part is there: the first ones are there whole,
and what is left is less than the next one. -/
structure Received (as : List α) (w : List β) (whole : List α) (rest : List β) : Prop where
  initial : whole <+: as
  all : w = whole.flatMap code.encode ++ rest
  less : ∀ a, whole ++ [a] <+: as → rest <+: code.encode a ∧ rest ≠ code.encode a
  last : whole = as → rest = []

/-- Who has an initial part of a list of words reads the first of them, each whole and in
order. -/
theorem decodeMany_received {as : List α} (has : ∀ a ∈ as, code.Valid a) {w : List β}
    (hw : w <+: as.flatMap code.encode) {n : ℕ} (hn : w.length ≤ n) :
  code.Received as w (code.decodeMany n w).1 (code.decodeMany n w).2
  := by
  induction as generalizing w n with
  | nil =>
      have hnil : w = [] := List.prefix_nil.mp hw
      rw [hnil, decodeMany_of_none code.decode_nil]
      refine ⟨List.nil_prefix, rfl, ?_, fun _ => rfl⟩
      intro a ha
      cases List.prefix_nil.mp ha
  | cons a as ih =>
      obtain ⟨ha, has⟩ := List.forall_mem_cons.mp has
      rw [List.flatMap_cons] at hw
      by_cases hwhole : code.encode a <+: w
      · obtain ⟨r, rfl⟩ := hwhole
        have hpos := List.length_pos_of_ne_nil (encode_ne_nil ha)
        rw [List.length_append] at hn
        obtain ⟨n, rfl⟩ : ∃ m, n = m + 1 := ⟨n - 1, by omega⟩
        have hrest := ih has ((List.prefix_append_right_inj _).mp hw) (n := n) (by omega)
        rw [decodeMany_encode ha]
        refine ⟨List.prefix_cons_iff.mpr (.inr ⟨_, rfl, hrest.initial⟩), ?_, ?_, ?_⟩
        · rw [List.flatMap_cons, List.append_assoc, ← hrest.all]
        · intro b hb
          apply hrest.less b
          exact (List.cons_prefix_cons.mp hb).2
        · intro hall
          apply hrest.last (List.cons.inj hall).2
      · have hshort : w <+: code.encode a :=
          (List.prefix_or_prefix_of_prefix hw (List.prefix_append _ _)).resolve_right hwhole
        have hne : w ≠ code.encode a := fun heq => hwhole (heq ▸ List.prefix_rfl)
        rw [decodeMany_of_none (code.decode_eq_none ha hshort hne)]
        refine ⟨List.nil_prefix, rfl, ?_, fun hnil => absurd hnil (List.cons_ne_nil a as).symm⟩
        intro b hb
        obtain rfl : b = a := (List.cons_prefix_cons.mp hb).1
        exact ⟨hshort, hne⟩

theorem decodeAll_received {as : List α} (has : ∀ a ∈ as, code.Valid a) {w : List β}
    (hw : w <+: as.flatMap code.encode) :
  code.Received as w (code.decodeAll w).1 (code.decodeAll w).2
  := code.decodeMany_received has hw le_rfl

/-- A list of words is read as it was written. -/
theorem decodeAll_flatMap {as : List α} (has : ∀ a ∈ as, code.Valid a) :
  code.decodeAll (as.flatMap code.encode) = (as, [])
  := by
  have hreceived := code.decodeAll_received has List.prefix_rfl
  generalize code.decodeAll (as.flatMap code.encode) = r at hreceived ⊢
  obtain ⟨whole, rest⟩ := r
  obtain ⟨as', rfl⟩ := hreceived.initial
  cases as' with
  | nil =>
      have hrest := hreceived.last (List.append_nil whole).symm
      rw [List.append_nil]
      exact Prod.ext rfl hrest
  | cons a as' =>
      -- what is left begins with the whole of the next word
      have hall := hreceived.all
      obtain ⟨hshort, hne⟩ := hreceived.less a ⟨as', by rw [List.append_assoc]; rfl⟩
      rw [List.flatMap_append, List.flatMap_cons, List.append_cancel_left_eq] at hall
      have hlen := hshort.length_le
      have hsum := congrArg List.length hall
      rw [List.length_append] at hsum
      have heq := hshort.eq_of_length_le (by omega)
      exact absurd heq hne

/-! ### Lines -/

section Lines

variable [DecidableEq β] (x y : β)

/-- The line at the front of a list, up to the first mark of the letters `x` and `y`. -/
def takeLine : List β → Option (List β × List β)
  | b :: b' :: l =>
    if b = x ∧ b' = y then some ([], l)
    else (takeLine (b' :: l)).map fun r => (b :: r.1, r.2)
  | _ => none

variable {x y}

theorem takeLine_line {line : List β} (hline : x ∉ line) (l : List β) :
  takeLine x y (line ++ x :: y :: l) = some (line, l)
  := by
  induction line with
  | nil => exact if_pos ⟨rfl, rfl⟩
  | cons b line ih =>
      obtain ⟨hb, hline⟩ := List.ne_and_not_mem_of_not_mem_cons hline
      have hne : ∀ b', ¬ (b = x ∧ b' = y) := fun _ h => hb h.1.symm
      cases line with
      | nil =>
          rw [List.cons_append, List.nil_append, takeLine, if_neg (hne _)]
          exact congrArg (Option.map _) (ih hline)
      | cons b' line =>
          rw [List.cons_append, List.cons_append, takeLine, if_neg (hne _)]
          exact congrArg (Option.map _) (ih hline)

theorem takeLine_append {w line r : List β} (h : takeLine x y w = some (line, r)) (l : List β) :
  takeLine x y (w ++ l) = some (line, r ++ l)
  := by
  induction w using takeLine.induct x y generalizing line with
  | case1 b b' w hmark =>
      rw [takeLine, if_pos hmark] at h
      cases h
      exact if_pos hmark
  | case2 b b' w hmark ih =>
      rw [takeLine, if_neg hmark] at h
      obtain ⟨⟨line', r'⟩, hline, heq⟩ := Option.map_eq_some_iff.mp h
      cases heq
      rw [List.cons_append, List.cons_append, takeLine, if_neg hmark]
      exact congrArg (Option.map _) (ih hline)
  | case3 w hshort =>
      rw [takeLine.eq_2] at h
      · cases h
      · exact hshort

variable (x y)

/-- The lines at the front of a list up to an empty one, at most `n` of them. -/
def takeHead : ℕ → List β → Option (List (List β) × List β)
  | 0, _ => none
  | n + 1, w =>
    (takeLine x y w).bind fun r =>
      if r.1 = [] then some ([], r.2)
      else (takeHead n r.2).map fun s => (r.1 :: s.1, s.2)

/-- Lines with their marks, and the empty line behind them. -/
def putHead (lines : List (List β)) : List β := lines.flatMap (· ++ [x, y]) ++ [x, y]

variable {x y}

theorem takeHead_putHead {lines : List (List β)} (hlines : ∀ line ∈ lines, line ≠ [] ∧ x ∉ line)
    {n : ℕ} (hn : lines.length < n) (l : List β) :
  takeHead x y n (putHead x y lines ++ l) = some (lines, l)
  := by
  induction lines generalizing n with
  | nil =>
      obtain ⟨n, rfl⟩ : ∃ m, n = m + 1 := ⟨n - 1, by omega⟩
      rw [takeHead]
      have hempty := takeLine_line (x := x) (y := y) List.not_mem_nil l
      exact congrArg (Option.bind · _) hempty
  | cons line lines ih =>
      obtain ⟨⟨hne, hline⟩, hlines⟩ := List.forall_mem_cons.mp hlines
      rw [List.length_cons] at hn
      obtain ⟨n, rfl⟩ : ∃ m, n = m + 1 := ⟨n - 1, by omega⟩
      have hfirst : putHead x y (line :: lines) ++ l
          = line ++ x :: y :: (putHead x y lines ++ l) := by
        simp [putHead]
      rw [takeHead, hfirst, takeLine_line hline, Option.bind_some, if_neg hne, ih hlines (by omega)]
      rfl

theorem takeHead_append {n m : ℕ} (hnm : n ≤ m) {w r : List β} {lines : List (List β)}
    (h : takeHead x y n w = some (lines, r)) (l : List β) :
  takeHead x y m (w ++ l) = some (lines, r ++ l)
  := by
  induction n generalizing m w lines with
  | zero => cases h
  | succ n ih =>
      obtain ⟨m, rfl⟩ : ∃ k, m = k + 1 := ⟨m - 1, by omega⟩
      rw [takeHead] at h ⊢
      obtain ⟨⟨line, r'⟩, hline, h⟩ := Option.bind_eq_some_iff.mp h
      rw [takeLine_append hline, Option.bind_some]
      dsimp only at h ⊢
      split at h
      next hempty =>
        cases h
        rw [if_pos hempty]
      next hline' =>
        obtain ⟨⟨lines', r''⟩, hrest, heq⟩ := Option.map_eq_some_iff.mp h
        cases heq
        rw [if_neg hline', ih (by omega) hrest]
        rfl

end Lines

/-! ### Messages -/

/-- A message: the lines of its head, and its body. -/
structure Message (β : Type v) where
  lines : List (List β)
  body : List β
  deriving DecidableEq

section Message

variable [DecidableEq β] (x y : β) (bodyLength : List (List β) → Option ℕ)

/-- The message at the front of a list, when the head says how long the body is. -/
def takeMessage (w : List β) : Option (Message β × List β) :=
  (takeHead x y w.length w).bind fun r =>
    (bodyLength r.1).bind fun n =>
      if n ≤ r.2.length then some (⟨r.1, r.2.take n⟩, r.2.drop n) else none

/-- The code of the messages whose heads say how long their bodies are. -/
def message : Framing (Message β) β where
  encode := fun m => putHead x y m.lines ++ m.body
  decode := takeMessage x y bodyLength
  Valid := fun m =>
    (∀ line ∈ m.lines, line ≠ [] ∧ x ∉ line) ∧ bodyLength m.lines = some m.body.length
  decode_encode := by
    rintro ⟨lines, body⟩ l ⟨hlines, hlength⟩
    have hfuel : lines.length < (putHead x y lines ++ body ++ l).length := by
      have hflat : lines.length ≤ (lines.flatMap (· ++ [x, y])).length := by
        have hsum := List.length_le_sum_of_one_le (lines.map fun line => (line ++ [x, y]).length)
          (by simp)
        rw [List.length_map] at hsum
        rwa [List.length_flatMap]
      rw [List.length_append, List.length_append, putHead, List.length_append]
      change _ < _ + 2 + _ + _
      omega
    rw [takeMessage, List.append_assoc, takeHead_putHead hlines (by rwa [← List.append_assoc]),
      Option.bind_some, hlength, Option.bind_some, if_pos (by simp)]
    simp
  decode_append := by
    intro w a r l h
    obtain ⟨⟨lines, r'⟩, hhead, h⟩ := Option.bind_eq_some_iff.mp h
    obtain ⟨n, hlength, h⟩ := Option.bind_eq_some_iff.mp h
    dsimp only at hlength h
    split at h
    next hn =>
      cases h
      rw [takeMessage, takeHead_append (by simp) hhead, Option.bind_some, hlength, Option.bind_some,
        if_pos (by rw [List.length_append]; omega), List.take_append_of_le_length hn,
        List.drop_append_of_le_length hn]
    next => cases h
  decode_nil := rfl

end Message

end Framing
