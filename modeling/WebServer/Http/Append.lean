import WebServer.Lib.Run
import WebServer.Http.Length

/-!
# Sequences of `add_response`

`add_response` compares `m_write_index` with the size of the buffer, hands `vsnprintf` the
room that is left less one byte, of which the terminating NUL takes another, and compares
the length of the whole text with the room that is left.  So a text that is one byte shorter
than the room that is left, or as long, is counted whole and stored short
(`allOrNothing_along_iff`).

The texts are of any length.  `vsnprintf` fails and returns `-1` for one that is longer than
an `int` says, and then `m_write_index` goes back by one.
-/

open CString Fallible

namespace WebServer

/-- The object between two calls of `add_response`, with the texts of those calls so far
that returned true, one behind the other. -/
structure Appended where
  conn : HttpConn
  texts : List UInt8

namespace Appended

/-- Before the first call. -/
def start (c : HttpConn) : Appended := ⟨c, []⟩

/-- A call of `add_response`, and what it returns. -/
def call (a : Appended) (text : List UInt8) : Except Fault (Bool × HttpConn) :=
  if 2 ^ 31 ≤ text.length then .error .signedOverflow else a.conn.addResponse text

/-- The next call. -/
def step (a : Appended) (text : List UInt8) : Option Appended :=
  match a.call text with
  | .error _ => none
  | .ok (true, c) => some ⟨c, a.texts ++ text⟩
  | .ok (false, c) => some ⟨c, a.texts⟩

/-- A call appends its text, or returns false and appends nothing, and writes nothing behind
the buffer. -/
def AllOrNothing (a : Appended) (text : List UInt8) : Prop :=
  ∃ ok c, a.call text = .ok (ok, c) ∧
    c.header = (if ok then a.texts ++ text else a.texts) ∧
    (ok = false → c.writeIndex = a.conn.writeIndex) ∧
    ∀ i, writeBuffSize ≤ i → c.writeBuff i = a.conn.writeBuff i

/-- The text and two bytes more fit into the room that is left, or the text does not. -/
def Clear (a : Appended) (text : List UInt8) : Prop :=
  a.conn.writeIndex + text.length + 1 < writeBuffSize ∨
    writeBuffSize < a.conn.writeIndex + text.length ∧ text.length < 2 ^ 31

instance (a : Appended) (text : List UInt8) : Decidable (a.Clear text) :=
  inferInstanceAs (Decidable (_ ∨ _))

/-- The buffer holds the texts, and the last two bytes of it were not needed. -/
structure Holds (a : Appended) : Prop where
  header : a.conn.header = a.texts
  room : a.conn.writeIndex + 1 < writeBuffSize

theorem start_holds {c : HttpConn} (h : c.writeIndex = 0) :
  (start c).Holds
  := by
  constructor
  · rw [start, HttpConn.header, h]
    rfl
  · rw [start, h]
    decide

/-- What is stored of a text ends in front of the last byte of the buffer. -/
theorem length_vsnprintf_le (n : ℕ) (text : List UInt8) :
  (HttpConn.vsnprintf n text).length ≤ n
  := by
  rw [HttpConn.vsnprintf]
  split
  next => apply Nat.zero_le
  next hn =>
    rw [List.length_append, List.length_take, List.length_singleton]
    omega

/-- The write buffer behind a call. -/
def stored (a : Appended) (text : List UInt8) : Memory :=
  writeAt a.conn.writeBuff a.conn.writeIndex
    (HttpConn.vsnprintf (writeBuffSize - a.conn.writeIndex - 1) text)

/-- A text that is longer than the room that is left is refused. -/
theorem Holds.call_long {a : Appended} (h : a.Holds) {text : List UInt8}
    (hint : text.length < 2 ^ 31) (hlong : writeBuffSize < a.conn.writeIndex + text.length) :
  a.call text = .ok (false, { a.conn with writeBuff := a.stored text })
  := by
  have hroom := h.room
  rw [call, if_neg (not_le.mpr hint), HttpConn.addResponse, if_neg (by omega), if_neg (by omega)]
  dsimp only
  rw [if_pos (by omega)]
  rfl

/-- Any other text is counted whole. -/
theorem Holds.call_counted {a : Appended} (h : a.Holds) {text : List UInt8}
    (hshort : a.conn.writeIndex + text.length ≤ writeBuffSize) :
  a.call text = .ok (true, { a.conn with
    writeBuff := a.stored text
    writeIndex := a.conn.writeIndex + text.length })
  := by
  have hroom := h.room
  have hint : text.length < 2 ^ 31 := by
    rw [writeBuffSize] at hshort
    omega
  rw [call, if_neg (not_le.mpr hint), HttpConn.addResponse, if_neg (by omega), if_neg (by omega)]
  dsimp only
  rw [if_neg (by omega)]
  rfl

/-- Nothing is written behind the buffer. -/
theorem Holds.stored_eq {a : Appended} (h : a.Holds) (text : List UInt8) {i : ℕ}
    (hi : writeBuffSize ≤ i) :
  a.stored text i = a.conn.writeBuff i
  := by
  have hroom := h.room
  have hlength := length_vsnprintf_le (writeBuffSize - a.conn.writeIndex - 1) text
  apply writeAt_of_ge
  omega

/-- A call whose text is clear of the end of the buffer appends all or nothing. -/
theorem Holds.allOrNothing {a : Appended} (h : a.Holds) {text : List UInt8}
    (hclear : a.Clear text) :
  a.AllOrNothing text
  := by
  rcases hclear with hfits | ⟨hlong, hint⟩
  · have hcall := @Holds.call_counted a h text (by omega)
    refine ⟨true, _, hcall, ?_, nofun, fun i hi => h.stored_eq text hi⟩
    have hint : ¬ 2 ^ 31 ≤ text.length := by
      rw [writeBuffSize] at hfits
      omega
    rw [call, if_neg hint] at hcall
    rw [HttpConn.addResponse_header hfits hcall, h.header]
    rfl
  · refine ⟨false, _, h.call_long hint hlong, ?_, fun _ => rfl, fun i hi => h.stored_eq text hi⟩
    rw [if_neg Bool.false_ne_true, ← h.header]
    apply List.map_congr_left
    intro i hi
    apply writeAt_of_lt _ _ (List.mem_range.mp hi)

/-- Behind such a call the buffer holds the texts again. -/
theorem Holds.step {a a' : Appended} (h : a.Holds) {text : List UInt8} (hclear : a.Clear text)
    (ha' : a.step text = some a') :
  a'.Holds
  := by
  have hroom := h.room
  obtain ⟨ok, c, hcall, hheader, hindex, -⟩ := h.allOrNothing hclear
  rw [Appended.step, hcall] at ha'
  cases ok with
  | true =>
      obtain rfl := Option.some.inj ha'
      refine ⟨hheader, ?_⟩
      rcases hclear with hfits | ⟨hlong, hint⟩
      · rw [h.call_counted (by omega)] at hcall
        cases hcall
        exact hfits
      · cases (h.call_long hint hlong).symm.trans hcall
  | false =>
      obtain rfl := Option.some.inj ha'
      refine ⟨hheader, ?_⟩
      dsimp only
      rw [hindex rfl]
      exact hroom

/-- A text that comes to the end of the room has a NUL in place of one of its bytes. -/
theorem vsnprintf_nul {n : ℕ} {text : List UInt8} (hlength : n < text.length) :
  (HttpConn.vsnprintf (n + 1) text)[n]? = some 0
  := by
  have htake : (text.take n).length = n := by
    rw [List.length_take, min_eq_left hlength.le]
  rw [HttpConn.vsnprintf, if_neg n.succ_ne_zero, Nat.add_sub_cancel,
    List.getElem?_append_right htake.le, htake, Nat.sub_self]
  rfl

/-- A text without a NUL that is not clear of the end of the buffer is counted whole and
stored short. -/
theorem Holds.clear {a : Appended} (h : a.Holds) {text : List UInt8} (hnul : 0 ∉ text)
    (hall : a.AllOrNothing text) :
  a.Clear text
  := by
  have hroom := h.room
  obtain ⟨ok, c, hcall, hheader, -, -⟩ := hall
  by_contra hclear
  rw [Clear] at hclear
  have hint : text.length < 2 ^ 31 := by
    by_contra hint
    rw [call, if_pos (not_lt.mp hint)] at hcall
    cases hcall
  have hshort : a.conn.writeIndex + text.length ≤ writeBuffSize := by omega
  rw [h.call_counted hshort] at hcall
  cases hcall
  -- the last byte of the room that `vsnprintf` was given
  obtain ⟨n, hn⟩ : ∃ n, writeBuffSize - a.conn.writeIndex - 1 = n + 1 :=
    ⟨writeBuffSize - a.conn.writeIndex - 2, by omega⟩
  have hstored : a.stored text (a.conn.writeIndex + n) = 0 := by
    rw [stored, writeAt, if_pos (Nat.le_add_right _ _), Nat.add_sub_cancel_left, hn,
      vsnprintf_nul (by omega)]
    rfl
  have hindex : a.texts.length = a.conn.writeIndex := by
    rw [← h.header, HttpConn.length_header]
  change (List.range (a.conn.writeIndex + text.length)).map (a.stored text) = a.texts ++ text
    at hheader
  have hplace := congrArg (·[a.conn.writeIndex + n]?) hheader
  rw [List.getElem?_map, List.getElem?_range (by omega), Option.map_some, hstored, ← hindex,
    List.getElem?_append_right (Nat.le_add_right _ _), Nat.add_sub_cancel_left] at hplace
  apply hnul (List.mem_of_getElem? hplace.symm)

/-- Every call of a sequence appends all or nothing when no text comes to the last two bytes
of the buffer; and only then, when the texts are strings. -/
theorem allOrNothing_along_iff {c : HttpConn} (h : c.writeIndex = 0)
    (texts : List (List UInt8)) :
  (Run.Along step Clear (start c) texts → Run.Along step AllOrNothing (start c) texts) ∧
    ((∀ text ∈ texts, 0 ∉ text) → Run.Along step AllOrNothing (start c) texts →
      Run.Along step Clear (start c) texts)
  := by
  constructor
  · apply Run.along_of_along (I := Holds) (E := fun _ => True) _ _ (start_holds h)
      (fun _ _ => trivial)
    · intro a text a' ha _ hclear ha'
      apply ha.step hclear ha'
    · intro a text ha _ hclear
      apply ha.allOrNothing hclear
  · intro hnul
    apply Run.along_of_along (I := Holds) (E := fun text => 0 ∉ text) _ _ (start_holds h) hnul
    · intro a text a' ha htext hall ha'
      apply ha.step (ha.clear htext hall) ha'
    · intro a text ha htext hall
      apply ha.clear htext hall

/-- The texts of a status line and an empty line. -/
def shortHead : List (List UInt8) := [ascii "HTTP/1.1 200 OK\r\n", ascii "\r\n"]

theorem allOrNothing_along_shortHead :
  Run.Along step AllOrNothing (start (Sending.forFile 0).init) shortHead
  := (allOrNothing_along_iff rfl shortHead).1 (by decide +kernel)

/-- A text of 1023 bytes is counted whole, and its last byte is not stored. -/
theorem not_allOrNothing :
  ¬ ∀ c : HttpConn, c.writeIndex = 0 → ∀ texts : List (List UInt8),
    Run.Along step AllOrNothing (start c) texts
  := by
  intro h
  have hall := (h (Sending.forFile 0).init rfl [List.replicate 1023 97]).1
  have hnul : (0 : UInt8) ∉ List.replicate 1023 97 := by
    rw [List.mem_replicate]
    decide
  rcases (start_holds rfl).clear hnul hall with hfits | ⟨hlong, -⟩
  · rw [List.length_replicate] at hfits
    apply absurd hfits (by decide)
  · rw [List.length_replicate] at hlong
    apply absurd hlong (by decide)

end Appended

end WebServer
