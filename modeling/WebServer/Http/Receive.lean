import WebServer.Http.Parser

/-!
# Parsing and the bytes that arrive later

Bytes that arrive while a line is incomplete, or behind a complete line, do not disturb
the parsing of that line: the functions of the parser commute with `receive`.

* `parse_line` returns the line it finds whatever follows it, and one that found no line
  resumes as if it had seen all bytes from the beginning (`parseLine_receive_ok`,
  `parseLine_receive_stop`).
* The line parsers read and write the line they are given only; the longest write, of
  `judge.html` behind a bare `/`, ends on the last byte of the line
  (`Ends.parseRequestLine_receive`, `Ends.parseHeaders_receive`).
* The strings `m_url` and `m_host` point to end before the line that follows
  (`Sealed.parseRequestLine`, `Sealed.parseHeaders`).
-/

open CString Fallible

namespace WebServer

namespace Parser

/-! ### Receiving -/

/-- The results of a function of the parser, with `bs` received afterwards. -/
def receiveAfter {α : Type} (bs : List UInt8) :
    Except Fault (α × Parser) → Except Fault (α × Parser)
  | .ok (a, c) => .ok (a, c.receive bs)
  | .error f => .error f

@[simp]
theorem receiveAfter_ok {α : Type} (bs : List UInt8) (a : α) (c : Parser) :
  receiveAfter bs (.ok (a, c)) = .ok (a, c.receive bs)
  := rfl

@[simp]
theorem receive_nil (c : Parser) :
  c.receive [] = c
  := by
  simp [receive]

/-- Receiving two pieces is receiving their concatenation. -/
theorem receive_append (c : Parser) (bs bs' : List UInt8) :
  (c.receive bs).receive bs' = c.receive (bs ++ bs')
  := by
  simp only [receive, writeAt_append, List.length_append, Nat.add_assoc]

theorem readBuf_receive (c : Parser) (bs : List UInt8) {i : ℕ} (h : i < c.readIndex) :
  (c.receive bs).readBuf i = c.readBuf i
  := writeAt_of_lt _ _ h

/-- The parser with the byte `b` at the offset `i`. -/
def put (c : Parser) (i : ℕ) (b : UInt8) : Parser :=
  { c with readBuf := Function.update c.readBuf i b }

theorem store_of_lt (c : Parser) {i : ℕ} (b : UInt8) (h : i < readBuffSize) :
  c.store i b = .ok (c.put i b)
  := store_eq_ok.mpr ⟨⟨by omega, by omega⟩, rfl⟩

@[simp]
theorem put_checkIndex (c : Parser) (i : ℕ) (b : UInt8) :
  (c.put i b).checkIndex = c.checkIndex
  := rfl

theorem put_receive (c : Parser) {i : ℕ} (b : UInt8) (bs : List UInt8) (h : i < c.readIndex) :
  (c.receive bs).put i b = (c.put i b).receive bs
  := by
  simp only [put, receive, update_writeAt _ _ _ h]

/-- The parser with the bytes `l` put at the offsets from `p` on. -/
def putAll (c : Parser) : (p : ℕ) → (l : List UInt8) → Parser
  | _, [] => c
  | p, b :: l => (c.put p b).putAll (p + 1) l

theorem storeAll_of_le (c : Parser) {p : ℕ} {l : List UInt8} (h : p + l.length ≤ readBuffSize) :
  c.storeAll p l = .ok (c.putAll p l)
  := by
  induction l generalizing c p with
  | nil => rfl
  | cons b l ih =>
      rw [List.length_cons] at h
      rw [storeAll, store_of_lt _ _ (by omega), ok_bind, ih _ (by omega), putAll]

theorem putAll_receive (c : Parser) {p : ℕ} {l : List UInt8} (bs : List UInt8)
    (h : p + l.length ≤ c.readIndex) :
  (c.receive bs).putAll p l = (c.putAll p l).receive bs
  := by
  induction l generalizing c p with
  | nil => rfl
  | cons b l ih =>
      rw [List.length_cons] at h
      rw [putAll, putAll, put_receive _ _ _ (by omega), ih]
      simp only [put]
      omega

/-! ### Strings that end before what was read ends -/

/-- A NUL at the offset `e`, which was read, ends what starts at `p`. -/
structure Ends (c : Parser) (p e : ℕ) : Prop where
  le : p ≤ e
  lt_read : e < c.readIndex
  lt_size : e < readBuffSize
  nul : c.readBuf e = 0

theorem Ends.from {c : Parser} {p q e : ℕ} (h : Ends c p e) (h' : q ≤ e) :
  Ends c q e
  where
  le := h'
  lt_read := h.lt_read
  lt_size := h.lt_size
  nul := h.nul

theorem Ends.text_receive {c : Parser} {p e : ℕ} (h : Ends c p e) (bs : List UInt8) :
  (c.receive bs).text p = c.text p
  := by
  apply stringAt_congr h.le h.lt_size h.nul
  intro i _ hi
  have := h.lt_read
  apply readBuf_receive _ _ (by omega)

theorem Ends.strpbrk_receive {c : Parser} {p e : ℕ} (h : Ends c p e) (bs : List UInt8)
    (accept : UInt8 → Bool) :
  strpbrk (c.receive bs).readBuf readBuffSize p accept
    = strpbrk c.readBuf readBuffSize p accept
  := by
  have ht := h.text_receive bs
  unfold text at ht
  rw [strpbrk, strpbrk, ht]

theorem Ends.length_text {c : Parser} {p e : ℕ} (h : Ends c p e) :
  p + (c.text p).length ≤ e
  := stringAt_length h.le h.lt_size h.nul

/-- A NUL put before the end leaves the end. -/
theorem Ends.put {c : Parser} {p e i : ℕ} (h : Ends c p e) :
  Ends (c.put i 0) p e
  where
  le := h.le
  lt_read := h.lt_read
  lt_size := h.lt_size
  nul := by
    by_cases hi : e = i
    · simp [Parser.put, hi]
    · simp [Parser.put, Function.update_of_ne hi, h.nul]

/-- `cutWord` either finds no blank or ends a word before the end of the string. -/
theorem Ends.cutWord_cases {c : Parser} {p e : ℕ} (h : Ends c p e) :
  c.cutWord p = .ok (none, c) ∨
    ∃ r, p ≤ r ∧ r < e ∧ c.cutWord p = .ok (some (r + 1), c.put r 0)
  := by
  rw [cutWord]
  cases hs : strpbrk c.readBuf readBuffSize p isBlank with
  | none =>
      left
      rfl
  | some r =>
      right
      obtain ⟨hp, hr, -⟩ := strpbrk_eq_some hs
      have hlen := h.length_text
      have hsize := h.lt_size
      rw [text] at hlen
      use r, hp, by omega
      dsimp only
      rw [store_of_lt _ _ (by omega), ok_bind]

theorem Ends.cutWord_receive {c : Parser} {p e : ℕ} (h : Ends c p e) (bs : List UInt8) :
  (c.receive bs).cutWord p = receiveAfter bs (c.cutWord p)
  := by
  unfold cutWord
  rw [h.strpbrk_receive]
  cases hs : strpbrk c.readBuf readBuffSize p isBlank with
  | none => rfl
  | some r =>
      obtain ⟨hp, hr, -⟩ := strpbrk_eq_some hs
      have hlen := h.length_text
      have hsize := h.lt_size
      have hread := h.lt_read
      unfold text at hlen
      dsimp only
      rw [store_of_lt _ _ (by omega), store_of_lt _ _ (by omega), ok_bind, ok_bind,
        put_receive _ _ _ (by omega), receiveAfter_ok]

/-! ### `parse_line` -/

@[simp]
theorem receive_readIndex (c : Parser) (bs : List UInt8) :
  (c.receive bs).readIndex = c.readIndex + bs.length
  := rfl

@[simp]
theorem receive_checkIndex (c : Parser) (bs : List UInt8) :
  (c.receive bs).checkIndex = c.checkIndex
  := rfl

theorem parseLine_plain {c : Parser} (h : c.checkIndex < c.readIndex)
    (hp : isPlain (c.readBuf c.checkIndex) = true) :
  c.parseLine = { c with checkIndex := c.checkIndex + 1 }.parseLine
  := by
  apply Loop.whileLoop_inl
  rw [scanLine, if_pos ⟨h, hp⟩]

theorem parseLine_stop {c : Parser}
    (h : ¬ (c.checkIndex < c.readIndex ∧ isPlain (c.readBuf c.checkIndex) = true)) :
  c.parseLine = c.endLine
  := by
  apply Loop.whileLoop_inr
  rw [scanLine, if_neg h]

/-- The rule of `parse_line`: what holds of `endLine` where the scan stops, and is
carried back over every plain byte, holds of `parseLine`. -/
theorem parseLine_rule {P : Parser → Except Fault (LineStatus × Parser) → Prop}
    (plain : ∀ c r, c.checkIndex < c.readIndex → isPlain (c.readBuf c.checkIndex) = true →
      P { c with checkIndex := c.checkIndex + 1 } r → P c r)
    (stop : ∀ c, ¬ (c.checkIndex < c.readIndex ∧ isPlain (c.readBuf c.checkIndex) = true) →
      P c c.endLine)
    (c : Parser) :
  P c c.parseLine
  := by
  apply Loop.whileLoop_rule scanLine_decreases
  · intro c c₁ r h hP
    rw [scanLine] at h
    split at h
    · next hc =>
        cases h
        apply plain c r hc.1 hc.2 hP
    · cases h
  · intro c r h
    rw [scanLine] at h
    split at h
    · cases h
    · next hc =>
        cases h
        apply stop c hc

/-- At a carriage return followed by a line feed, the line ends behind the two. -/
theorem endLine_crlf {c : Parser} (hread : c.readIndex ≤ readBuffSize)
    (hlt : c.checkIndex + 1 < c.readIndex) (hcr : c.readBuf c.checkIndex = 13)
    (hlf : c.readBuf (c.checkIndex + 1) = 10) :
  c.endLine = .ok (.lineOk,
    { (c.put c.checkIndex 0).put (c.checkIndex + 1) 0 with checkIndex := c.checkIndex + 2 })
  := by
  rw [endLine, if_pos (by omega), if_pos hcr, if_neg (by omega), if_pos hlf,
    store_of_lt _ _ (by omega), ok_bind, put_checkIndex, store_of_lt _ _ (by omega), ok_bind]
  rfl

/-- At a line feed behind a carriage return, the line ends behind it. -/
theorem endLine_lf {c : Parser} (hread : c.readIndex ≤ readBuffSize)
    (hlt : c.checkIndex < c.readIndex) (hcr : c.readBuf c.checkIndex ≠ 13)
    (hlf : 1 < c.checkIndex ∧ c.readBuf (c.checkIndex - 1) = 13) :
  c.endLine = .ok (.lineOk,
    { (c.put (c.checkIndex - 1) 0).put c.checkIndex 0 with checkIndex := c.checkIndex + 1 })
  := by
  rw [endLine, if_pos hlt, if_neg hcr, if_pos hlf, store_of_lt _ _ (by omega), ok_bind,
    put_checkIndex, store_of_lt _ _ (by omega), ok_bind]
  rfl

/-- The three ways `endLine` ends a line or does not. -/
theorem endLine_cases (c : Parser) :
  (c.checkIndex + 1 < c.readIndex ∧ c.readBuf c.checkIndex = 13 ∧
      c.readBuf (c.checkIndex + 1) = 10) ∨
    (c.checkIndex < c.readIndex ∧ c.readBuf c.checkIndex ≠ 13 ∧
      1 < c.checkIndex ∧ c.readBuf (c.checkIndex - 1) = 13) ∨
    ∃ status, status ≠ .lineOk ∧ c.endLine = .ok (status, c)
  := by
  by_cases hlt : c.checkIndex < c.readIndex
  · by_cases hcr : c.readBuf c.checkIndex = 13
    · by_cases hend : c.checkIndex + 1 = c.readIndex
      · right; right
        use .lineOpen, by decide
        rw [endLine, if_pos hlt, if_pos hcr, if_pos hend]
      · by_cases hlf : c.readBuf (c.checkIndex + 1) = 10
        · left
          exact ⟨by omega, hcr, hlf⟩
        · right; right
          use .lineBad, by decide
          rw [endLine, if_pos hlt, if_pos hcr, if_neg hend, if_neg hlf]
    · by_cases hlf : 1 < c.checkIndex ∧ c.readBuf (c.checkIndex - 1) = 13
      · right; left
        exact ⟨hlt, hcr, hlf⟩
      · right; right
        use .lineBad, by decide
        rw [endLine, if_pos hlt, if_neg hcr, if_neg hlf]
  · right; right
    use .lineOpen, by decide
    rw [endLine, if_neg hlt]

/-- `parse_line` does not fault. -/
theorem parseLine_ok (c : Parser) (hread : c.readIndex ≤ readBuffSize) :
  ∃ status c', c.parseLine = .ok (status, c')
  := by
  revert hread
  apply parseLine_rule
    (P := fun c r => c.readIndex ≤ readBuffSize → ∃ status c', r = .ok (status, c'))
  · intro c r _ _ ih hread
    apply ih hread
  · intro c _ hread
    rcases endLine_cases c with ⟨hlt, hcr, hlf⟩ | ⟨hlt, hcr, hlf⟩ | ⟨status, -, h⟩
    · exact ⟨_, _, endLine_crlf hread hlt hcr hlf⟩
    · exact ⟨_, _, endLine_lf hread hlt hcr hlf⟩
    · exact ⟨_, _, h⟩

/-- The end of a line is found whatever follows it. -/
theorem endLine_receive_ok {c c' : Parser} (bs : List UInt8)
    (hread : (c.receive bs).readIndex ≤ readBuffSize) (h : c.endLine = .ok (.lineOk, c')) :
  (c.receive bs).endLine = .ok (.lineOk, c'.receive bs)
  := by
  rw [receive_readIndex] at hread
  rcases endLine_cases c with ⟨hlt, hcr, hlf⟩ | ⟨hlt, hcr, hlf⟩ | ⟨status, hne, hs⟩
  · rw [endLine_crlf (by omega) hlt hcr hlf] at h
    obtain ⟨-, rfl⟩ := Prod.mk.inj (Except.ok.inj h)
    have hcr' := readBuf_receive c bs (i := c.checkIndex) (by omega)
    have hlf' := readBuf_receive c bs hlt
    rw [endLine_crlf hread, put_receive, put_receive]
    · rfl
    · apply hlt
    · rw [receive_checkIndex]
      omega
    · rw [receive_checkIndex, receive_readIndex]
      omega
    · rw [receive_checkIndex, hcr', hcr]
    · rw [receive_checkIndex, hlf', hlf]
  · rw [endLine_lf (by omega) hlt hcr hlf] at h
    obtain ⟨-, rfl⟩ := Prod.mk.inj (Except.ok.inj h)
    have hcr' := readBuf_receive c bs hlt
    have hlf' := readBuf_receive c bs (i := c.checkIndex - 1) (by omega)
    rw [endLine_lf hread, put_receive, put_receive]
    · rfl
    · apply hlt
    · rw [receive_checkIndex]
      omega
    · rw [receive_checkIndex, receive_readIndex]
      omega
    · rw [receive_checkIndex, hcr']
      apply hcr
    · rw [receive_checkIndex, hlf']
      apply hlf
  · rw [hs] at h
    apply absurd (Prod.mk.inj (Except.ok.inj h)).1 hne

/-- A line that is complete is found whatever follows it. -/
theorem parseLine_receive_ok {c c' : Parser} (bs : List UInt8)
    (hread : (c.receive bs).readIndex ≤ readBuffSize) (h : c.parseLine = .ok (.lineOk, c')) :
  (c.receive bs).parseLine = .ok (.lineOk, c'.receive bs)
  := by
  revert hread c'
  apply parseLine_rule (P := fun c r => ∀ {c'}, (c.receive bs).readIndex ≤ readBuffSize →
    r = .ok (.lineOk, c') → (c.receive bs).parseLine = .ok (.lineOk, c'.receive bs))
  · intro c r hlt hplain ih c' hread h
    have hlt' : (c.receive bs).checkIndex < (c.receive bs).readIndex := by simp; omega
    rw [parseLine_plain hlt' (by rw [receive_checkIndex, readBuf_receive _ _ hlt, hplain])]
    apply ih hread h
  · intro c hstop c' hread h
    have hlt := ((endLine_indices h).2.2.1 rfl).1
    rw [parseLine_stop, endLine_receive_ok bs hread h]
    rw [receive_checkIndex, readBuf_receive _ _ hlt]
    intro hp
    apply hstop ⟨hlt, hp.2⟩

/-- A scan that found no complete line resumes where it stopped. -/
theorem parseLine_receive_stop {c c' : Parser} {status : LineStatus} (bs : List UInt8)
    (hstatus : status ≠ .lineOk) (h : c.parseLine = .ok (status, c')) :
  (c.receive bs).parseLine = (c'.receive bs).parseLine
  := by
  revert c'
  apply parseLine_rule (P := fun c r => ∀ {c'}, r = .ok (status, c') →
    (c.receive bs).parseLine = (c'.receive bs).parseLine)
  · intro c r hlt hplain ih c' h
    have hlt' : (c.receive bs).checkIndex < (c.receive bs).readIndex := by simp; omega
    rw [parseLine_plain hlt' (by rw [receive_checkIndex, readBuf_receive _ _ hlt, hplain])]
    apply ih h
  · intro c _ c' h
    rw [(endLine_indices h).2.2.2 hstatus]

/-! ### The line parsers -/

/-- What a scheme is skipped to lies in the string. -/
theorem Ends.skipScheme_cases {c : Parser} {u e : ℕ} (h : Ends c u e) (scheme : List UInt8) :
  c.skipScheme scheme (some u) = .ok none ∨
    ∃ p, u ≤ p ∧ p ≤ e ∧ c.skipScheme scheme (some u) = .ok (some p)
  := by
  unfold skipScheme
  dsimp only
  split
  · next hs =>
      have hscheme := length_of_hasPrefixIgnoreCase hs
      have hlen := h.length_text
      cases hp : strpbrk c.readBuf readBuffSize (u + scheme.length) (· == 47) with
      | none =>
          left
          rfl
      | some p =>
          right
          obtain ⟨hup, hpe, -⟩ := strpbrk_eq_some hp
          have hlen' := (h.from (q := u + scheme.length) (by omega)).length_text
          unfold text at hlen'
          exact ⟨p, by omega, by omega, rfl⟩
  · right
    exact ⟨u, le_rfl, h.le, rfl⟩

theorem Ends.skipScheme_receive {c : Parser} {u e : ℕ} (h : Ends c u e) (bs scheme : List UInt8) :
  (c.receive bs).skipScheme scheme (some u) = c.skipScheme scheme (some u)
  := by
  unfold skipScheme
  dsimp only
  rw [h.text_receive]
  split
  · next hs =>
      have hscheme := length_of_hasPrefixIgnoreCase hs
      have hlen := h.length_text
      rw [(h.from (by omega)).strpbrk_receive]
  · rfl

/-- The `judge.html` behind a bare `/` ends at most 11 bytes behind the end of the URL. -/
theorem Ends.parsePath_receive {c : Parser} {p e : ℕ} (h : Ends c p e) (bs : List UInt8)
    (hroom : e + 11 ≤ c.readIndex) (hsize : c.readIndex ≤ readBuffSize) :
  (c.receive bs).parsePath p = receiveAfter bs (c.parsePath p)
  := by
  unfold parsePath
  rw [h.text_receive, readBuf_receive _ _ (Nat.lt_of_le_of_lt h.le h.lt_read)]
  split
  · rfl
  · split
    · next hlen =>
        have hp := h.length_text
        have hjudge : (ascii "judge.html" ++ [0]).length = 11 := rfl
        rw [storeAll_of_le _ (by omega), storeAll_of_le _ (by omega), ok_bind, ok_bind,
          putAll_receive _ _ (by omega)]
        rfl
    · rfl

theorem Ends.parseUrl_receive {c : Parser} {u e : ℕ} (h : Ends c u e) (bs : List UInt8)
    (hroom : e + 11 ≤ c.readIndex) (hsize : c.readIndex ≤ readBuffSize) :
  (c.receive bs).parseUrl u = receiveAfter bs (c.parseUrl u)
  := by
  unfold parseUrl
  rw [h.skipScheme_receive]
  rcases h.skipScheme_cases (ascii "http://") with hs | ⟨p, -, hpe, hs⟩
  · rw [hs]
    rfl
  · have hp := h.from hpe
    rw [hs, ok_bind, ok_bind, hp.skipScheme_receive]
    rcases hp.skipScheme_cases (ascii "https://") with hs' | ⟨p', -, hpe', hs'⟩
    · rw [hs']
      rfl
    · have hp' : Ends { c with url := some p' } p' e := { h.from hpe' with }
      rw [hs', ok_bind, ok_bind]
      apply hp'.parsePath_receive bs hroom hsize

/-- The NUL that cuts off a word ends it. -/
theorem Ends.of_put {c : Parser} {p r e : ℕ} (h : Ends c p e) (hp : p ≤ r) (hr : r < e) :
  Ends (c.put r 0) p r
  where
  le := hp
  lt_read := hr.trans h.lt_read
  lt_size := hr.trans h.lt_size
  nul := Function.update_self ..

theorem Ends.parseVersion_receive {c : Parser} {u e : ℕ} (h : Ends c u e) (bs : List UInt8)
    (hend : e + 2 ≤ c.readIndex) (hsize : c.readIndex ≤ readBuffSize) :
  (c.receive bs).parseVersion u = receiveAfter bs (c.parseVersion u)
  := by
  unfold parseVersion
  rw [h.cutWord_receive]
  rcases h.cutWord_cases with hw | ⟨r, hur, hre, hw⟩
  · rw [hw]
    rfl
  · let d := { c.put r 0 with version := some (r + 1) }
    have hd : Ends d u r := { h.of_put hur hre with }
    have hd' : Ends d (r + 1) e := { h.put (i := r) with le := hre }
    have hv := hd'.text_receive bs
    rw [hw, receiveAfter_ok, ok_bind, ok_bind]
    change (if eqIgnoreCase ((d.receive bs).text (r + 1)) _ = true then
        (d.receive bs).parseUrl u else _) =
      receiveAfter bs (if eqIgnoreCase (d.text (r + 1)) _ = true then d.parseUrl u else _)
    rw [hv]
    split
    · next hhttp =>
        have hlen := length_of_eqIgnoreCase hhttp
        have hlen' := hd'.length_text
        have hversion : (ascii "HTTP/1.1").length = 8 := rfl
        apply hd.parseUrl_receive bs _ hsize
        change r + 11 ≤ c.readIndex
        omega
    · rfl

theorem Ends.parseMethod_receive {c : Parser} {p u e : ℕ} (hp : Ends c p e) (hu : u ≤ e)
    (bs : List UInt8) (hend : e + 2 ≤ c.readIndex) (hsize : c.readIndex ≤ readBuffSize) :
  (c.receive bs).parseMethod p u = receiveAfter bs (c.parseMethod p u)
  := by
  unfold parseMethod
  rw [hp.text_receive]
  cases methodOf (c.text p) with
  | none => rfl
  | some m =>
      have hm : Ends (c.setMethod m) u e := { hp.from hu with }
      apply hm.parseVersion_receive bs hend hsize

/-- The request line and the two bytes that end it are all `parse_request_line` uses. -/
theorem Ends.parseRequestLine_receive {c : Parser} {p e : ℕ} (h : Ends c p e) (bs : List UInt8)
    (hend : e + 2 ≤ c.readIndex) (hsize : c.readIndex ≤ readBuffSize) :
  (c.receive bs).parseRequestLine p = receiveAfter bs (c.parseRequestLine p)
  := by
  unfold parseRequestLine
  rw [h.cutWord_receive]
  rcases h.cutWord_cases with hw | ⟨r, hpr, hre, hw⟩
  · rw [hw]
    rfl
  · have hd : Ends { c.put r 0 with url := some (r + 1) } p e := { h.put (i := r) with }
    rw [hw, receiveAfter_ok, ok_bind, ok_bind]
    apply hd.parseMethod_receive hre bs hend hsize

/-- The value of a header lies in its line. -/
theorem Ends.valueOffset_le {c : Parser} {p e n : ℕ} (h : Ends c p e)
    (hn : n ≤ (c.text p).length) :
  c.valueOffset p n ≤ e
  := by
  have hlen := h.length_text
  have hlen' := (h.from (q := p + n) (by omega)).length_text
  have hspan : strspnBlank (c.text (p + n)) ≤ (c.text (p + n)).length :=
    List.Sublist.length_le (List.takeWhile_sublist _)
  rw [valueOffset]
  omega

theorem Ends.valueOffset_receive {c : Parser} {p e n : ℕ} (h : Ends c p e)
    (hn : n ≤ (c.text p).length) (bs : List UInt8) :
  (c.receive bs).valueOffset p n = c.valueOffset p n
  := by
  have hlen := h.length_text
  unfold valueOffset
  rw [(h.from (q := p + n) (by omega)).text_receive]

theorem Ends.text_valueOffset_receive {c : Parser} {p e n : ℕ} (h : Ends c p e)
    (hn : n ≤ (c.text p).length) (bs : List UInt8) :
  (c.receive bs).text ((c.receive bs).valueOffset p n) = c.text (c.valueOffset p n)
  := by
  rw [h.valueOffset_receive hn, (h.from (h.valueOffset_le hn)).text_receive]

/-- A header line and the NUL that ends it are all `parse_headers` uses. -/
theorem Ends.parseHeaders_receive {c : Parser} {p e : ℕ} (h : Ends c p e) (bs : List UInt8) :
  (c.receive bs).parseHeaders p = ((c.parseHeaders p).1, (c.parseHeaders p).2.receive bs)
  := by
  unfold parseHeaders
  rw [h.text_receive, readBuf_receive _ _ (Nat.lt_of_le_of_lt h.le h.lt_read)]
  have value {n : ℕ} {name : List UInt8} (hn : hasPrefixIgnoreCase (c.text p) name = true)
      (hlen : name.length = n) : n ≤ (c.text p).length := hlen ▸ length_of_hasPrefixIgnoreCase hn
  split
  · change (if c.contentLength ≠ 0 then _ else _) = _
    split
    · rfl
    · rfl
  · split
    · next hname =>
        rw [h.text_valueOffset_receive (n := 11) (value hname rfl)]
        split
        · rfl
        · rfl
    · split
      · next hname =>
          rw [h.text_valueOffset_receive (n := 15) (value hname rfl)]
          rfl
      · split
        · next hname =>
            rw [h.valueOffset_receive (n := 5) (value hname rfl)]
            rfl
        · rfl

/-! ### What the parser points to

`m_url` and `m_host` point into lines that were parsed, and a NUL ends the last of them,
so what arrives later does not change the strings they point to. -/

theorem putAll_eq (c : Parser) (p : ℕ) (l : List UInt8) :
  c.putAll p l = { c with readBuf := writeAt c.readBuf p l }
  := by
  induction l generalizing c p with
  | nil => rw [writeAt_nil, putAll]
  | cons b l ih =>
      have hb : Function.update c.readBuf p b = writeAt c.readBuf p [b] := by
        funext i
        by_cases hi : i = p
        · rw [hi, Function.update_self]
          apply Eq.symm (writeAt_add c.readBuf p (l := [b]) (i := 0) (by simp))
        · rw [Function.update_of_ne hi]
          rcases Nat.lt_or_gt_of_ne hi with hi | hi
          · rw [writeAt_of_lt _ _ hi]
          · rw [writeAt_of_ge _ _ hi]
      rw [putAll, ih]
      simp only [put, hb]
      rw [← List.length_singleton (a := b), writeAt_append]
      rfl

/-- What the parser points to starts before `q`, and a NUL right before `q` ends it. -/
structure Sealed (c : Parser) (q : ℕ) : Prop where
  nul : ∀ i, i + 1 = q → c.readBuf i = 0
  url : ∀ p, c.url = some p → p < q
  host : ∀ p, c.host = some p → p < q

/-- What the parser points to is written before `q`. -/
theorem Sealed.texts_eq {c : Parser} {q : ℕ} (h : Sealed c q) (hq : q ≤ readBuffSize) {m : Memory}
    (hm : ∀ i, i < q → m i = c.readBuf i) :
  c.url.map (stringAt m readBuffSize) = c.urlText ∧
    c.host.map (stringAt m readBuffSize) = c.hostText
  := by
  have htext {p : ℕ} (hp : p < q) : stringAt m readBuffSize p = c.text p := by
    apply stringAt_congr (q := q - 1) (by omega) (by omega)
    · apply h.nul
      omega
    · intro i _ hi
      apply hm i (by omega)
  constructor
  · rw [urlText]
    cases hu : c.url with
    | none => rfl
    | some p => exact congrArg some (htext (h.url p hu))
  · rw [hostText]
    cases hu : c.host with
    | none => rfl
    | some p => exact congrArg some (htext (h.host p hu))

theorem Sealed.put {c : Parser} {q i : ℕ} (h : Sealed c q) :
  Sealed (c.put i 0) q
  where
  nul := by
    intro j hj
    by_cases hi : j = i
    · simp [Parser.put, hi]
    · simp [Parser.put, Function.update_of_ne hi, h.nul j hj]
  url := h.url
  host := h.host

theorem Sealed.parsePath {c c' : Parser} {p e q : ℕ} {r : HttpCode} (h : Sealed c q)
    (hp : Ends c p e) (hroom : e + 11 ≤ q) (hq : q ≤ readBuffSize)
    (hpath : c.parsePath p = .ok (r, c')) :
  Sealed c' q
  := by
  rw [Parser.parsePath] at hpath
  split at hpath
  · cases hpath
    apply h
  · split at hpath
    · next hlen =>
        have hle := hp.length_text
        have hjudge : (ascii "judge.html" ++ [0]).length = 11 := rfl
        rw [storeAll_of_le _ (by omega), ok_bind, putAll_eq] at hpath
        cases hpath
        refine ⟨?_, h.url, h.host⟩
        intro i hi
        dsimp only
        by_cases hlast : i = p + 11
        · subst hlast
          apply writeAt_add c.readBuf (p + 1) (l := ascii "judge.html" ++ [0]) (i := 10)
          decide
        · rw [writeAt_of_ge _ _ (by omega), h.nul i hi]
    · cases hpath
      exact ⟨h.nul, h.url, h.host⟩

theorem Sealed.parseUrl {c c' : Parser} {u e q : ℕ} {r : HttpCode} (h : Sealed c q)
    (hu : Ends c u e) (hroom : e + 11 ≤ q) (hq : q ≤ readBuffSize)
    (hurl : c.parseUrl u = .ok (r, c')) :
  Sealed c' q
  := by
  rw [Parser.parseUrl] at hurl
  rcases hu.skipScheme_cases (ascii "http://") with hs | ⟨p, -, hpe, hs⟩
  · rw [hs] at hurl
    cases hurl
  · have hp := hu.from hpe
    rw [hs, ok_bind] at hurl
    rcases hp.skipScheme_cases (ascii "https://") with hs' | ⟨p', -, hpe', hs'⟩
    · rw [hs'] at hurl
      cases hurl
      refine ⟨h.nul, ?_, h.host⟩
      rintro p ⟨⟩
    · rw [hs', ok_bind] at hurl
      dsimp only at hurl
      have hp' : Ends { c with url := some p' } p' e := { hp.from hpe' with }
      have h' : Sealed { c with url := some p' } q := by
        refine ⟨h.nul, ?_, h.host⟩
        rintro p ⟨⟩
        omega
      apply h'.parsePath hp' hroom hq hurl

theorem Sealed.parseVersion {c c' : Parser} {u e q : ℕ} {r : HttpCode} (h : Sealed c q)
    (hu : Ends c u e) (hend : e + 2 ≤ q) (hq : q ≤ readBuffSize)
    (hversion : c.parseVersion u = .ok (r, c')) :
  Sealed c' q
  := by
  rw [Parser.parseVersion] at hversion
  rcases hu.cutWord_cases with hw | ⟨v, huv, hve, hw⟩
  · rw [hw] at hversion
    cases hversion
    exact { h with }
  · let d := { c.put v 0 with version := some (v + 1) }
    have hd : Ends d u v := { hu.of_put huv hve with }
    have hd' : Ends d (v + 1) e := { hu.put (i := v) with le := hve }
    have h' : Sealed d q := { h.put (i := v) with }
    rw [hw, ok_bind] at hversion
    change (if eqIgnoreCase (d.text (v + 1)) _ = true then d.parseUrl u else .ok (_, d)) = _
      at hversion
    split at hversion
    · next hhttp =>
        have hlen := length_of_eqIgnoreCase hhttp
        have hlen' := hd'.length_text
        have hname : (ascii "HTTP/1.1").length = 8 := rfl
        apply h'.parseUrl hd (by omega) hq hversion
    · rw [← (Prod.mk.inj (Except.ok.inj hversion)).2]
      apply h'

theorem Sealed.parseRequestLine {c c' : Parser} {p e q : ℕ} {r : HttpCode} (h : Sealed c q)
    (hp : Ends c p e) (hend : e + 2 ≤ q) (hq : q ≤ readBuffSize)
    (hline : c.parseRequestLine p = .ok (r, c')) :
  Sealed c' q
  := by
  rw [Parser.parseRequestLine] at hline
  rcases hp.cutWord_cases with hw | ⟨u, hpu, hue, hw⟩
  · rw [hw] at hline
    cases hline
    refine ⟨h.nul, ?_, h.host⟩
    rintro p ⟨⟩
  · have h' : Sealed { c.put u 0 with url := some (u + 1) } q := by
      refine ⟨h.put.nul, ?_, h.host⟩
      rintro p ⟨⟩
      omega
    rw [hw, ok_bind] at hline
    dsimp only at hline
    rw [Parser.parseMethod] at hline
    split at hline
    · cases hline
      apply h'
    · next m _ =>
        have hm : Ends ({ c.put u 0 with url := some (u + 1) }.setMethod m) (u + 1) e :=
          { hp.put (i := u) with le := hue }
        have h'm : Sealed ({ c.put u 0 with url := some (u + 1) }.setMethod m) q := { h' with }
        apply h'm.parseVersion hm hend hq hline

theorem Sealed.parseHeaders {c : Parser} {p e q : ℕ} (h : Sealed c q) (hp : Ends c p e)
    (hend : e < q) :
  Sealed (c.parseHeaders p).2 q
  := by
  rw [Parser.parseHeaders]
  split
  · split
    · exact { h with }
    · exact { h with }
  · split
    · split
      · exact { h with }
      · exact { h with }
    · split
      · exact { h with }
      · split
        · next hname =>
            refine ⟨h.nul, h.url, ?_⟩
            rintro i ⟨⟩
            have hlen := length_of_hasPrefixIgnoreCase hname
            have := hp.valueOffset_le (n := 5) hlen
            omega
        · exact { h with }

end Parser

end WebServer
