import WebServer.Lib.Printf
import WebServer.Http.Completion

/-!
# Requests that are waited for

In the header phase a parser that is not hopeless has a line that can still be ended.  Behind
its end the request is rejected, handed to `do_request` or goes on, and then a header line
and the empty line complete it.  At a body the bytes that are missing do.  So whatever was
received, a parser that waits finds a code for some continuation that fits into the buffer
(`Unfinished.repairable_iff`).
-/

open CString Fallible WebServer.HttpTask

namespace WebServer

namespace Parser

/-- There is room in the buffer for the rest of a request: for the end of a line, a header line
and the empty line, and for the end of the body that was declared. -/
def HasRoom (c : Parser) : Prop :=
  if c.checkState = .content then
    c.checkIndex + c.contentLength + formRoom ≤ readBuffSize
  else
    c.readIndex + (ascii "x\r\nContent-Length:-0000\r\n\r\n").length + formRoom ≤ readBuffSize ∧
      (c.Settled → c.lineText = [] →
        c.checkIndex + |c.contentLength| + 2 + formRoom ≤ readBuffSize)

/-! ### Lines that can be ended -/

/-- What ends the line that is scanned. -/
def lineEnd (c : Parser) : List UInt8 := if c.checkIndex < c.readIndex then [10] else crlf

/-- The parser with the line that is scanned ended. -/
def lineClosed (c : Parser) : Parser := (c.receive c.lineEnd).closeLine

/-- The end of the line is found. -/
theorem Drained.headerLine_lineEnd {c : Parser} (h : Drained c) (hbyte : ¬ c.AtBadByte)
    (hroom : c.readIndex + 2 ≤ readBuffSize) :
  (c.receive c.lineEnd).readIndex = c.checkIndex + 2 ∧
    (c.receive c.lineEnd).headerLine = afterHeader c.lineClosed.readPass ∧ LineEnds c.lineClosed
  := by
  have hfound : (c.receive c.lineEnd).readIndex = c.checkIndex + 2 ∧
      (c.receive c.lineEnd).readBuf c.checkIndex = 13 ∧
        (c.receive c.lineEnd).readBuf (c.checkIndex + 1) = 10 := by
    have hspells := spells_receive c c.lineEnd
    rcases h.cases with heq | ⟨hlast, hcr⟩ | hbad
    · have hend : c.lineEnd = crlf := if_neg (by omega)
      rw [hend, ← heq] at hspells
      rw [hend]
      refine ⟨?_, hspells.1, hspells.2.1⟩
      rw [receive_readIndex, heq]
      rfl
    · have hend : c.lineEnd = [10] := if_pos (by omega)
      rw [hend, ← hlast] at hspells
      rw [hend]
      refine ⟨?_, ?_, hspells.1⟩
      · rw [receive_readIndex, ← hlast]
        rfl
      · rw [readBuf_receive _ _ (by omega), hcr]
    · apply absurd hbad hbyte
  obtain ⟨hread, hcr, hlf⟩ := hfound
  have hcheck := h.between.le_read
  have hbetween := h.between.receive c.lineEnd (by omega)
  have hlt : (c.receive c.lineEnd).checkIndex + 1 < (c.receive c.lineEnd).readIndex := by
    rw [hread]
    apply Nat.lt_succ_self _
  refine ⟨hread, ?_, hbetween.closeLine hlt⟩
  rw [headerLine, parseLine_stop (by rw [receive_checkIndex, hcr]; rintro ⟨-, ⟨⟩⟩),
    endLine_crlf hbetween.le_size hlt hcr hlf]
  rfl

theorem Drained.fits_lineEnd {c : Parser} (h : Drained c) (hbyte : ¬ c.AtBadByte)
    (hroom : c.readIndex + 2 ≤ readBuffSize) :
  (c.receive c.lineEnd).readIndex ≤ readBuffSize
  := by
  rw [(h.headerLine_lineEnd hbyte hroom).1]
  apply (Nat.add_le_add_right h.between.le_read 2).trans hroom

/-- The closed line says what was scanned. -/
theorem Drained.text_lineClosed {c : Parser} (h : Drained c) (hbyte : ¬ c.AtBadByte)
    (hroom : c.readIndex + 2 ≤ readBuffSize) :
  c.lineClosed.text c.startLine = c.lineText
  := by
  have hread := h.between.le_read
  have hlt : c.checkIndex < readBuffSize := by omega
  have hbetween := h.between.receive c.lineEnd (h.fits_lineEnd hbyte hroom)
  apply (hbetween.text_closeLine hlt).trans
  apply stringAt_congr h.between.le_check hlt (Function.update_self ..)
  intro j _ hj
  change Function.update (c.receive c.lineEnd).readBuf c.checkIndex 0 j
    = Function.update c.readBuf c.checkIndex 0 j
  rcases Nat.eq_or_lt_of_le hj with rfl | hj
  · rw [Function.update_self, Function.update_self]
  · rw [Function.update_of_ne (by omega), Function.update_of_ne (by omega),
      readBuf_receive _ _ (by omega)]

/-- The empty line is ended where it was scanned to. -/
theorem Drained.endedAt {c : Parser} (h : Drained c) (hbyte : ¬ c.AtBadByte)
    (hroom : c.readIndex + 2 ≤ readBuffSize) :
  EndedAt c c.checkIndex c.lineClosed
  := by
  have hcheck := h.between.le_check
  have hkeeps : Keeps (c.receive c.lineEnd) c.lineClosed :=
    keeps_closeLine (c := c.receive c.lineEnd) hcheck
  exact { (keeps_receive c c.lineEnd (hcheck.trans h.between.le_read)).trans hkeeps with
    ends := (h.headerLine_lineEnd hbyte hroom).2.2, le := hcheck, checkIndex := rfl,
    contentLength := rfl }

/-- The URL that the NUL behind the body leaves starts with its slash. -/
theorem slash_of_not_refused {c : Parser} {k u e : ℕ} (h : ¬ Refused c k) (he : UrlEnds c u e)
    (hslash : c.readBuf u = 47) (hne : c.contentLength ≠ 0) :
  (c.cut k).readBuf u = 47
  := by
  change Function.update c.readBuf (k + 2 + c.contentLength).toNat 0 u = 47
  by_cases hu : u = (k + 2 + c.contentLength).toNat
  · exfalso
    apply h
    refine .noUrl hne he.url (stringAt_spells (l := []) trivial ?_ List.not_mem_nil ?_)
    · change Function.update c.readBuf (k + 2 + c.contentLength).toNat 0 u = 0
      rw [hu, Function.update_self]
    · apply he.le.trans_lt he.lt_size
  · rw [Function.update_of_ne hu, hslash]

/-! ### Lines that go on -/

/-- Plain bytes that arrive behind what was scanned. -/
theorem Drained.receive_plain {c : Parser} (h : Drained c) (hopen : c.checkIndex = c.readIndex)
    {bs : List UInt8} (hplain : ∀ b ∈ bs, isPlain b = true)
    (hsize : (c.receive bs).readIndex ≤ readBuffSize) :
  (c.receive bs).processRead
      = .ok (.returned .noRequest, (c.receive bs).scannedTo (c.readIndex + bs.length)) ∧
    Drained ((c.receive bs).scannedTo (c.readIndex + bs.length))
  := by
  have hbytes {k : ℕ} (hk : c.readIndex ≤ k) (hlt : k < c.readIndex + bs.length) :
      isPlain ((c.receive bs).readBuf k) = true := by
    obtain ⟨i, rfl⟩ := Nat.exists_eq_add_of_le hk
    have hi : i < bs.length := by omega
    rw [(spells_receive c bs).getElem hi]
    apply hplain _ (List.getElem_mem hi)
  obtain ⟨k, hk, -, hscanned, ⟨hcall, hd⟩ | ⟨⟨hlt, hcr, -⟩, -, -⟩⟩ := h.call_cases hsize
  · have hle : k ≤ c.readIndex + bs.length := hscanned.le_read
    have hend : k = c.readIndex + bs.length := by
      by_contra hne
      have hstands := hd.stands (Nat.lt_of_le_of_ne hle hne)
      change isPlain ((c.receive bs).readBuf k) = false at hstands
      rw [hbytes (by omega) (by omega)] at hstands
      cases hstands
    subst hend
    exact ⟨hcall, hd⟩
  · have hcr' := hbytes (k := k) (by omega) (Nat.lt_of_succ_lt hlt)
    rw [hcr] at hcr'
    cases hcr'

/-- A line that is not settled is all that was received of it. -/
theorem Between.length_lineText {c : Parser} (h : Between c) (hlt : c.checkIndex < readBuffSize)
    (hsettled : ¬ c.Settled) :
  c.startLine + c.lineText.length = c.checkIndex
  := by
  have hle : c.startLine + c.lineText.length ≤ c.checkIndex :=
    stringAt_length h.le_check hlt (Function.update_self ..)
  by_contra hne
  have hlt' : c.startLine + c.lineText.length < c.checkIndex := by omega
  apply hsettled
  refine .inr ⟨_, Nat.le_add_right _ _, hlt', ?_⟩
  have hend : (c.put c.checkIndex 0).readBuf (c.startLine + c.lineText.length) = 0 :=
    stringAt_end (hle.trans_lt hlt)
  change Function.update c.readBuf c.checkIndex 0 (c.startLine + c.lineText.length) = 0 at hend
  rwa [Function.update_of_ne (Nat.ne_of_lt hlt')] at hend

/-- A byte that arrives in a line that is not settled. -/
theorem Between.lineText_receive {c : Parser} (h : Between c) (hsettled : ¬ c.Settled)
    (hroom : c.readIndex + 1 < readBuffSize) {b : UInt8} (hb : b ≠ 0) :
  ((c.receive [b]).scannedTo (c.readIndex + 1)).lineText = c.lineText ++ [b]
  := by
  have hread := h.le_read
  have hopen : c.checkIndex = c.readIndex := by
    by_contra hne
    apply hsettled (.inl (by omega))
  have hlen := h.length_lineText (by omega) hsettled
  have hspells : Spells (c.put c.checkIndex 0).readBuf c.startLine c.lineText :=
    spells_stringAt _ _ _
  have hnul : 0 ∉ c.lineText := not_mem_stringAt _ _ _
  apply stringAt_spells
  · rw [spells_append]
    change Spells _ c.startLine _ ∧ Spells _ (c.startLine + c.lineText.length) _
    rw [hlen]
    constructor
    · apply hspells.congr
      intro i _ hi
      change Function.update (c.receive [b]).readBuf (c.readIndex + 1) 0 i
        = Function.update c.readBuf c.checkIndex 0 i
      rw [Function.update_of_ne (by omega), Function.update_of_ne (by omega),
        readBuf_receive _ _ (by omega)]
    · refine ⟨?_, trivial⟩
      change Function.update (c.receive [b]).readBuf (c.readIndex + 1) 0 c.checkIndex = b
      rw [Function.update_of_ne (by omega), hopen]
      apply (spells_receive c [b]).1
  · rw [List.length_append, List.length_singleton, ← Nat.add_assoc]
    change Function.update _ (c.readIndex + 1) 0 (c.startLine + c.lineText.length + 1) = 0
    rw [hlen, hopen, Function.update_self]
  · rw [List.mem_append, not_or, List.mem_singleton]
    exact ⟨hnul, Ne.symm hb⟩
  · rw [List.length_append, List.length_singleton, ← Nat.add_assoc]
    change c.startLine + c.lineText.length + 1 < readBuffSize
    omega

/-- The version that is served does not end with an `x`. -/
theorem append_ne_line (l : List UInt8) (w : Words) :
  l ++ [120] ≠ w.line
  := by
  intro h
  have hversion : w.version.map toLower = (ascii "HTTP/1.1").map toLower :=
    eq_of_beq w.version_http
  have hne : w.version ≠ [] := by
    intro hnil
    rw [hnil] at hversion
    cases hversion
  have hlast : w.version.getLast? = some 120 := by
    have hend := congrArg List.getLast? h
    rw [List.getLast?_concat, Words.line, List.getLast?_append_of_ne_nil _ (by simp),
      List.getLast?_cons_of_ne_nil (by simp), List.getLast?_append_of_ne_nil _ (by simp),
      List.getLast?_cons_of_ne_nil hne] at hend
    apply hend.symm
  have hlower := congrArg List.getLast? hversion
  rw [List.getLast?_map, hlast] at hlower
  apply absurd hlower (by decide)

/-- A parser that waits for a line that is not settled waits for any byte. -/
theorem Drained.checkIndex_eq {c : Parser} (h : Drained c) (hsettled : ¬ c.Settled) :
  c.checkIndex = c.readIndex
  := by
  have hread := h.between.le_read
  by_contra hne
  apply hsettled (.inl (by omega))

/-! ### Ends of lines -/

section Waiting

variable {t : HttpTask} {query : List UInt8 → ℤ} {stat : List UInt8 → Answer}

/-- Whether a chunk gives a code depends on what `process_read` makes of it. -/
theorem Answers.congr {c d : Parser} {chunk chunk' : List UInt8}
    (h : d.Answers t query stat chunk') (hsize : (c.receive chunk).readIndex ≤ readBuffSize)
    (hcall : (c.receive chunk).processRead = (d.receive chunk').processRead) :
  c.Answers t query stat chunk
  := by
  obtain ⟨-, ret, d', hread, hne⟩ := h
  refine ⟨hsize, ret, d', ?_, hne⟩
  rw [HttpTask.processRead] at hread ⊢
  dsimp only at hread ⊢
  rw [hcall]
  apply hread

/-- The empty line turns to a body whose end there is room for. -/
theorem Drained.bodyAhead {c : Parser} (h : Drained c) (hbyte : ¬ c.AtBadByte)
    (hroom : c.readIndex + 2 + formRoom ≤ readBuffSize)
    (hbody : c.checkIndex + 2 + c.contentLength + formRoom ≤ readBuffSize)
    (hlength : c.contentLength ≠ 0) (hrefused : ¬ Refused c c.checkIndex) :
  BodyAhead c.lineClosed.toBody ∧
    c.lineClosed.toBody.readIndex = c.lineClosed.toBody.startLine
  := by
  have hroom' : c.readIndex + 2 ≤ readBuffSize := by omega
  have hread := h.between.le_read
  have hindex : c.lineClosed.toBody.readIndex = c.checkIndex + 2 :=
    (h.headerLine_lineEnd hbyte hroom').1
  have hplace : ¬ (c.checkIndex + 2 + c.contentLength < 0) := fun hout =>
    hrefused (.outside (.inl hout))
  refine ⟨{ (h.endedAt hbyte hroom').inBuffer_toBody with
    checkState := rfl, ends := ?_, room := ?_, room_body := ?_ }, hindex⟩
  · change (c.lineClosed.toBody.readIndex : ℤ) < (c.checkIndex + 2 : ℕ) + c.contentLength ∨
      c.checkIndex + 2 = c.lineClosed.toBody.readIndex ∧ c.contentLength < 0 ∧
        0 ≤ ((c.checkIndex + 2 : ℕ) : ℤ) + c.contentLength
    omega
  · rw [hindex]
    omega
  · change ((c.checkIndex + 2 : ℕ) : ℤ) + c.contentLength + formRoom ≤ readBuffSize
    omega

/-- The body behind the empty line is completed. -/
theorem Drained.answers_toBody {c : Parser} (h : Drained c) (hs : Stands c)
    (hc : c.checkState = .header) (hbyte : ¬ c.AtBadByte)
    (hroom : c.readIndex + 2 + formRoom ≤ readBuffSize)
    (hbody : c.checkIndex + 2 + c.contentLength + formRoom ≤ readBuffSize)
    (hlength : c.contentLength ≠ 0) (hrefused : ¬ Refused c c.checkIndex) :
  c.lineClosed.toBody.Answers t query stat c.lineClosed.toBody.bodyEnd
  := by
  obtain ⟨u, e, he, hslash, hu⟩ := hs.url (by rw [hc]; decide)
  have hcheck := h.between.le_check
  obtain ⟨hahead, hnone⟩ := h.bodyAhead hbyte hroom hbody hlength hrefused
  have hd := h.endedAt hbyte (show c.readIndex + 2 ≤ readBuffSize by omega)
  have hput : UrlEnds (c.cut c.checkIndex) u e := he.put _
  apply hahead.answers (show u + 11 ≤ c.checkIndex + 2 by omega) hput
    (slash_of_not_refused hrefused he hslash hlength) (hd.keeps_bodyTaken _)
  intro p hp
  apply fits_of_short
  · by_contra hlong
    exact hrefused (.longUrl hlength hp (not_le.mp hlong))
  · rw [received, length_bytes, hnone, Nat.sub_self]
    decide

/-- The end of the empty line, and of a body that fits into the buffer. -/
theorem Drained.repairable_emptyLine {c : Parser} (h : Drained c) (hs : Stands c)
    (hc : c.checkState = .header) (hbyte : ¬ c.AtBadByte)
    (hroom : c.readIndex + 2 + formRoom ≤ readBuffSize)
    (hbody : c.checkIndex + 2 + c.contentLength + formRoom ≤ readBuffSize) (hline : c.lineText = [])
    (hrefused : ¬ Refused c c.checkIndex) :
  Repairable t query stat c
  := by
  have hroom' : c.readIndex + 2 ≤ readBuffSize := by omega
  have hsize := h.fits_lineEnd hbyte hroom'
  obtain ⟨-, hl, hends⟩ := h.headerLine_lineEnd hbyte hroom'
  have hbetween := h.between.receive _ hsize
  have htext := (h.text_lineClosed hbyte hroom').trans hline
  have hnul := readBuf_of_text_nil htext (hends.ends.le.trans_lt hends.ends.lt_size)
  by_cases hlength : c.contentLength = 0
  · obtain ⟨u, e, he, hslash, -⟩ := hs.url (by rw [hc]; decide)
    have hcall := (hbetween.processRead_emptyLine h.header hl hc hnul).1 hlength
    have hkeeps := (h.endedAt hbyte hroom').keeps_nextLine
    have hslash' := (hkeeps.readBuf u (he.le.trans_lt he.lt)).trans hslash
    refine (Answers.of_doRequest hsize hcall ?_).repairable
    apply (he.keeps hkeeps).passes (q := 0) (l := []) hslash'
    intro p hp
    exact absurd (.noBody hlength ((he.credentialed_iff hkeeps).mp hp)) hrefused
  · have hanswers : c.lineClosed.toBody.Answers t query stat c.lineClosed.toBody.bodyEnd :=
      h.answers_toBody hs hc hbyte hroom hbody hlength hrefused
    have hbytes := (h.bodyAhead hbyte hroom hbody hlength hrefused).1.receive_bodyEnd.2
    have happend : c.receive (c.lineEnd ++ c.lineClosed.toBody.bodyEnd)
        = (c.receive c.lineEnd).receive c.lineClosed.toBody.bodyEnd := (receive_append ..).symm
    have hsize' :
        (c.receive (c.lineEnd ++ c.lineClosed.toBody.bodyEnd)).readIndex ≤ readBuffSize := by
      rw [happend]
      exact hbytes
    rw [(readPass_emptyLine (c := c.lineClosed) hc hnul).2 hlength] at hl
    refine (hanswers.congr hsize' ?_).repairable
    rw [happend, (hbetween.receive _ hbytes).processRead_eq h.header,
      hbetween.firstPoint_receive h.header _ hbytes, firstPoint, Loop.whileLoop_inr _ hl]
    rfl

/-! ### At the beginning of a header line -/

/-- A header line that declares a body of `-v` bytes. -/
def lengthLine (v : ℕ) : List UInt8 := ascii "Content-Length:" ++ Printf.padded 5 (-v)

theorem length_lengthLine {v : ℕ} (hpos : 0 < v) (hlt : v < 10000) :
  (lengthLine v).length = 20
  := by
  rw [lengthLine, List.length_append, Printf.length_padded_neg (by decide) (by omega) (by omega)]
  rfl

/-- A byte of a number that is printed is no white space and ends no line. -/
theorem isLineByte_of_mem_padded {w : ℕ} {n : ℤ} {b : UInt8} (hb : b ∈ Printf.padded w n) :
  isLineByte b = true ∧ isBlank b = false
  := by
  have hne {b' : UInt8} (h : ¬ (b' = 45 ∨ isDigit b' = true)) : b ≠ b' := by
    rintro rfl
    apply h (Printf.mem_padded hb)
  constructor
  · rw [isLineByte, isPlain, Bool.and_eq_true, Bool.and_eq_true, bne_iff_ne, bne_iff_ne, bne_iff_ne]
    exact ⟨⟨hne (by decide), hne (by decide)⟩, hne (by decide)⟩
  · rw [isBlank, Bool.or_eq_false_iff, beq_eq_false_iff_ne, beq_eq_false_iff_ne]
    exact ⟨hne (by decide), hne (by decide)⟩

theorem isLineByte_lengthLine (v : ℕ) :
  ∀ b ∈ lengthLine v, isLineByte b = true
  := by
  intro b hb
  have hname : ∀ b ∈ ascii "Content-Length:", isLineByte b = true :=
    List.all_eq_true.mp (by decide)
  rcases List.mem_append.mp hb with hb | hb
  · apply hname b hb
  · apply (isLineByte_of_mem_padded hb).1

theorem lengthAfter_lengthLine {v : ℕ} (hlt : v < 10000) (n : ℤ) :
  lengthAfter n (lengthLine v) = -v
  := by
  have hprefix : hasPrefixIgnoreCase (lengthLine v) (ascii "Content-Length:") = true := by
    rw [hasPrefixIgnoreCase, lengthLine, List.take_left' rfl]
    apply beq_self_eq_true _
  have hdrop : (lengthLine v).drop 15 = Printf.padded 5 (-v) := List.drop_left' rfl
  have hblank : (Printf.padded 5 (-v)).dropWhile isBlank = Printf.padded 5 (-v) := by
    cases hl : Printf.padded 5 (-v) with
    | nil => rfl
    | cons b l =>
        have hb : b ∈ Printf.padded 5 (-v) := hl ▸ List.mem_cons_self
        rw [List.dropWhile_cons_of_neg (by rw [(isLineByte_of_mem_padded hb).2]; decide)]
  rw [lengthAfter, if_pos hprefix, hdrop, hblank, Printf.atol_padded (by omega) (by omega), toInt32]
  apply Int.bmod_eq_of_le
  · omega
  · omega

/-- A header line leaves the URL. -/
theorem AtHeader.url_receive {c c' : Parser} {k : ℕ} {n : ℤ} (h : AtHeader c k n)
    {line : List UInt8} (hline : ∀ b ∈ line, isLineByte b = true)
    (hroom : k + line.length + 2 ≤ readBuffSize)
    (hpoint : (c.receive (line ++ crlf)).firstPoint = .ok (none, c')) :
  c'.url = c.url
  := by
  obtain ⟨hl, -⟩ := h.headerLine hline hroom
  obtain ⟨pass, d, hp, hpass⟩ := readPass_header_cases
    (show (c.lineRead line).checkState = .header from h.checkState)
  by_cases hagain : pass = .again .lineOk ∧ d.checkState ≠ .content
  · obtain ⟨rfl, hheader⟩ := hagain
    rw [(h.receive_line hline hroom hp hheader).1] at hpoint
    cases hpoint
    apply hpass.url
  · exfalso
    rw [hp] at hl
    rcases hpass.pass with rfl | rfl
    · rw [afterHeader, if_pos (not_not.mp fun hc => hagain ⟨rfl, hc⟩)] at hl
      rw [firstPoint, Loop.whileLoop_inr _ hl] at hpoint
      cases hpoint
    · rw [afterHeader] at hl
      rw [firstPoint, Loop.whileLoop_inr _ hl] at hpoint
      cases hpoint

/-- A NUL behind the first byte of the URL leaves nothing of it but its slash, and nothing is
refused. -/
theorem not_refused_of_slash {c : Parser} {u e : ℕ} (he : UrlEnds c u e) (hslash : c.readBuf u = 47)
    (hlt : u + 1 < readBuffSize) {k : ℕ} (hne : c.contentLength ≠ 0)
    (hplace : k + 2 + c.contentLength = u + 1) :
  ¬ Refused c k
  := by
  have hbuf : readBuffSize = 2048 := rfl
  have hnul : (k + 2 + c.contentLength).toNat = u + 1 := by omega
  have htext : (c.cut k).text u = [47] := by
    rw [Parser.cut, hnul]
    apply stringAt_spells (l := [47])
    · refine ⟨?_, trivial⟩
      change Function.update c.readBuf (u + 1) 0 u = 47
      rw [Function.update_of_ne (Nat.ne_of_lt (Nat.lt_succ_self u)), hslash]
    · apply Function.update_self ..
    · decide
    · apply hlt
  rintro (⟨hzero, -⟩ | hout | ⟨-, hu, hnil⟩ | ⟨-, hp, hlong⟩)
  · apply hne hzero
  · omega
  · cases he.url.symm.trans hu
    rw [htext] at hnil
    cases hnil
  · cases he.url.symm.trans hp.url
    rw [htext] at hlong
    apply absurd hlong (by decide)

/-- Nothing was scanned of the line. -/
theorem AtHeader.lineText {c : Parser} {k : ℕ} {n : ℤ} (h : AtHeader c k n)
    (hk : k < readBuffSize) :
  c.lineText = []
  := by
  apply stringAt_spells (l := []) trivial
  · change Function.update c.readBuf c.checkIndex 0 c.startLine = 0
    rw [h.startLine, h.checkIndex, Function.update_self]
  · apply List.not_mem_nil
  · change c.startLine < readBuffSize
    rw [h.startLine]
    apply hk

/-- At the beginning of a header line: a line that declares a body so negative that the NUL
behind it leaves nothing of the URL but its slash, and the empty line. -/
theorem AtHeader.repairable {c : Parser} {k : ℕ} {n : ℤ} (h : AtHeader c k n)
    {chunks : List (List UInt8)} (hc : Unfinished init chunks c)
    (hroom : k + (ascii "Content-Length:-0000\r\n\r\n").length + formRoom ≤ readBuffSize) :
  Repairable t query stat c
  := by
  have hlen : (ascii "Content-Length:-0000\r\n\r\n").length = 24 := rfl
  have hbuf : readBuffSize = 2048 := rfl
  obtain ⟨u, e, he, -, hu⟩ := hc.stands.url (by rw [h.checkState]; decide)
  rw [h.startLine] at hu
  obtain ⟨v, hv⟩ : ∃ v, k + 23 = u + v := ⟨k + 23 - u, by omega⟩
  have hline := isLineByte_lengthLine v
  have hlength := length_lengthLine (v := v) (by omega) (by omega)
  obtain ⟨d, hpoint, hd, -⟩ := h.receive_header (List.ne_nil_of_length_pos (by omega)) hline
    (by omega)
  have hsize : (c.receive (lengthLine v ++ crlf)).readIndex ≤ readBuffSize := by
    rw [receive_readIndex, h.readIndex, List.length_append, hlength]
    change k + 22 ≤ readBuffSize
    omega
  obtain ⟨-, -, hcall⟩ := h.drained.wait hsize hpoint
  have hurl := (h.url_receive hline (by omega) hpoint).trans he.url
  rw [lengthAfter_lengthLine (by omega), hlength] at hd
  have hs := (hc.append hsize hcall).stands
  obtain ⟨u', e', he', hslash, -⟩ := hs.url (by rw [hd.checkState]; decide)
  cases hurl.symm.trans he'.url
  apply Repairable.of_call hsize hcall
  apply hd.drained.repairable_emptyLine hs hd.checkState
  · rintro ⟨hlt, -⟩
    rw [hd.checkIndex, hd.readIndex] at hlt
    apply absurd hlt (lt_irrefl _)
  · rw [hd.readIndex]
    omega
  · rw [hd.checkIndex, hd.contentLength]
    omega
  · apply hd.lineText
    omega
  · apply not_refused_of_slash he' hslash
    · omega
    · rw [hd.contentLength]
      omega
    · rw [hd.checkIndex, hd.contentLength]
      omega

/-! ### Lines that are waited for -/

/-- A line that ends the header phase with a code. -/
theorem Drained.repairable_of_code {c c' : Parser} (h : Drained c) (hbyte : ¬ c.AtBadByte)
    (hroom : c.readIndex + 2 ≤ readBuffSize) {ret : HttpCode} (hne : ret ≠ .noRequest)
    (hpass : c.lineClosed.readPass = .ok (.exit (.returned ret), c')) :
  Repairable t query stat c
  := by
  have hsize := h.fits_lineEnd hbyte hroom
  have hl := (h.headerLine_lineEnd hbyte hroom).2.1
  rw [hpass] at hl
  have hcall := (h.between.receive _ hsize).processRead_of_headerLine h.header hl
  apply (Answers.of_returned hsize hcall hne).repairable

/-- A line behind which a header line is waited for. -/
theorem Drained.repairable_of_again {c c' : Parser} (h : Drained c)
    {chunks : List (List UInt8)} (hc : Unfinished init chunks c) (hbyte : ¬ c.AtBadByte)
    (hroom : c.readIndex + (ascii "\r\nContent-Length:-0000\r\n\r\n").length + formRoom
      ≤ readBuffSize)
    (hpass : c.lineClosed.readPass = .ok (.again .lineOk, c')) (hc' : c'.checkState = .header) :
  Repairable t query stat c
  := by
  have hlen : (ascii "\r\nContent-Length:-0000\r\n\r\n").length = 26 := rfl
  have hlen' : (ascii "Content-Length:-0000\r\n\r\n").length = 24 := rfl
  have hroom' : c.readIndex + 2 ≤ readBuffSize := by omega
  have hread := h.between.le_read
  have hsize := h.fits_lineEnd hbyte hroom'
  obtain ⟨hindex, hl, hends⟩ := h.headerLine_lineEnd hbyte hroom'
  obtain ⟨hbetween, hstart⟩ := hends.readPass_between h.header hpass
  have hindices := readPass_sameIndices hpass
  have hcheck : c'.checkIndex = c.checkIndex + 2 := hindices.checkIndex
  have hread' : c'.readIndex = c.checkIndex + 2 := hindices.readIndex.trans hindex
  have hcontent : c'.checkState ≠ .content := by
    rw [hc']
    decide
  have hheader : AtHeader c' (c.checkIndex + 2) c'.contentLength :=
    { between := hbetween, header := hcontent, startLine := hstart.trans hcheck,
      checkIndex := hcheck, readIndex := hread', checkState := hc', contentLength := rfl }
  have hpoint : (c.receive c.lineEnd).firstPoint = .ok (none, c') := by
    rw [← hheader.firstPoint]
    apply Loop.whileLoop_inl
    rw [hl, hpass, afterHeader, if_neg hcontent]
  obtain ⟨-, -, hcall⟩ := h.wait hsize hpoint
  apply Repairable.of_call hsize hcall
  apply hheader.repairable (hc.append hsize hcall)
  omega

/-- The end of a request line with a target that is not hopeless. -/
theorem Drained.repairable_requestLine {c : Parser} (h : Drained c)
    {chunks : List (List UInt8)} (hun : Unfinished init chunks c)
    (hc : c.checkState = .requestLine) (hbyte : ¬ c.AtBadByte)
    (hroom : c.readIndex + (ascii "\r\nContent-Length:-0000\r\n\r\n").length + formRoom
      ≤ readBuffSize)
    (hline : ¬ ∃ w : Words, c.lineText = w.line ∧ pathless w.target = true) :
  Repairable t query stat c
  := by
  have hlen : (ascii "\r\nContent-Length:-0000\r\n\r\n").length = 26 := rfl
  have hroom' : c.readIndex + 2 ≤ readBuffSize := by omega
  obtain ⟨-, -, hends⟩ := h.headerLine_lineEnd hbyte hroom'
  have hc' : c.lineClosed.checkState = .requestLine := hc
  rcases hends.readPass_requestLine hc' with hfault | ⟨c', -, ⟨hpass, -⟩ | ⟨hpass, hc', -⟩⟩
  · exfalso
    have hd : Ends c.lineClosed.nextLine c.startLine (c.lineClosed.checkIndex - 2) :=
      { hends.ends with }
    have hend : c.lineClosed.checkIndex - 2 + 2 ≤ readBuffSize := by
      have := hends.room
      have := hends.le_read
      have := hends.le_size
      omega
    obtain ⟨r, hr⟩ := hd.parseRequestLine_ok hend
      (by rw [show c.lineClosed.nextLine.text c.startLine = c.lineText from
            h.text_lineClosed hbyte hroom']
          apply hline)
    have hc'' : c.lineClosed.nextLine.checkState = .requestLine := hc
    have hr' : c.lineClosed.nextLine.parseRequestLine c.lineClosed.startLine = .ok r := hr
    rw [readPass, parseText_requestLine hc'', hr'] at hfault
    cases hfault
  · apply h.repairable_of_code hbyte hroom' (by decide) hpass
  · apply h.repairable_of_again hun hbyte hroom hpass hc'

/-- The end of a header line that is not empty. -/
theorem Drained.repairable_headerLine {c : Parser} (h : Drained c)
    {chunks : List (List UInt8)} (hun : Unfinished init chunks c)
    (hc : c.checkState = .header) (hbyte : ¬ c.AtBadByte)
    (hroom : c.readIndex + (ascii "\r\nContent-Length:-0000\r\n\r\n").length + formRoom
      ≤ readBuffSize)
    (hline : c.lineText ≠ []) :
  Repairable t query stat c
  := by
  have hlen : (ascii "\r\nContent-Length:-0000\r\n\r\n").length = 26 := rfl
  have hroom' : c.readIndex + 2 ≤ readBuffSize := by omega
  obtain ⟨-, -, hends⟩ := h.headerLine_lineEnd hbyte hroom'
  have hd : Ends c.lineClosed.nextLine c.startLine (c.lineClosed.checkIndex - 2) :=
    { hends.ends with }
  obtain ⟨hret, hstate, -⟩ := hd.parseHeaders_line (h.text_lineClosed hbyte hroom') hline
  have hpass : c.lineClosed.readPass
      = .ok (.again .lineOk, (c.lineClosed.nextLine.parseHeaders c.startLine).2) := by
    rw [readPass_of_header (c := c.lineClosed) hc]
    change Except.ok (passOf .header (c.lineClosed.nextLine.parseHeaders c.startLine).1, _) = _
    rw [hret]
    rfl
  apply h.repairable_of_again hun hbyte hroom hpass (hstate.trans hc)

/-- One more byte spoils the version of a request line that is not settled. -/
theorem Drained.repairable_version {c : Parser} (h : Drained c)
    {chunks : List (List UInt8)} (hun : Unfinished init chunks c)
    (hc : c.checkState = .requestLine) (hsettled : ¬ c.Settled)
    (hroom : c.readIndex + (ascii "x\r\nContent-Length:-0000\r\n\r\n").length + formRoom
      ≤ readBuffSize) :
  Repairable t query stat c
  := by
  have hlen : (ascii "x\r\nContent-Length:-0000\r\n\r\n").length = 27 := rfl
  have hlen' : (ascii "\r\nContent-Length:-0000\r\n\r\n").length = 26 := rfl
  have hopen := h.checkIndex_eq hsettled
  have hsize : (c.receive [120]).readIndex ≤ readBuffSize := by
    rw [receive_readIndex, List.length_singleton]
    omega
  have hplain : ∀ b ∈ [(120 : UInt8)], isPlain b = true := List.all_eq_true.mp (by decide)
  obtain ⟨hcall, hd⟩ := h.receive_plain hopen hplain hsize
  have htext := h.between.lineText_receive hsettled (b := 120) (by omega) (by decide)
  apply Repairable.of_call hsize hcall
  apply hd.repairable_requestLine (hun.append hsize hcall) hc
  · rintro ⟨hlt, -⟩
    apply absurd hlt (Nat.lt_irrefl _)
  · change c.readIndex + 1 + _ + _ ≤ _
    omega
  · rintro ⟨w, hw, -⟩
    apply append_ne_line c.lineText w (htext.symm.trans hw)

/-- At the beginning of a header line that is not settled. -/
theorem Drained.repairable_open {c : Parser} (h : Drained c)
    {chunks : List (List UInt8)} (hun : Unfinished init chunks c) (hc : c.checkState = .header)
    (hsettled : ¬ c.Settled) (hline : c.lineText = [])
    (hroom : c.readIndex + (ascii "Content-Length:-0000\r\n\r\n").length + formRoom
      ≤ readBuffSize) :
  Repairable t query stat c
  := by
  have hlen : (ascii "Content-Length:-0000\r\n\r\n").length = 24 := rfl
  have hopen := h.checkIndex_eq hsettled
  have hstart := h.between.length_lineText (by omega) hsettled
  rw [hline, List.length_nil, Nat.add_zero] at hstart
  have hheader : AtHeader c c.checkIndex c.contentLength :=
    { between := h.between, header := h.header, startLine := hstart, checkIndex := rfl,
      readIndex := hopen.symm, checkState := hc, contentLength := rfl }
  apply hheader.repairable hun
  omega

/-- Where the empty line ends does not matter, when the end of the body is behind its beginning. -/
theorem UrlEnds.refused_of_refused {c : Parser} {u e k k' : ℕ} (he : UrlEnds c u e)
    (hk : c.startLine ≤ k + 2 + c.contentLength) (hlt : k + 2 + c.contentLength < 2 ^ 31)
    (hk' : c.startLine ≤ k' + 2 + c.contentLength) (h : Refused c k) :
  Refused c k'
  := by
  have hkeeps : Keeps c (c.cut k) := keeps_put c 0 (by omega)
  have hkeeps' : Keeps c (c.cut k') := keeps_put c 0 (by omega)
  rcases h with ⟨hzero, h⟩ | hout | ⟨hne, hu, h⟩ | ⟨hne, h, hlong⟩
  · exact .noBody hzero h
  · omega
  · cases he.url.symm.trans hu
    rw [he.text_eq hkeeps] at h
    exact .noUrl hne hu ((he.text_eq hkeeps').trans h)
  · cases he.url.symm.trans h.url
    rw [he.text_eq hkeeps] at hlong
    exact .longUrl hne ((he.credentialed_iff hkeeps').mpr ((he.credentialed_iff hkeeps).mp h))
      ((he.text_eq hkeeps').symm ▸ hlong)

/-- There is a place near by where the empty line can be ended. -/
theorem Drained.exists_not_refused {c : Parser} (h : Drained c) (hs : Stands c)
    (hc : c.checkState = .header) (hsettled : c.Settled) (hline : c.lineText = [])
    (hbody : c.checkIndex + |c.contentLength| + 2 + formRoom ≤ readBuffSize)
    (hhope : ¬ Hopeless c) :
  ∃ k, c.checkIndex ≤ k ∧ (c.checkIndex < c.readIndex → k = c.checkIndex) ∧
    k ≤ c.checkIndex + (-c.contentLength).toNat ∧ ¬ Refused c k
  := by
  have hcheck := h.between.le_check
  have hbuf : readBuffSize = 2048 := rfl
  obtain ⟨u, e, he, -, -⟩ := hs.url (by rw [hc]; decide)
  have hneg := neg_le_abs c.contentLength
  have hpos := le_abs_self c.contentLength
  by_contra hnone
  simp only [not_exists, not_and, not_not] at hnone
  apply hhope
  refine .emptyLine hc hsettled hline fun k hk hstands => ?_
  by_cases hle : k ≤ c.checkIndex + (-c.contentLength).toNat
  · apply hnone k hk hstands hle
  · -- further on nothing changes
    apply he.refused_of_refused (k := c.checkIndex + (-c.contentLength).toNat)
    · omega
    · omega
    · omega
    · apply hnone
      · apply Nat.le_add_right
      · intro hlt
        have := hstands hlt
        omega
      · exact le_rfl

/-- A longer empty line is ended where nothing is refused. -/
theorem Drained.repairable_padded {c : Parser} (h : Drained c) {chunks : List (List UInt8)}
    (hun : Unfinished init chunks c) (hc : c.checkState = .header) (hsettled : c.Settled)
    (hline : c.lineText = []) (hopen : c.checkIndex = c.readIndex) {k : ℕ} (hk : c.checkIndex ≤ k)
    (hroom : k + 2 + formRoom ≤ readBuffSize)
    (hbody : k + 2 + c.contentLength + formRoom ≤ readBuffSize) (hrefused : ¬ Refused c k) :
  Repairable t query stat c
  := by
  obtain ⟨u, e, he, -, -⟩ := hun.stands.url (by rw [hc]; decide)
  let pad := List.replicate (k - c.checkIndex) (120 : UInt8)
  have hlen : c.readIndex + pad.length = k := by
    rw [List.length_replicate]
    omega
  have hplain : ∀ b ∈ pad, isPlain b = true := by
    intro b hb
    rw [List.eq_of_mem_replicate hb]
    decide
  have hsize : (c.receive pad).readIndex ≤ readBuffSize := by
    rw [receive_readIndex, hlen]
    omega
  obtain ⟨hcall, hd⟩ := h.receive_plain hopen hplain hsize
  rw [hlen] at hcall hd
  have hkeeps : Keeps c ((c.receive pad).scannedTo k) :=
    (keeps_receive c pad (h.between.le_check.trans h.between.le_read)).trans (keeps_scannedTo _ k)
  have htext := hsettled.lineText_scannedTo h.between hk (fun hlt => absurd hopen hlt.ne) pad
  have hread : ((c.receive pad).scannedTo k).readIndex = k := hlen
  apply Repairable.of_call hsize hcall
  apply hd.repairable_emptyLine (hun.append hsize hcall).stands hc
  · rintro ⟨hlt, -⟩
    rw [hread] at hlt
    exact absurd hlt (lt_irrefl _)
  · rw [hread]
    exact hroom
  · exact hbody
  · exact htext.trans hline
  · rw [he.refused_iff hkeeps rfl]
    exact hrefused

/-- The empty line can be ended where nothing is refused. -/
theorem Drained.repairable_settled {c : Parser} (h : Drained c) {chunks : List (List UInt8)}
    (hun : Unfinished init chunks c) (hc : c.checkState = .header) (hbyte : ¬ c.AtBadByte)
    (hroom : c.readIndex + 2 + formRoom ≤ readBuffSize) (hsettled : c.Settled)
    (hline : c.lineText = [])
    (hbody : c.checkIndex + |c.contentLength| + 2 + formRoom ≤ readBuffSize)
    (hhope : ¬ Hopeless c) :
  Repairable t query stat c
  := by
  have hread := h.between.le_read
  have hneg := neg_le_abs c.contentLength
  have hpos := le_abs_self c.contentLength
  obtain ⟨k, hk, hstands, hle, hrefused⟩ :=
    h.exists_not_refused hun.stands hc hsettled hline hbody hhope
  by_cases hend : k = c.checkIndex
  · subst hend
    apply h.repairable_emptyLine hun.stands hc hbyte hroom (by omega) hline hrefused
  · have hopen : c.checkIndex = c.readIndex := by
      by_contra hne
      exact hend (hstands (by omega))
    apply h.repairable_padded hun hc hsettled hline hopen hk (by omega) (by omega) hrefused

/-- In the header phase a parser that is not hopeless is repaired by what it has room for. -/
theorem Drained.repairable {c : Parser} (h : Drained c) {chunks : List (List UInt8)}
    (hun : Unfinished init chunks c) (hroom : c.HasRoom) (hhope : ¬ Hopeless c) :
  Repairable t query stat c
  := by
  rw [HasRoom, if_neg h.header] at hroom
  obtain ⟨hroom, hbody⟩ := hroom
  have hlen : (ascii "x\r\nContent-Length:-0000\r\n\r\n").length = 27 := rfl
  have hlen' : (ascii "\r\nContent-Length:-0000\r\n\r\n").length = 26 := rfl
  have hlen'' : (ascii "Content-Length:-0000\r\n\r\n").length = 24 := rfl
  have hbyte : ¬ c.AtBadByte := fun hbyte => hhope (.badByte h.header hbyte)
  cases hc : c.checkState with
  | requestLine =>
      by_cases hline : ∃ w : Words, c.lineText = w.line ∧ pathless w.target = true
      · apply h.repairable_version hun hc _ hroom
        intro hsettled
        apply hhope (.noPath hc hsettled hline)
      · apply h.repairable_requestLine hun hc hbyte (by omega) hline
  | content => exact absurd hc h.header
  | header =>
      by_cases hline : c.lineText = []
      · by_cases hsettled : c.Settled
        · apply h.repairable_settled hun hc hbyte (by omega) hsettled hline (hbody hsettled hline)
            hhope
        · apply h.repairable_open hun hc hsettled hline
          omega
      · apply h.repairable_headerLine hun hc hbyte (by omega) hline

/-! ### The parsers that wait -/

end Waiting

/-- Whatever was received, a parser that waits and has room for the rest of a request finds a
code behind some continuation, unless it is hopeless. -/
theorem Unfinished.repairable_iff (t : HttpTask) (query : List UInt8 → ℤ)
    (stat : List UInt8 → Answer) {chunks : List (List UInt8)} {c : Parser}
    (h : Unfinished init chunks c) (hroom : c.HasRoom) :
  Repairable t query stat c ↔ ¬ Hopeless c
  := by
  constructor
  · intro hrepair hhope
    apply hhope.without_continuation h hrepair
  · intro hhope
    rcases h.waits (.inl init_drained) with hdrained | hshort
    · apply hdrained.repairable h hroom hhope
    · rw [HasRoom, if_pos hshort.checkState] at hroom
      apply hshort.repairable h hroom hhope

/-- A request line that is cut within the version. -/
theorem repairable_iff_cut :
  Repairable idle (fun _ => 0) filesOnly ((init.receive (ascii "GET / HT")).scannedTo 8) ↔
    ¬ Hopeless ((init.receive (ascii "GET / HT")).scannedTo 8)
  := by
  have hplain : ∀ b ∈ ascii "GET / HT", isPlain b = true := List.all_eq_true.mp (by decide)
  have hsize : (init.receive (ascii "GET / HT")).readIndex ≤ readBuffSize := by decide
  obtain ⟨hcall, -⟩ := init_drained.receive_plain rfl hplain hsize
  apply Unfinished.repairable_iff idle (fun _ => 0) filesOnly
    (show Unfinished init [ascii "GET / HT"] _ from ⟨_, hsize, hcall, rfl⟩)
  rw [HasRoom, if_neg (by decide)]
  refine ⟨by decide, ?_⟩
  rintro - hline
  apply absurd hline (by decide)

set_option maxRecDepth 10000 in
/-- A request line that a bare line feed ends is waited for, and nothing repairs it. -/
theorem not_repairable :
  ¬ ∀ (t : HttpTask) (query : List UInt8 → ℤ) (stat : List UInt8 → Answer)
    (chunks : List (List UInt8)) (c : Parser), Unfinished init chunks c → c.HasRoom →
      Repairable t query stat c
  := by
  intro h
  have hcall : ((init.receive (ascii "GET / HTTP/1.1\n")).processRead.map fun r =>
      (r.1, decide (r.2.checkState = .requestLine ∧ r.2.checkIndex = 14 ∧ r.2.readIndex = 15 ∧
        r.2.readBuf r.2.checkIndex = 10 ∧ r.2.lineText = ascii "GET / HTTP/1.1")))
      = .ok (.returned .noRequest, true) := by
    decide +kernel
  cases hd : (init.receive (ascii "GET / HTTP/1.1\n")).processRead with
  | error f =>
      rw [hd] at hcall
      cases hcall
  | ok r =>
      obtain ⟨e, c⟩ := r
      rw [hd] at hcall
      obtain ⟨rfl, hfacts⟩ := Prod.mk.inj (Except.ok.inj hcall)
      obtain ⟨hstate, hcheck, hread, hbyte, hline⟩ := of_decide_eq_true hfacts
      have hc : Unfinished init [ascii "GET / HTTP/1.1\n"] c := ⟨c, by decide, hd, rfl⟩
      have hheader : c.checkState ≠ .content := by
        rw [hstate]
        decide
      have hroom : c.HasRoom := by
        rw [HasRoom, if_neg hheader, hread, hline]
        refine ⟨by decide, ?_⟩
        rintro - ⟨⟩
      have hlt : c.checkIndex < c.readIndex := by
        rw [show c.checkIndex = 14 from hcheck, show c.readIndex = 15 from hread]
        decide
      have hhope : Hopeless c := .badByte hheader ⟨hlt, .inl hbyte⟩
      exact hhope.without_continuation hc (h idle (fun _ => 0) filesOnly _ c hc hroom)

end Parser

end WebServer
