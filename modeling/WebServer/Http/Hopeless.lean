import WebServer.Http.Standing

/-!
# Requests that cannot be completed

When `process_read` returns `NO_REQUEST` the server waits for the rest of the request.  No
continuation completes or spoils the request of a parser that is `Hopeless`: every call
returns `NO_REQUEST` again, or the program loses its defined behaviour, in the parser or in
`do_request` (`Hopeless.without_continuation`).

Most of these parsers stand at a carriage return or a line feed that does not end a line:
`parse_line` returns `LINE_BAD`, which `process_read` takes for a line that is not complete,
and stays where it is.  The others wait for the end of a line whose text is settled, or for a
body whose first bytes do not fit into the arrays of `do_request`.
-/

open CString Fallible WebServer.HttpTask

namespace WebServer

namespace Parser

/-! ### Parsers that are hopeless -/

section Answers

variable (t : HttpTask) (query : List UInt8 → ℤ) (stat : List UInt8 → Answer)

/-- With `chunk`, which fits into the buffer, `process_read` returns another code than
`NO_REQUEST`, of its own or of `do_request`.  The object has its other fields, and the accounts
that `do_request` finds, from `t`. -/
def Answers (c : Parser) (chunk : List UInt8) : Prop :=
  (c.receive chunk).readIndex ≤ readBuffSize ∧
    ∃ ret d, { t with toParser := c.receive chunk }.processRead query stat = .ok (ret, d) ∧
      ret ≠ .noRequest

/-- Behind some continuation `process_read` returns another code than `NO_REQUEST`. -/
def Repairable (c : Parser) : Prop :=
  ∃ chunks chunk d, Unfinished c chunks d ∧ d.Answers t query stat chunk

end Answers

/-- What was scanned of the line, up to the first NUL in it. -/
def lineText (c : Parser) : List UInt8 := (c.put c.checkIndex 0).text c.startLine

/-- What follows does not change what the line says: the scanner stands at the byte that ends
it, or a NUL in the line ends what is read of it. -/
def Settled (c : Parser) : Prop :=
  c.checkIndex < c.readIndex ∨ ∃ i, c.startLine ≤ i ∧ i < c.checkIndex ∧ c.readBuf i = 0

/-- The bytes from `q` on that were received. -/
def received (c : Parser) (q : ℕ) : List UInt8 := bytes c.readBuf q (c.readIndex - q)

/-- The parser with the NUL that `parse_content` stores, when the empty line ends at `k`. -/
def cut (c : Parser) (k : ℕ) : Parser := c.put (k + 2 + c.contentLength).toNat 0

/-- When the empty line ends at `k`, `do_request` does not come to its end, whatever follows. -/
inductive Refused (c : Parser) (k : ℕ) : Prop where
  /-- A form is looked for in `m_string`, which is null. -/
  | noBody {u p : ℕ} (hlength : c.contentLength = 0) (h : c.Credentialed u p)
  /-- The end of the body lies before the buffer, or is not an `int`. -/
  | outside (h : k + 2 + c.contentLength < 0 ∨ 2 ^ 31 ≤ k + 2 + c.contentLength)
  /-- The NUL behind the body is stored in the first byte of the URL. -/
  | noUrl {u : ℕ} (hlength : c.contentLength ≠ 0) (hu : c.url = some u)
    (h : (c.cut k).text u = [])
  /-- The URL does not fit into `m_url_real`. -/
  | longUrl {u p : ℕ} (hlength : c.contentLength ≠ 0) (h : (c.cut k).Credentialed u p)
    (hlong : 200 < ((c.cut k).text u).length)

/-- No continuation leads to another code than `NO_REQUEST`. -/
inductive Hopeless (c : Parser) : Prop where
  /-- The line cannot be ended any more. -/
  | badByte (hc : c.checkState ≠ .content) (hbyte : c.AtBadByte)
  /-- The end of the request line leads to the use of a null pointer. -/
  | noPath (hc : c.checkState = .requestLine) (hsettled : c.Settled)
    (hline : ∃ w : Words, c.lineText = w.line ∧ pathless w.target = true)
  /-- Wherever the empty line ends, `do_request` does not come to its end. -/
  | emptyLine (hc : c.checkState = .header) (hsettled : c.Settled) (hline : c.lineText = [])
    (hrefused : ∀ k, c.checkIndex ≤ k → (c.checkIndex < c.readIndex → k = c.checkIndex) →
      c.Refused k)
  /-- The form starts with bytes that do not fit, where `m_string` may come to point. -/
  | body {u p : ℕ} (hc : c.checkState = .content) (h : c.Credentialed u p)
    (hstart : ¬ Fits c u p (c.received c.startLine))
    (hcheck : ¬ Fits c u p (c.received c.checkIndex))

/-! ### The ends of a round -/

theorem afterHeader_inr {r : Except Fault (Pass × Parser)} {k : Option Point} {c : Parser}
    (h : afterHeader r = .inr (.ok (k, c))) :
  (∃ e, r = .ok (.exit e, c) ∧ k = some (.stopped e)) ∨
    k = some .content ∧ c.checkState = .content
  := by
  unfold afterHeader at h
  split at h
  · cases h
  · cases h
    exact .inl ⟨_, rfl, rfl⟩
  · split at h
    · next hc =>
        cases h
        exact .inr ⟨rfl, hc⟩
    · cases h

/-- A pass that ends the call ends it with a code. -/
theorem readPass_exit {c c' : Parser} {e : ReadExit} (h : c.readPass = .ok (.exit e, c')) :
  e ≠ .returned .noRequest
  := by
  obtain ⟨⟨ret, d⟩, -, h⟩ := bind_eq_ok.mp h
  have hpass := congrArg Prod.fst (Except.ok.inj h)
  dsimp only at hpass
  rintro rfl
  unfold passOf at hpass
  split at hpass
  · split at hpass
    · cases hpass
    · cases hpass
  · split at hpass
    · cases hpass
    · split at hpass
      · cases hpass
      · cases hpass
  · split at hpass
    · cases hpass
    · cases hpass

/-- The first point is one with a code, or the turn to the body. -/
theorem firstPoint_point {c w : Parser} {k : Point} (h : c.firstPoint = .ok (some k, w)) :
  (∃ e, k = .stopped e ∧ e ≠ .returned .noRequest) ∨ k = .content ∧ w.checkState = .content
  := by
  revert h
  refine Loop.whileLoop_rule headerLine_decreases
    (P := fun _ r => r = .ok (some k, w) → (∃ e, k = .stopped e ∧ e ≠ .returned .noRequest) ∨
      k = .content ∧ w.checkState = .content) ?_ ?_ c
  · intro c c' r _ ih hr
    apply ih hr
  · intro c r hl hr
    subst hr
    rw [headerLine] at hl
    split at hl
    · cases hl
    · next d _ =>
        rcases afterHeader_inr hl with ⟨e, hp, hk⟩ | ⟨hk, hc⟩
        · exact .inl ⟨e, Option.some.inj hk, readPass_exit hp⟩
        · exact .inr ⟨Option.some.inj hk, hc⟩
    · cases hl

/-! ### The scanner -/

/-- `parse_line` stops at a byte that is not plain, or at the end of what was read. -/
theorem parseLine_stops {c d : Parser} {status : LineStatus} (hstatus : status ≠ .lineOk)
    (h : c.parseLine = .ok (status, d)) (hlt : d.checkIndex < d.readIndex) :
  isPlain (d.readBuf d.checkIndex) = false
  := by
  revert h
  apply parseLine_rule (P := fun c r => r = .ok (status, d) →
    isPlain (d.readBuf d.checkIndex) = false)
  · intro c r _ _ ih h
    apply ih h
  · intro c hstop h
    rw [(endLine_indices h).2.2.2 hstatus] at hlt ⊢
    rw [Bool.eq_false_iff]
    intro hplain
    apply hstop ⟨hlt, hplain⟩

/-- Where the header phase waits, the line is not complete. -/
theorem Between.parseLine_of_firstPoint {c d : Parser}
    (h : Between c ∧ c.checkState ≠ .content) (hd : c.firstPoint = .ok (none, d)) :
  ∃ status, status ≠ .lineOk ∧ d.parseLine = .ok (status, d)
  := by
  refine Loop.whileLoop_invariant headerLine_decreases
    (P := fun _ r => r = .ok (none, d) → ∃ status, status ≠ .lineOk ∧ d.parseLine = .ok (status, d))
    (fun c c' => Between.headerLine_inl) ?_ ?_ h hd
  · intro c c' r _ _ ih hr
    apply ih hr
  · intro c r h hl hr
    subst hr
    rcases h.1.headerLine_cases h.2
      with ⟨status, c', hstatus, hc', -, -, hl'⟩ | ⟨c', -, -, -, -, hl'⟩
    · cases hl'.symm.trans hl
      refine ⟨status, hstatus, ?_⟩
      have hstop := parseLine_receive_stop [] hstatus hc'
      rwa [receive_nil, receive_nil, hc', eq_comm] at hstop
    · rcases afterHeader_inr (hl'.symm.trans hl) with ⟨e, -, ⟨⟩⟩ | ⟨⟨⟩, -⟩

theorem Drained.rests {c : Parser} (h : Drained c) :
  Rests c
  := Between.parseLine_of_firstPoint ⟨h.between, h.header⟩ h.waits

/-- The byte the scanner stands at is not plain. -/
theorem Drained.stands {c : Parser} (h : Drained c) (hlt : c.checkIndex < c.readIndex) :
  isPlain (c.readBuf c.checkIndex) = false
  := by
  obtain ⟨status, hstatus, hl⟩ := h.rests
  apply parseLine_stops hstatus hl hlt

theorem Drained.cases {c : Parser} (h : Drained c) :
  c.checkIndex = c.readIndex ∨
    (c.checkIndex + 1 = c.readIndex ∧ c.readBuf c.checkIndex = 13) ∨ c.AtBadByte
  := h.rests.cases h.between.le_read h.between.le_size

/-- What a call does first: it scans on in the line, and waits or comes to its end. -/
theorem Drained.call_cases {c : Parser} (h : Drained c) {bs : List UInt8}
    (hsize : (c.receive bs).readIndex ≤ readBuffSize) :
  ∃ k, c.checkIndex ≤ k ∧ (c.checkIndex < c.readIndex → k = c.checkIndex) ∧
    Between ((c.receive bs).scannedTo k) ∧
    (((c.receive bs).processRead = .ok (.returned .noRequest, (c.receive bs).scannedTo k) ∧
        Drained ((c.receive bs).scannedTo k)) ∨
      ((k + 1 < (c.receive bs).readIndex ∧ (c.receive bs).readBuf k = 13 ∧
          (c.receive bs).readBuf (k + 1) = 10) ∧
        LineEnds ((c.receive bs).scannedTo k).closeLine ∧
        (c.receive bs).headerLine
          = afterHeader ((c.receive bs).scannedTo k).closeLine.readPass))
  := by
  obtain ⟨k, hk, hbetween, hl⟩ := (h.between.receive bs hsize).parseLine_cases
  refine ⟨k, hk, ?_, hbetween, ?_⟩
  · intro hlt
    by_contra hne
    have hplain := hbetween.plain c.checkIndex h.between.le_check
      (Nat.lt_of_le_of_ne hk (Ne.symm hne))
    change isPlain ((c.receive bs).readBuf c.checkIndex) = true at hplain
    rw [readBuf_receive _ _ hlt, h.stands hlt] at hplain
    cases hplain
  · rcases hl with ⟨status, hstatus, hl⟩ | ⟨hlt, hcr, hlf, hl⟩
    · left
      have hpoint : (c.receive bs).firstPoint = .ok (none, (c.receive bs).scannedTo k) := by
        apply Loop.whileLoop_inr
        rw [headerLine, hl]
        cases status with
        | lineOk => exact absurd rfl hstatus
        | lineBad => rfl
        | lineOpen => rfl
      obtain ⟨hd, -, hcall⟩ := h.wait hsize hpoint
      exact ⟨hcall, hd⟩
    · right
      refine ⟨⟨hlt, hcr, hlf⟩, hbetween.closeLine hlt, ?_⟩
      rw [headerLine, hl]

/-- The line that was closed says what was scanned of it. -/
theorem Between.text_closeLine {c : Parser} (h : Between c) (hlt : c.checkIndex < readBuffSize) :
  c.closeLine.text c.startLine = c.lineText
  := by
  apply stringAt_congr h.le_check hlt (Function.update_self ..)
  intro i _ hi
  apply Function.update_of_ne
  omega

/-- A line whose text is settled says the same however far it is scanned. -/
theorem Settled.lineText_scannedTo {c : Parser} (h : c.Settled) (hc : Between c) {k : ℕ}
    (hk : c.checkIndex ≤ k) (hstands : c.checkIndex < c.readIndex → k = c.checkIndex)
    (bs : List UInt8) :
  ((c.receive bs).scannedTo k).lineText = c.lineText
  := by
  have hcheck := hc.le_check
  have hread := hc.le_read
  have hsize := hc.le_size
  rcases h with hlt | ⟨i, hi, hik, hnul⟩
  · obtain rfl := hstands hlt
    apply stringAt_congr hcheck (by omega) (Function.update_self ..)
    intro j _ hj
    change Function.update (c.receive bs).readBuf c.checkIndex 0 j
      = Function.update c.readBuf c.checkIndex 0 j
    rcases Nat.eq_or_lt_of_le hj with rfl | hj
    · rw [Function.update_self, Function.update_self]
    · rw [Function.update_of_ne (by omega), Function.update_of_ne (by omega),
        readBuf_receive _ _ (by omega)]
  · have hput : (c.put c.checkIndex 0).readBuf i = 0 := by
      change Function.update c.readBuf c.checkIndex 0 i = 0
      rw [Function.update_of_ne (by omega), hnul]
    apply stringAt_congr hi (by omega) hput
    intro j _ hj
    change Function.update (c.receive bs).readBuf k 0 j
      = Function.update c.readBuf c.checkIndex 0 j
    rw [Function.update_of_ne (by omega), Function.update_of_ne (by omega),
      readBuf_receive _ _ (by omega)]

theorem Settled.scannedTo {c : Parser} (h : c.Settled) (hc : Between c) {k : ℕ}
    (hk : c.checkIndex ≤ k) (hstands : c.checkIndex < c.readIndex → k = c.checkIndex)
    (bs : List UInt8) :
  ((c.receive bs).scannedTo k).Settled
  := by
  have hread := hc.le_read
  rcases h with hlt | ⟨i, hi, hik, hnul⟩
  · obtain rfl := hstands hlt
    exact .inl (Nat.lt_add_right _ hlt)
  · refine .inr ⟨i, hi, Nat.lt_of_lt_of_le hik hk, ?_⟩
    change (c.receive bs).readBuf i = 0
    rw [readBuf_receive _ _ (by omega), hnul]

/-! ### Calls that end the line -/

/-- A call whose header phase ends in its first round. -/
theorem Between.processRead_of_headerLine {c : Parser} (h : Between c)
    (hc : c.checkState ≠ .content) {r : Except Fault (Option Point × Parser)}
    (hl : c.headerLine = .inr r) :
  c.processRead = r >>= resume
  := by
  rw [h.processRead_eq hc, firstPoint, Loop.whileLoop_inr _ hl]

/-- The scanner does not leave a bad byte. -/
theorem AtBadByte.receive {c : Parser} (h : c.AtBadByte) (bs : List UInt8) :
  ((c.receive bs).scannedTo c.checkIndex).AtBadByte
  := by
  obtain ⟨hlt, hbyte⟩ := h
  refine ⟨Nat.lt_add_right _ hlt, ?_⟩
  change (c.receive bs).readBuf c.checkIndex = 10 ∨ (c.receive bs).readBuf c.checkIndex = 13 ∧
    c.checkIndex + 1 < c.readIndex + bs.length ∧ (c.receive bs).readBuf (c.checkIndex + 1) ≠ 10
  rw [readBuf_receive _ _ hlt]
  rcases hbyte with hlf | ⟨hcr, hlt', hne⟩
  · exact .inl hlf
  · rw [readBuf_receive _ _ hlt']
    exact .inr ⟨hcr, Nat.lt_add_right _ hlt', hne⟩

/-- No line ends at a bad byte. -/
theorem AtBadByte.not_crlf {c : Parser} (h : c.AtBadByte) (bs : List UInt8) :
  ¬ ((c.receive bs).readBuf c.checkIndex = 13 ∧ (c.receive bs).readBuf (c.checkIndex + 1) = 10)
  := by
  rintro ⟨hcr, hlf⟩
  rw [readBuf_receive _ _ h.1] at hcr
  rcases h.2 with hlf' | ⟨-, hlt, hne⟩
  · rw [hcr] at hlf'
    cases hlf'
  · rw [readBuf_receive _ _ hlt] at hlf
    apply hne hlf

/-- A request line whose target has no path. -/
theorem LineEnds.readPass_noPath {c : Parser} (h : LineEnds c) (hc : c.checkState = .requestLine)
    (hline : ∃ w : Words, c.text c.startLine = w.line ∧ pathless w.target = true) :
  c.readPass = .error .nullPointer
  := by
  obtain ⟨w, ht, hless⟩ := hline
  have hd : Ends c.nextLine c.startLine (c.checkIndex - 2) := { h.ends with }
  have hc' : c.nextLine.checkState = .requestLine := hc
  have hroom : c.checkIndex - 2 + 2 ≤ readBuffSize := by
    have := h.room
    have := h.le_read
    have := h.le_size
    omega
  rw [readPass, parseText_requestLine hc', (hd.parseRequestLine_words hroom ht).2.1 hless]
  rfl

/-- The parser turned to the body. -/
def toBody (c : Parser) : Parser := { c.nextLine with checkState := .content }

/-- The empty line ends the header phase. -/
theorem readPass_emptyLine {c : Parser} (hc : c.checkState = .header)
    (hnul : c.readBuf c.startLine = 0) :
  (c.contentLength = 0 → c.readPass = .ok (.exit .doRequest, c.nextLine)) ∧
    (c.contentLength ≠ 0 → c.readPass = .ok (.again .lineOk, c.toBody))
  := by
  have hnul' : c.nextLine.readBuf c.startLine = 0 := hnul
  rw [readPass_of_header hc, parseHeaders, if_pos hnul']
  constructor
  · intro hlength
    rw [if_neg (show ¬ c.nextLine.contentLength ≠ 0 from not_not_intro hlength)]
    rfl
  · intro hlength
    rw [if_pos (show c.nextLine.contentLength ≠ 0 from hlength)]
    rfl

/-- A call whose header phase ends with the empty line. -/
theorem Between.processRead_emptyLine {c d : Parser} (h : Between c) (hc : c.checkState ≠ .content)
    (hl : c.headerLine = afterHeader d.readPass) (hd : d.checkState = .header)
    (hnul : d.readBuf d.startLine = 0) :
  (d.contentLength = 0 → c.processRead = .ok (.doRequest, d.nextLine)) ∧
    (d.contentLength ≠ 0 → c.processRead = d.toBody.processRead)
  := by
  obtain ⟨hend, hbody⟩ := readPass_emptyLine hd hnul
  constructor
  · intro hlength
    rw [hend hlength] at hl
    apply h.processRead_of_headerLine hc hl
  · intro hlength
    rw [hbody hlength] at hl
    apply h.processRead_of_headerLine hc hl

/-- An empty string starts with a NUL. -/
theorem readBuf_of_text_nil {c : Parser} {p : ℕ} (h : c.text p = []) (hp : p < readBuffSize) :
  c.readBuf p = 0
  := by
  by_contra hne
  have hcons := stringAt_cons hp hne
  rw [text] at h
  rw [h] at hcons
  cases hcons


/-! ### The parsers that wait -/

/-- The parser waits for the rest of a body. -/
structure Short (c : Parser) : Prop extends Reading.InBuffer c where
  checkState : c.checkState = .content
  short : (c.readIndex : ℤ) < c.startLine + c.contentLength
  before : ∀ i, i + 1 = c.checkIndex → c.readBuf i ≠ 13
  rests : Rests c

theorem Goes.to_short {c d : Parser} (h : Goes c d) (hrests : Rests d) :
  Short d
  := { h.toInBuffer with
    checkState := h.checkState, short := h.short, before := h.before, rests := hrests }

theorem Short.inBuffer_receive {c : Parser} (h : Short c) {bs : List UInt8}
    (hsize : (c.receive bs).readIndex ≤ readBuffSize) :
  Reading.InBuffer (c.receive bs) ∧
    ∀ i, i + 1 = (c.receive bs).checkIndex → (c.receive bs).readBuf i ≠ 13
  := by
  have hread := h.le_read
  refine ⟨⟨h.le_check, Nat.le_add_right_of_le h.le_read, hsize⟩, fun i hi => ?_⟩
  change i + 1 = c.checkIndex at hi
  rw [readBuf_receive _ _ (by omega)]
  apply h.before i hi

/-- A call at a body that returns `NO_REQUEST` leaves the body short. -/
theorem short_of_call {c d : Parser} (h : Reading.InBuffer c) (hc : c.checkState = .content)
    (hbefore : ∀ i, i + 1 = c.checkIndex → c.readBuf i ≠ 13)
    (hcall : c.processRead = .ok (.returned .noRequest, d)) :
  Short d
  := by
  rcases processRead_content_cases h hc hbefore
    with ⟨hdone, -⟩ | ⟨f, hf⟩ | ⟨d', hd', hgoes, hrests⟩
  · cases hdone.symm.trans hcall
  · cases hf.symm.trans hcall
  · cases hd'.symm.trans hcall
    apply hgoes.to_short hrests

/-- A call that returns `NO_REQUEST` leaves a line that is not complete, or a short body. -/
theorem waits_of_call {c d : Parser} (h : Drained c ∨ Short c) {bs : List UInt8}
    (hsize : (c.receive bs).readIndex ≤ readBuffSize)
    (hcall : (c.receive bs).processRead = .ok (.returned .noRequest, d)) :
  Drained d ∨ Short d
  := by
  rcases h with h | h
  · have hbetween := h.between.receive bs hsize
    have hheader : (c.receive bs).checkState ≠ .content := h.header
    rw [hbetween.processRead_eq hheader] at hcall
    obtain ⟨⟨point, w⟩, hpoint, hcall⟩ := bind_eq_ok.mp hcall
    cases point with
    | none =>
        cases hcall
        exact .inl (h.wait hsize hpoint).1
    | some point =>
        rcases firstPoint_point hpoint with ⟨e, rfl, hne⟩ | ⟨rfl, hstate⟩
        · cases hcall
          apply absurd rfl hne
        · have hw := (Between.firstPoint_between ⟨hbetween, hheader⟩ hpoint).1
          exact .inr (short_of_call ⟨hw.le_check, hw.le_read, hw.le_size⟩ hstate hw.before hcall)
  · obtain ⟨hin, hbefore⟩ := h.inBuffer_receive hsize
    exact .inr (short_of_call hin h.checkState hbefore hcall)

theorem Unfinished.waits {c d : Parser} (h : Drained c ∨ Short c) {chunks : List (List UInt8)}
    (hd : Unfinished c chunks d) :
  Drained d ∨ Short d
  := by
  induction chunks generalizing c with
  | nil =>
      obtain rfl : d = c := hd
      apply h
  | cons chunk chunks ih =>
      obtain ⟨c', hsize, hcall, hd⟩ := hd
      apply ih (waits_of_call h hsize hcall) hd

/-! ### Requests at which `do_request` faults -/

/-- `do_request` does not come to its call of `stat`. -/
def Fails (c : Parser) : Prop :=
  ∀ (t d : HttpTask) (query : List UInt8 → ℤ), { t with toParser := c }.makePath query ≠ .ok d

/-- There is no form. -/
theorem Credentialed.fails_of_none {c : Parser} {u p e : ℕ} (h : Credentialed c u p)
    (he : UrlEnds c u e) (hstring : c.string = none) :
  Fails c
  := by
  intro t d query hd
  obtain ⟨q, hq, -⟩ := fits_bytes_of_makePath (c := { t with toParser := c }) h he.le he.lt_size
    he.nul hd
  cases hstring.symm.trans hq

/-- The form starts with bytes that do not fit. -/
theorem Credentialed.fails_of_not_fits {c : Parser} {u p e q n : ℕ} (h : Credentialed c u p)
    (he : UrlEnds c u e) (hq : c.string = some q) (hn : q + n ≤ readBuffSize)
    (hfits : ¬ Fits c u p (bytes c.readBuf q n)) :
  Fails c
  := by
  intro t d query hd
  obtain ⟨q', hq', hall⟩ := fits_bytes_of_makePath (c := { t with toParser := c }) h he.le
    he.lt_size he.nul hd
  cases hq.symm.trans hq'
  apply hfits (hall n hn)

/-- The URL is empty, and has no slash. -/
theorem fails_of_text {c : Parser} {u : ℕ} (hu : c.url = some u) (h : c.text u = []) :
  Fails c
  := by
  intro t d query hd
  obtain ⟨u', p, hu', hp, -⟩ := makePath_eq_ok hd
  cases hu.symm.trans hu'
  apply (strrchr_eq_some hp).2 h

/-- A form of at most five bytes fits when the URL does. -/
theorem fits_of_short {c : Parser} {u p : ℕ} (hurl : (c.text u).length ≤ 200) {l : List UInt8}
    (hl : l.length ≤ 5) :
  Fits c u p l
  := by
  have hname : nameOf l = [] := by
    rw [nameOf, List.drop_eq_nil_of_le hl]
    rfl
  have hpassword : passwordOf l = [] := by
    rw [passwordOf, List.drop_eq_nil_of_le (by omega)]
    rfl
  refine ⟨hurl, ?_, ?_, fun _ => ?_⟩
  · rw [hname]
    apply Nat.zero_le
  · rw [hpassword]
    apply Nat.zero_le
  · rw [hname, hpassword]
    apply Nat.zero_le

/-! ### The end of the empty line -/

theorem Keeps.cut {c d : Parser} (h : Keeps c d) (hlength : d.contentLength = c.contentLength)
    (k : ℕ) :
  Keeps (c.cut k) (d.cut k)
  := by
  rw [Parser.cut, Parser.cut, hlength]
  apply h.put

/-- Whether the end of the empty line is refused depends on what is kept. -/
theorem UrlEnds.refused_iff {c d : Parser} {u e : ℕ} (he : UrlEnds c u e) (hkeeps : Keeps c d)
    (hlength : d.contentLength = c.contentLength) (k : ℕ) :
  Refused d k ↔ Refused c k
  := by
  have hcut := hkeeps.cut hlength k
  have hput : UrlEnds (c.cut k) u e := he.put _
  have hurl : d.url = some u := hkeeps.url.trans he.url
  constructor
  · rintro (⟨hzero, h⟩ | h | ⟨hne, hu, h⟩ | ⟨hne, h, hlong⟩)
    · cases hurl.symm.trans h.url
      exact .noBody (hlength ▸ hzero) ((he.credentialed_iff hkeeps).mp h)
    · exact .outside (hlength ▸ h)
    · cases hurl.symm.trans hu
      exact .noUrl (hlength ▸ hne) he.url ((hput.text_eq hcut).symm.trans h)
    · cases hurl.symm.trans h.url
      exact .longUrl (hlength ▸ hne) ((hput.credentialed_iff hcut).mp h)
        (hput.text_eq hcut ▸ hlong)
  · rintro (⟨hzero, h⟩ | h | ⟨hne, hu, h⟩ | ⟨hne, h, hlong⟩)
    · cases he.url.symm.trans h.url
      exact .noBody (hlength.trans hzero) ((he.credentialed_iff hkeeps).mpr h)
    · exact .outside (hlength.symm ▸ h)
    · cases he.url.symm.trans hu
      exact .noUrl (hlength.symm ▸ hne) hurl ((hput.text_eq hcut).trans h)
    · cases he.url.symm.trans h.url
      exact .longUrl (hlength.symm ▸ hne) ((hput.credentialed_iff hcut).mpr h)
        ((hput.text_eq hcut).symm ▸ hlong)

/-- The empty line ends a request without a body, in which a form is looked for. -/
theorem Refused.fails_of_zero {c d : Parser} {k u e : ℕ} (h : Refused c k) (he : UrlEnds c u e)
    (hzero : c.contentLength = 0) (hk : k + 2 ≤ readBuffSize) (hkeeps : Keeps c d)
    (hstring : d.string = none) :
  Fails d
  := by
  have hbuf : readBuffSize = 2048 := rfl
  rcases h with ⟨-, h⟩ | h | ⟨hne, -⟩ | ⟨hne, -⟩
  · cases he.url.symm.trans h.url
    apply ((he.credentialed_iff hkeeps).mpr h).fails_of_none (he.keeps hkeeps) hstring
  · omega
  · apply absurd hzero hne
  · apply absurd hzero hne

/-- A body whose end lies before the buffer, or is not an `int`. -/
theorem processRead_outside {c : Parser} (hc : c.checkState = .content)
    (hstart : c.startLine = c.checkIndex) (hsize : c.readIndex ≤ readBuffSize)
    (h : c.checkIndex + c.contentLength < 0 ∨ 2 ^ 31 ≤ c.checkIndex + c.contentLength) :
  ∃ f, c.processRead = .error f
  := by
  have hbuf : readBuffSize = 2048 := rfl
  have hfirst {f : Fault} (hp : c.readPass = .error f) : c.processRead = .error f := by
    apply Loop.whileLoop_inr
    rw [readLine_content hc, hp]
    rfl
  rcases readPass_content_cases hc with ⟨-, hp⟩ | ⟨⟨hshort, hlt⟩, -⟩ | ⟨-, -, hp⟩ |
    ⟨hle, ⟨hin, -⟩, -⟩
  · exact ⟨_, hfirst hp⟩
  · omega
  · exact ⟨_, hfirst hp⟩
  · omega

/-- What a call comes to from a parser that is hopeless. -/
inductive Lost : Except Fault (ReadExit × Parser) → Prop where
  | fault (f : Fault) : Lost (.error f)
  | fails {d : Parser} (h : Fails d) : Lost (.ok (.doRequest, d))
  | waits {d : Parser} (h : Hopeless d) : Lost (.ok (.returned .noRequest, d))

/-- The empty line that `c` parses is ended at `k` in `d`. -/
structure EndedAt (c : Parser) (k : ℕ) (d : Parser) : Prop extends Keeps c d where
  ends : LineEnds d
  le : c.startLine ≤ k
  checkIndex : d.checkIndex = k + 2
  contentLength : d.contentLength = c.contentLength

theorem EndedAt.keeps_nextLine {c d : Parser} {k : ℕ} (h : EndedAt c k d) :
  Keeps c d.nextLine
  := h.toKeeps.trans (Parser.keeps_nextLine (Nat.le_of_add_right_le h.ends.room))

theorem EndedAt.keeps_toBody {c d : Parser} {k : ℕ} (h : EndedAt c k d) :
  Keeps c d.toBody
  := h.keeps_nextLine.trans ⟨rfl, rfl, le_rfl, fun _ _ => rfl⟩

theorem EndedAt.inBuffer_toBody {c d : Parser} {k : ℕ} (h : EndedAt c k d) :
  Reading.InBuffer d.toBody
  := ⟨le_rfl, h.ends.le_read, h.ends.le_size⟩

theorem EndedAt.before_toBody {c d : Parser} {k : ℕ} (h : EndedAt c k d) :
  ∀ i, i + 1 = d.toBody.checkIndex → d.toBody.readBuf i ≠ 13
  := by
  intro i hi hcr
  have hnul := h.ends.closed.nul i hi
  rw [show d.readBuf i = 13 from hcr] at hnul
  cases hnul

/-- When the body is complete, the NUL is put behind it. -/
theorem EndedAt.keeps_bodyTaken {c d : Parser} {k : ℕ} (h : EndedAt c k d) (bs : List UInt8) :
  Keeps (c.cut k) (d.toBody.receive bs).bodyTaken
  := by
  have hkeeps := h.keeps_nextLine.trans (keeps_receive _ bs h.ends.le_read)
  have hcut := hkeeps.cut h.contentLength k
  have hplace : ((d.toBody.startLine : ℤ) + d.toBody.contentLength) = k + 2 + d.contentLength := by
    change ((d.checkIndex : ℕ) : ℤ) + d.contentLength = _
    rw [h.checkIndex, Nat.cast_add]
    rfl
  refine ⟨hcut.url, hcut.cgi, hcut.startLine, fun i hi => ?_⟩
  rw [← hcut.readBuf i hi]
  change Function.update (d.receive bs).readBuf (d.toBody.startLine + d.toBody.contentLength).toNat
      0 i
    = Function.update (d.receive bs).readBuf (k + 2 + d.contentLength).toNat 0 i
  rw [hplace]

/-- The body is complete. -/
theorem Refused.fails_bodyTaken {c d : Parser} {k u e : ℕ} (h : Refused c k) (he : UrlEnds c u e)
    (hne : c.contentLength ≠ 0)
    (hin : ¬ (k + 2 + c.contentLength < 0 ∨ 2 ^ 31 ≤ k + 2 + c.contentLength))
    (hd : EndedAt c k d) :
  Fails d.toBody.bodyTaken
  := by
  have hput : UrlEnds (c.cut k) u e := he.put _
  have hkeeps := hd.keeps_bodyTaken []
  rw [receive_nil] at hkeeps
  rcases h with ⟨hzero, -⟩ | hout | ⟨-, hu, h⟩ | ⟨-, h, hlong⟩
  · apply absurd hzero hne
  · apply absurd hout hin
  · cases he.url.symm.trans hu
    apply fails_of_text (hkeeps.url.trans he.url) ((hput.text_eq hkeeps).trans h)
  · cases he.url.symm.trans h.url
    have hroom : d.checkIndex + 0 ≤ readBuffSize := hd.ends.le_read.trans hd.ends.le_size
    apply ((hput.credentialed_iff hkeeps).mpr h).fails_of_not_fits (hput.keeps hkeeps) rfl hroom
    intro hfits
    have hurl := hfits.url
    rw [hput.text_eq hkeeps] at hurl
    omega

/-- The body is not complete, so the NUL will be put behind what was received. -/
theorem Refused.hopeless_of_goes {c d d' : Parser} {k u e : ℕ} (h : Refused c k)
    (he : UrlEnds c u e) (hslash : c.readBuf u = 47) (hne : c.contentLength ≠ 0)
    (hin : ¬ (k + 2 + c.contentLength < 0 ∨ 2 ^ 31 ≤ k + 2 + c.contentLength))
    (hd : EndedAt c k d) (hgoes : Goes d.toBody d') :
  Hopeless d'
  := by
  have hkeeps : Keeps c d' := hd.keeps_toBody.trans hgoes.toKeeps
  have hpos : 0 ≤ c.contentLength := by
    have hshort := hgoes.short
    have hle := hgoes.le_check.trans hgoes.le_read
    rw [hgoes.contentLength, show d.toBody.contentLength = c.contentLength from hd.contentLength]
      at hshort
    omega
  have hcut : Keeps c (c.cut k) := keeps_put c 0 (by have := hd.le; omega)
  rcases h with ⟨hzero, -⟩ | hout | ⟨-, hu, h⟩ | @⟨_, p, -, h, hlong⟩
  · apply absurd hzero hne
  · apply absurd hout hin
  · cases he.url.symm.trans hu
    rw [he.text_eq hcut] at h
    have hnul := readBuf_of_text_nil h (he.le.trans_lt he.lt_size)
    cases hslash.symm.trans hnul
  · cases he.url.symm.trans h.url
    rw [he.text_eq hcut] at hlong
    have hnot (l : List UInt8) : ¬ Fits d' u p l := fun hfits => by
      have hurl := hfits.url
      rw [he.text_eq hkeeps] at hurl
      omega
    exact .body hgoes.checkState
      ((he.credentialed_iff hkeeps).mpr ((he.credentialed_iff hcut).mp h)) (hnot _) (hnot _)

/-- The empty line turns to a body, and its end is refused. -/
theorem Refused.lost_toBody {c d : Parser} {k u e : ℕ} (h : Refused c k) (he : UrlEnds c u e)
    (hslash : c.readBuf u = 47) (hne : c.contentLength ≠ 0) (hd : EndedAt c k d) :
  Lost d.toBody.processRead
  := by
  have hin := hd.inBuffer_toBody
  by_cases hout : k + 2 + c.contentLength < 0 ∨ 2 ^ 31 ≤ k + 2 + c.contentLength
  · have hout' : d.toBody.checkIndex + d.toBody.contentLength < 0 ∨
        2 ^ 31 ≤ d.toBody.checkIndex + d.toBody.contentLength := by
      change ((d.checkIndex : ℕ) : ℤ) + d.contentLength < 0 ∨
        2 ^ 31 ≤ ((d.checkIndex : ℕ) : ℤ) + d.contentLength
      rw [hd.checkIndex, hd.contentLength, Nat.cast_add]
      apply hout
    obtain ⟨f, hf⟩ := processRead_outside rfl rfl hin.le_size hout'
    rw [hf]
    exact .fault f
  · rcases processRead_content_cases hin rfl hd.before_toBody
      with ⟨hcall, -⟩ | ⟨f, hf⟩ | ⟨d', hd', hgoes, -⟩
    · rw [hcall]
      exact .fails (h.fails_bodyTaken he hne hout hd)
    · rw [hf]
      exact .fault f
    · rw [hd']
      exact .waits (h.hopeless_of_goes he hslash hne hout hd hgoes)

/-! ### Calls from a hopeless parser -/

/-- The empty line is still not complete, or its end is refused. -/
theorem lost_emptyLine {c : Parser} (hs : Stands c) (h : Drained c) (hc : c.checkState = .header)
    (hsettled : c.Settled) (hline : c.lineText = [])
    (hrefused : ∀ k, c.checkIndex ≤ k → (c.checkIndex < c.readIndex → k = c.checkIndex) →
      c.Refused k)
    {bs : List UInt8} (hsize : (c.receive bs).readIndex ≤ readBuffSize) :
  Lost (c.receive bs).processRead
  := by
  have hstart := h.between.le_check
  have hread := h.between.le_read
  obtain ⟨u, e, he, hslash, -⟩ := hs.url (by rw [hc]; decide)
  have hbetween := h.between.receive bs hsize
  obtain ⟨k, hk, hstands, hscanned, ⟨hcall, -⟩ | ⟨⟨hlt, -, -⟩, hends, hl⟩⟩ := h.call_cases hsize
  · -- what was scanned of the line is longer, and still settled
    have hkeeps : Keeps c ((c.receive bs).scannedTo k) :=
      (keeps_receive c bs (hstart.trans hread)).trans (keeps_scannedTo _ k)
    rw [hcall]
    refine .waits (.emptyLine hc (hsettled.scannedTo h.between hk hstands bs) ?_ ?_)
    · rw [hsettled.lineText_scannedTo h.between hk hstands bs, hline]
    · intro k' hk' hstands'
      apply (he.refused_iff hkeeps rfl k').mpr
      apply hrefused k' (hk.trans hk')
      intro hlt
      obtain rfl := hstands hlt
      apply hstands' (Nat.lt_add_right _ hlt)
  · have hd : EndedAt c k ((c.receive bs).scannedTo k).closeLine :=
      { (keeps_receive c bs (hstart.trans hread)).trans (keeps_closeLine (hstart.trans hk)) with
        ends := hends, le := hstart.trans hk, checkIndex := rfl, contentLength := rfl }
    have htext := (hscanned.text_closeLine (Nat.lt_of_lt_of_le (Nat.lt_of_succ_lt hlt) hsize)).trans
      (hsettled.lineText_scannedTo h.between hk hstands bs)
    rw [hline] at htext
    have hnul := readBuf_of_text_nil htext (hends.ends.le.trans_lt hends.ends.lt_size)
    obtain ⟨hzero, hbody⟩ := hbetween.processRead_emptyLine h.header hl hc hnul
    have hend := hrefused k hk hstands
    by_cases hlength : c.contentLength = 0
    · rw [hzero hlength]
      have hroom : k + 2 ≤ readBuffSize := Nat.le_trans hlt hsize
      exact .fails (hend.fails_of_zero he hlength hroom hd.keeps_nextLine hs.string)
    · rw [hbody hlength]
      apply hend.lost_toBody he hslash hlength hd

/-- What arrives follows what was received. -/
theorem received_receive (c : Parser) (bs : List UInt8) {q : ℕ} (hq : q ≤ c.readIndex) :
  (c.receive bs).received q = c.received q ++ bs
  := by
  have hspells := (spells_receive c bs).eq_bytes
  rw [received, receive_readIndex,
    show c.readIndex + bs.length - q = c.readIndex - q + bs.length by omega, bytes_add,
    Nat.add_sub_cancel' hq, ← hspells]
  congr 1
  apply bytes_congr
  intro i _ hi
  apply readBuf_receive _ _ (by omega)

/-- A parser whose bytes from `m_check_index` on do not fit, whatever fits, stands at a bad
byte. -/
theorem Short.atBadByte {c : Parser} (h : Short c) {u p : ℕ} (hurl : (c.text u).length ≤ 200)
    (hcheck : ¬ Fits c u p (c.received c.checkIndex)) :
  c.AtBadByte
  := by
  have hshort {n : ℕ} (hn : c.readIndex - c.checkIndex = n) (hle : n ≤ 5) :
      Fits c u p (c.received c.checkIndex) := by
    apply fits_of_short hurl
    rw [received, length_bytes, hn]
    apply hle
  rcases h.rests.cases h.le_read h.le_size with heq | ⟨hlast, -⟩ | hbyte
  · apply absurd (hshort (n := 0) (by omega) (by decide)) hcheck
  · apply absurd (hshort (n := 1) (by omega) (by decide)) hcheck
  · apply hbyte

/-- When a short body is complete, the NUL is put behind what was received before. -/
theorem Short.keeps_bodyTaken {c : Parser} (h : Short c) (bs : List UInt8) :
  Keeps c (c.receive bs).bodyTaken ∧
    ∀ i, i < c.readIndex → (c.receive bs).bodyTaken.readBuf i = c.readBuf i
  := by
  have hle := h.le_check
  have hread := h.le_read
  have hshort := h.short
  have hplace : ∀ i, i < c.readIndex → (c.receive bs).bodyTaken.readBuf i = c.readBuf i := by
    intro i hi
    change Function.update (c.receive bs).readBuf (c.startLine + c.contentLength).toNat 0 i = _
    rw [Function.update_of_ne (by omega), readBuf_receive _ _ hi]
  exact ⟨⟨rfl, rfl, hle, fun i hi => hplace i (by omega)⟩, hplace⟩

/-- A body is complete whose first bytes do not fit. -/
theorem Short.fails_bodyTaken {c : Parser} (h : Short c) {u p e : ℕ} (he : UrlEnds c u e)
    (hcredentials : c.Credentialed u p) (hstart : ¬ Fits c u p (c.received c.startLine))
    (bs : List UInt8) :
  Fails (c.receive bs).bodyTaken
  := by
  obtain ⟨hkeeps, hplace⟩ := h.keeps_bodyTaken bs
  have hbytes : bytes (c.receive bs).bodyTaken.readBuf c.startLine (c.readIndex - c.startLine)
      = c.received c.startLine := by
    apply bytes_congr
    intro i _ hi
    apply hplace i (by omega)
  have hroom : c.startLine + (c.readIndex - c.startLine) ≤ readBuffSize := by
    rw [Nat.add_sub_cancel' (h.le_check.trans h.le_read)]
    apply h.le_size
  apply ((he.credentialed_iff hkeeps).mpr hcredentials).fails_of_not_fits (q := c.startLine)
    (he.keeps hkeeps) rfl hroom
  rw [hbytes, he.fits_iff hkeeps hcredentials.slash]
  apply hstart

/-- A body is not complete, and the bytes at which the scanner stood do not fit. -/
theorem Short.hopeless_of_goes {c d : Parser} (h : Short c) {u p e : ℕ} (he : UrlEnds c u e)
    (hcredentials : c.Credentialed u p) (hcheck : ¬ Fits c u p (c.received c.checkIndex))
    {bs : List UInt8} (hgoes : Goes (c.receive bs) d) :
  Hopeless d
  := by
  have hread := h.le_read
  have hkeeps := (keeps_receive c bs (h.le_check.trans hread)).trans hgoes.toKeeps
  have hnot : ∀ q, d.startLine ≤ q → q ≤ d.startLine ∨ q ≤ d.checkIndex →
      ¬ Fits d u p (d.received q) := by
    intro q hq hle hfits
    rw [he.fits_iff hkeeps hcredentials.slash] at hfits
    have hbyte := h.atBadByte hfits.url hcheck
    -- the parser turned to the bytes that do not fit
    have hparked := hgoes.parked (hbyte.receive bs)
    subst hparked
    obtain rfl : q = c.checkIndex := le_antisymm (hle.elim id id) hq
    change Fits c u p ((c.receive bs).received c.checkIndex) at hfits
    rw [received_receive c bs hread] at hfits
    apply hcheck hfits.of_append
  exact .body hgoes.checkState ((he.credentialed_iff hkeeps).mpr hcredentials)
    (hnot _ le_rfl (.inl le_rfl)) (hnot _ hgoes.le_check (.inr le_rfl))

/-- A body whose first bytes do not fit. -/
theorem lost_body {c : Parser} (hs : Stands c) (h : Short c) {u p : ℕ}
    (hcredentials : c.Credentialed u p) (hstart : ¬ Fits c u p (c.received c.startLine))
    (hcheck : ¬ Fits c u p (c.received c.checkIndex))
    {bs : List UInt8} (hsize : (c.receive bs).readIndex ≤ readBuffSize) :
  Lost (c.receive bs).processRead
  := by
  have hc : c.checkState = .content := h.checkState
  obtain ⟨u', e, he, -, -⟩ := hs.url (by rw [hc]; decide)
  cases he.url.symm.trans hcredentials.url
  obtain ⟨hin, hbefore⟩ := h.inBuffer_receive hsize
  rcases processRead_content_cases hin hc hbefore
    with ⟨hcall, -⟩ | ⟨f, hf⟩ | ⟨d, hd, hgoes, -⟩
  · rw [hcall]
    exact .fails (h.fails_bodyTaken he hcredentials hstart bs)
  · rw [hf]
    exact .fault f
  · rw [hd]
    exact .waits (h.hopeless_of_goes he hcredentials hcheck hgoes)

/-- A call from a hopeless parser, whatever arrives, loses the program's behaviour, here or in
`do_request`, or returns `NO_REQUEST` and leaves the parser hopeless. -/
theorem Hopeless.lost {c : Parser} (h : Hopeless c) (hs : Stands c) (hwaits : Drained c ∨ Short c)
    {bs : List UInt8} (hsize : (c.receive bs).readIndex ≤ readBuffSize) :
  Lost (c.receive bs).processRead
  := by
  have hdrained (hc : c.checkState ≠ .content) : Drained c :=
    hwaits.resolve_right fun hshort => hc hshort.checkState
  cases h with
  | badByte hc hbyte =>
      have hd := hdrained hc
      obtain ⟨k, -, hstands, -, ⟨hcall, -⟩ | ⟨⟨-, hcr, hlf⟩, -⟩⟩ := hd.call_cases hsize
      · obtain rfl := hstands hbyte.1
        rw [hcall]
        exact .waits (.badByte hc (hbyte.receive bs))
      · obtain rfl := hstands hbyte.1
        exact absurd ⟨hcr, hlf⟩ (hbyte.not_crlf bs)
  | noPath hc hsettled hline =>
      have hd := hdrained (by rw [hc]; decide)
      obtain ⟨k, hk, hstands, hscanned, ⟨hcall, -⟩ | ⟨⟨hlt, -⟩, hends, hl⟩⟩ := hd.call_cases hsize
      · rw [hcall]
        refine .waits (.noPath hc (hsettled.scannedTo hd.between hk hstands bs) ?_)
        rw [hsettled.lineText_scannedTo hd.between hk hstands bs]
        apply hline
      · have htext := hscanned.text_closeLine (Nat.lt_of_lt_of_le (Nat.lt_of_succ_lt hlt) hsize)
        rw [hsettled.lineText_scannedTo hd.between hk hstands bs] at htext
        rw [← htext] at hline
        rw [hends.readPass_noPath hc hline] at hl
        rw [(hd.between.receive bs hsize).processRead_of_headerLine hd.header hl]
        exact .fault _
  | emptyLine hc hsettled hline hrefused =>
      apply lost_emptyLine hs (hdrained (by rw [hc]; decide)) hc hsettled hline hrefused hsize
  | body hc hcredentials hstart hcheck =>
      have hshort := hwaits.resolve_left fun hd => hd.header hc
      apply lost_body hs hshort hcredentials hstart hcheck hsize

section Waiting

variable {t : HttpTask} {query : List UInt8 → ℤ} {stat : List UInt8 → Answer}

/-- Such a call comes to no other code. -/
theorem Lost.not_answers {c : Parser} {chunk : List UInt8}
    (h : Lost (c.receive chunk).processRead) :
  ¬ c.Answers t query stat chunk
  := by
  rintro ⟨-, ret, d, hcall, hne⟩
  rw [HttpTask.processRead] at hcall
  dsimp only at hcall
  generalize (c.receive chunk).processRead = r at h hcall
  cases h with
  | fault f => cases hcall
  | @fails p h =>
      rw [ok_bind] at hcall
      obtain ⟨d', hd', -⟩ := bind_eq_ok.mp hcall
      apply h t d' query hd'
  | waits h =>
      rw [ok_bind] at hcall
      cases hcall
      apply hne rfl

theorem Hopeless.unfinished {c d : Parser} {before chunks : List (List UInt8)} (h : Hopeless c)
    (hc : Unfinished init before c) (hd : Unfinished c chunks d) :
  Hopeless d ∧ ∃ before', Unfinished init before' d
  := by
  induction chunks generalizing c before with
  | nil =>
      obtain rfl : d = c := hd
      exact ⟨h, _, hc⟩
  | cons chunk chunks ih =>
      obtain ⟨c', hsize, hcall, hd⟩ := hd
      have hlost := h.lost hc.stands (hc.waits (.inl init_drained)) hsize
      rw [hcall] at hlost
      cases hlost with
      | waits h' => exact ih h' (hc.append hsize hcall) hd

/-- A hopeless parser waits for ever. -/
theorem Hopeless.without_continuation {c : Parser} {chunks : List (List UInt8)} (h : Hopeless c)
    (hc : Unfinished init chunks c) :
  ¬ Repairable t query stat c
  := by
  rintro ⟨chunks', chunk, d, hd, hanswers⟩
  obtain ⟨h', before, hbefore⟩ := h.unfinished hc hd
  have hlost := h'.lost hbefore.stands (hbefore.waits (.inl init_drained)) hanswers.1
  apply hlost.not_answers hanswers

end Waiting

end Parser

end WebServer
