import WebServer.Lib.Loop
import WebServer.Lib.CString
import WebServer.Lib.Fallible

/-!
# The request parser of `http_conn`

The fields of `http_conn` that reading and parsing a request use, and the functions on
them: `read`, the line scanner `parse_line`, the line parsers `parse_request_line`,
`parse_headers` and `parse_content`, and the state machine `process_read` which drives
them over the read buffer.

Pointers into `m_read_buf` are offsets.  A write outside the buffer, the use of a null
pointer and the overflow of a signed sum are faults: the program has no behaviour from
there on.  `process_read` is modelled up to the call of `do_request`, with which it
returns.

The `LOG_INFO` of every line is left out.  It changes none of the fields here, but it copies
the text into the buffer of the log, which a text of 1964 or more bytes overflows.
-/

open CString Fallible

namespace WebServer

/-- `http_conn::READ_BUFF_SIZE`. -/
def readBuffSize : ℕ := 2048

/-- `http_conn::METHOD`. -/
inductive Method where
  | get | post | head | put | delete | trace | options | connect | path
  deriving DecidableEq

/-- `http_conn::CHECK_STATE`, the states of the main state machine. -/
inductive CheckState where
  | requestLine | header | content
  deriving DecidableEq

/-- `http_conn::HTTP_CODE`, the results of parsing. -/
inductive HttpCode where
  | noRequest | getRequest | badRequest | noResource | forbiddenRequest | fileRequest
  | internalError | closedConnection
  deriving DecidableEq

/-- `http_conn::LINE_STATUS`, the states of the line scanner. -/
inductive LineStatus where
  | lineOk | lineBad | lineOpen
  deriving DecidableEq

/-- What leaves the program without a defined behaviour. -/
inductive Fault where
  | nullPointer | outOfBounds | signedOverflow
  deriving DecidableEq

/-- The fields of `http_conn` used while a request is read and parsed. -/
structure Parser where
  readBuf : Memory
  readIndex : ℕ
  checkState : CheckState
  startLine : ℕ
  checkIndex : ℕ
  method : Method
  url : Option ℕ
  version : Option ℕ
  contentLength : ℤ
  linger : Bool
  host : Option ℕ
  string : Option ℕ
  cgi : ℕ

/-- How `process_read` comes to an end: it returns a code of its own, or it returns what
`do_request` answers. -/
inductive ReadExit where
  | returned (code : HttpCode)
  | doRequest
  deriving DecidableEq

namespace Parser

/-- The fields as `init()` leaves them. -/
def init : Parser where
  readBuf := fun _ => 0
  readIndex := 0
  checkState := .requestLine
  startLine := 0
  checkIndex := 0
  method := .get
  url := none
  version := none
  contentLength := 0
  linger := false
  host := none
  string := none
  cgi := 0

/-! ### The read buffer -/

/-- The bytes `bs` received behind those already in the buffer. -/
def receive (c : Parser) (bs : List UInt8) : Parser :=
  { c with
    readBuf := writeAt c.readBuf c.readIndex bs
    readIndex := c.readIndex + bs.length }

/-- `m_read_buf[i] = b`. -/
def store (c : Parser) (i : ℤ) (b : UInt8) : Except Fault Parser :=
  if 0 ≤ i ∧ i < readBuffSize then
    .ok { c with readBuf := Function.update c.readBuf i.toNat b }
  else
    .error .outOfBounds

/-- The bytes `l` stored one after another from the offset `p` on. -/
def storeAll (c : Parser) : (p : ℕ) → (l : List UInt8) → Except Fault Parser
  | _, [] => .ok c
  | p, b :: l => do
    let c ← c.store p b
    c.storeAll (p + 1) l

/-- The C string at an offset of the buffer. -/
def text (c : Parser) (p : ℕ) : List UInt8 := stringAt c.readBuf readBuffSize p

/-- The string `m_url` points to, if it points to one. -/
def urlText (c : Parser) : Option (List UInt8) := c.url.map c.text

/-- The string `m_host` points to, if it points to one. -/
def hostText (c : Parser) : Option (List UInt8) := c.host.map c.text

/-! ### `parse_line` -/

/-- The end of `parse_line` at a carriage return or a line feed, or at the end of what
was read. -/
def endLine (c : Parser) : Except Fault (LineStatus × Parser) :=
  if c.checkIndex < c.readIndex then
    if c.readBuf c.checkIndex = 13 then
      if c.checkIndex + 1 = c.readIndex then
        .ok (.lineOpen, c)
      else if c.readBuf (c.checkIndex + 1) = 10 then do
        let c ← c.store c.checkIndex 0
        let c ← c.store (c.checkIndex + 1 : ℕ) 0
        .ok (.lineOk, { c with checkIndex := c.checkIndex + 2 })
      else
        .ok (.lineBad, c)
    else if 1 < c.checkIndex ∧ c.readBuf (c.checkIndex - 1) = 13 then do
      let c ← c.store (c.checkIndex - 1 : ℕ) 0
      let c ← c.store c.checkIndex 0
      .ok (.lineOk, { c with checkIndex := c.checkIndex + 1 })
    else
      .ok (.lineBad, c)
  else
    .ok (.lineOpen, c)

/-- A byte `parse_line` passes over. -/
def isPlain (b : UInt8) : Bool := b != 13 && b != 10

/-- The body of the loop of `parse_line`. -/
def scanLine (c : Parser) : Parser ⊕ Except Fault (LineStatus × Parser) :=
  if c.checkIndex < c.readIndex ∧ isPlain (c.readBuf c.checkIndex) then
    .inl { c with checkIndex := c.checkIndex + 1 }
  else
    .inr c.endLine

theorem scanLine_decreases :
  Loop.Decreases scanLine fun c => c.readIndex - c.checkIndex
  := by
  intro c c' h
  rw [scanLine] at h
  split at h
  · next hc =>
      cases h
      dsimp only
      omega
  · cases h

/-- `http_conn::parse_line`. -/
def parseLine (c : Parser) : Except Fault (LineStatus × Parser) :=
  Loop.whileLoop scanLine_decreases c

/-! ### `parse_request_line` -/

/-- `q = strpbrk(p, " \t"); if (q) *q++ = '\0';` -/
def cutWord (c : Parser) (p : ℕ) : Except Fault (Option ℕ × Parser) :=
  match strpbrk c.readBuf readBuffSize p isBlank with
  | none => .ok (none, c)
  | some q => do
    let c ← c.store q 0
    .ok (some (q + 1), c)

/-- The methods the server implements, by the word that names them. -/
def methodOf (word : List UInt8) : Option Method :=
  if eqIgnoreCase word (ascii "GET") then some .get
  else if eqIgnoreCase word (ascii "POST") then some .post
  else none

/-- Sets `m_method`, and `cgi` for a `POST`. -/
def setMethod (c : Parser) (m : Method) : Parser :=
  { c with method := m, cgi := if m = .post then 1 else c.cgi }

/-- `if (strncasecmp(url, scheme, n) == 0) { url += n; url = strchr(url, '/'); }` -/
def skipScheme (c : Parser) (scheme : List UInt8) : (url : Option ℕ) → Except Fault (Option ℕ)
  | none => .error .nullPointer
  | some u =>
    if hasPrefixIgnoreCase (c.text u) scheme then
      .ok (strpbrk c.readBuf readBuffSize (u + scheme.length) (· == 47))
    else
      .ok (some u)

/-- The end of `parse_request_line`: what is left of the URL must be a path, and the
path `/` becomes `/judge.html`. -/
def parsePath (c : Parser) (p : ℕ) : Except Fault (HttpCode × Parser) :=
  if c.readBuf p ≠ 47 then
    .ok (.badRequest, c)
  else if (c.text p).length = 1 then do
    let c ← c.storeAll (p + 1) (ascii "judge.html" ++ [0])
    .ok (.noRequest, { c with checkState := .header })
  else
    .ok (.noRequest, { c with checkState := .header })

/-- `parse_request_line` from the scheme on, which is skipped with the authority. -/
def parseUrl (c : Parser) (u : ℕ) : Except Fault (HttpCode × Parser) := do
  let url ← c.skipScheme (ascii "http://") (some u)
  let url ← c.skipScheme (ascii "https://") url
  let c := { c with url := url }
  match url with
  | none => .ok (.badRequest, c)
  | some p => c.parsePath p

/-- `parse_request_line` from the version on. -/
def parseVersion (c : Parser) (u : ℕ) : Except Fault (HttpCode × Parser) := do
  let (version, c) ← c.cutWord u
  let c := { c with version := version }
  match version with
  | none => .ok (.badRequest, c)
  | some v =>
    if eqIgnoreCase (c.text v) (ascii "HTTP/1.1") then
      c.parseUrl u
    else
      .ok (.badRequest, c)

/-- `parse_request_line` from the method on. -/
def parseMethod (c : Parser) (text u : ℕ) : Except Fault (HttpCode × Parser) :=
  match methodOf (c.text text) with
  | none => .ok (.badRequest, c)
  | some m => (c.setMethod m).parseVersion u

/-- `http_conn::parse_request_line`. -/
def parseRequestLine (c : Parser) (text : ℕ) : Except Fault (HttpCode × Parser) := do
  let (url, c) ← c.cutWord text
  let c := { c with url := url }
  match url with
  | none => .ok (.badRequest, c)
  | some u => c.parseMethod text u

/-! ### `parse_headers` and `parse_content` -/

/-- The offset of a header's value: `text += n; text += strspn(text, " \t");` -/
def valueOffset (c : Parser) (text n : ℕ) : ℕ :=
  text + n + strspnBlank (c.text (text + n))

/-- `http_conn::parse_headers`. -/
def parseHeaders (c : Parser) (text : ℕ) : HttpCode × Parser :=
  if c.readBuf text = 0 then
    if c.contentLength ≠ 0 then
      (.noRequest, { c with checkState := .content })
    else
      (.getRequest, c)
  else if hasPrefixIgnoreCase (c.text text) (ascii "Connection:") then
    if eqIgnoreCase (c.text (c.valueOffset text 11)) (ascii "keep-alive") then
      (.noRequest, { c with linger := true })
    else
      (.noRequest, c)
  else if hasPrefixIgnoreCase (c.text text) (ascii "Content-Length:") then
    (.noRequest, { c with contentLength := toInt32 (atol (c.text (c.valueOffset text 15))) })
  else if hasPrefixIgnoreCase (c.text text) (ascii "Host:") then
    (.noRequest, { c with host := some (c.valueOffset text 5) })
  else
    (.noRequest, c)

/-- `http_conn::parse_content`. -/
def parseContent (c : Parser) (text : ℕ) : Except Fault (HttpCode × Parser) :=
  if (c.checkIndex : ℤ) + c.contentLength < -2 ^ 31 ∨ 2 ^ 31 ≤ c.checkIndex + c.contentLength then
    .error .signedOverflow
  else if (c.readIndex : ℤ) ≥ c.checkIndex + c.contentLength then do
    let c ← c.store (text + c.contentLength) 0
    .ok (.getRequest, { c with string := some text })
  else
    .ok (.noRequest, c)

/-! ### `process_read` -/

/-- How a pass through the loop of `process_read` ends: at the loop's condition with a
new `line_status`, or with the end of the function. -/
inductive Pass where
  | again (status : LineStatus)
  | exit (e : ReadExit)
  deriving DecidableEq

/-- `m_start_line = m_check_index`. -/
def nextLine (c : Parser) : Parser := { c with startLine := c.checkIndex }

/-- The line parser of the state of the main state machine.  The three states are all of
`CHECK_STATE`, so the `default` of the `switch` is not reached. -/
def parseText (c : Parser) (text : ℕ) : Except Fault (HttpCode × Parser) :=
  match c.checkState with
  | .requestLine => c.parseRequestLine text
  | .header => .ok (c.parseHeaders text)
  | .content => c.parseContent text

/-- What the `switch` of `process_read` makes of the code that the line parser of a state
returns. -/
def passOf (state : CheckState) (ret : HttpCode) : Pass :=
  match state with
  | .requestLine =>
    if ret = .badRequest then .exit (.returned .badRequest)
    else .again .lineOk
  | .header =>
    if ret = .badRequest then .exit (.returned .badRequest)
    else if ret = .getRequest then .exit .doRequest
    else .again .lineOk
  | .content =>
    if ret = .getRequest then .exit .doRequest
    else .again .lineOpen

/-- The pass through the loop of `process_read` for the line that starts at
`m_start_line`. -/
def readPass (c : Parser) : Except Fault (Pass × Parser) := do
  let (ret, c') ← c.nextLine.parseText c.startLine
  .ok (passOf c.checkState ret, c')

/-- What follows a pass through the loop of `process_read`. -/
def afterPass : Except Fault (Pass × Parser) →
    (Parser × LineStatus) ⊕ Except Fault (ReadExit × Parser)
  | .error f => .inr (.error f)
  | .ok (.again status, c) => .inl (c, status)
  | .ok (.exit e, c) => .inr (.ok (e, c))

/-- The loop of `process_read`: its condition, which runs `parse_line` unless the parser
stands at a body with `line_status` still `LINE_OK`, and a pass through its body. -/
def readLine (s : Parser × LineStatus) :
    (Parser × LineStatus) ⊕ Except Fault (ReadExit × Parser) :=
  if s.1.checkState = .content ∧ s.2 = .lineOk then
    afterPass s.1.readPass
  else
    match s.1.parseLine with
    | .error f => .inr (.error f)
    | .ok (.lineOk, c) => afterPass c.readPass
    | .ok (_, c) => .inr (.ok (.returned .noRequest, c))

/-! ### Passes and rounds -/

section Rounds

variable {c c' : Parser} {status status' : LineStatus}

theorem parseText_requestLine (hc : c.checkState = .requestLine) (text : ℕ) :
  c.parseText text = c.parseRequestLine text
  := by
  rw [parseText, hc]

theorem parseText_header (hc : c.checkState = .header) (text : ℕ) :
  c.parseText text = .ok (c.parseHeaders text)
  := by
  rw [parseText, hc]

theorem parseText_content (hc : c.checkState = .content) (text : ℕ) :
  c.parseText text = c.parseContent text
  := by
  rw [parseText, hc]

/-- A round of `process_read` at a body. -/
theorem readLine_content (hc : c.checkState = .content) :
  readLine (c, .lineOk) = afterPass c.readPass
  := if_pos ⟨hc, rfl⟩

/-- A round of `process_read` at a complete line. -/
theorem readLine_line (hc : ¬ (c.checkState = .content ∧ status = .lineOk))
    (hl : c.parseLine = .ok (.lineOk, c')) :
  readLine (c, status) = afterPass c'.readPass
  := by
  rw [readLine, if_neg hc, hl]

/-- A round of `process_read` at a line that is not complete. -/
theorem readLine_wait (hc : ¬ (c.checkState = .content ∧ status = .lineOk))
    (hl : c.parseLine = .ok (status', c')) (hstatus : status' ≠ .lineOk) :
  readLine (c, status) = .inr (.ok (.returned .noRequest, c'))
  := by
  rw [readLine, if_neg hc, hl]
  cases status' with
  | lineOk => exact absurd rfl hstatus
  | lineBad => rfl
  | lineOpen => rfl

end Rounds

/-! ### Indices

No line parser moves the indices, and `parse_line` only moves `m_check_index` forward,
so the loop of `process_read` ends. -/

/-- The parser `c'` has the indices of `c`. -/
structure SameIndices (c c' : Parser) : Prop where
  readIndex : c'.readIndex = c.readIndex
  checkIndex : c'.checkIndex = c.checkIndex
  startLine : c'.startLine = c.startLine

/-- The parser `c'` has the indices of `c` and what the headers and the body set. -/
structure SameHeaders (c c' : Parser) : Prop extends SameIndices c c' where
  contentLength : c'.contentLength = c.contentLength
  linger : c'.linger = c.linger
  host : c'.host = c.host
  string : c'.string = c.string

theorem SameHeaders.refl (c : Parser) :
  SameHeaders c c
  := ⟨⟨rfl, rfl, rfl⟩, rfl, rfl, rfl, rfl⟩

theorem SameHeaders.trans {c₁ c₂ c₃ : Parser} (h : SameHeaders c₁ c₂) (h' : SameHeaders c₂ c₃) :
  SameHeaders c₁ c₃
  where
  readIndex := h'.readIndex.trans h.readIndex
  checkIndex := h'.checkIndex.trans h.checkIndex
  startLine := h'.startLine.trans h.startLine
  contentLength := h'.contentLength.trans h.contentLength
  linger := h'.linger.trans h.linger
  host := h'.host.trans h.host
  string := h'.string.trans h.string

/-- A store that does not fault. -/
theorem store_eq_ok {c c' : Parser} {i : ℤ} {b : UInt8} :
  c.store i b = .ok c' ↔ (0 ≤ i ∧ i < readBuffSize) ∧
    c' = { c with readBuf := Function.update c.readBuf i.toNat b }
  := by
  rw [store]
  split
  · next h =>
      rw [Except.ok.injEq, eq_comm]
      exact ⟨fun hc => ⟨h, hc⟩, fun hc => hc.2⟩
  · next h =>
      constructor
      · rintro ⟨⟩
      · rintro ⟨hi, -⟩
        apply absurd hi h

theorem store_sameHeaders {c c' : Parser} {i : ℤ} {b : UInt8} (h : c.store i b = .ok c') :
  SameHeaders c c'
  := by
  obtain ⟨-, rfl⟩ := store_eq_ok.mp h
  exact { SameHeaders.refl c with }

theorem storeAll_sameHeaders {c c' : Parser} {p : ℕ} {l : List UInt8}
    (h : c.storeAll p l = .ok c') :
  SameHeaders c c'
  := by
  induction l generalizing c p with
  | nil =>
      cases h
      apply SameHeaders.refl
  | cons b l ih =>
      obtain ⟨c₁, hs, h⟩ := bind_eq_ok.mp h
      apply (store_sameHeaders hs).trans (ih h)

theorem cutWord_sameHeaders {c c' : Parser} {p : ℕ} {w : Option ℕ}
    (h : c.cutWord p = .ok (w, c')) :
  SameHeaders c c'
  := by
  rw [cutWord] at h
  split at h
  · cases h
    apply SameHeaders.refl
  · obtain ⟨c₁, hs, h⟩ := bind_eq_ok.mp h
    cases h
    apply store_sameHeaders hs

theorem parsePath_sameHeaders {c c' : Parser} {p : ℕ} {r : HttpCode}
    (h : c.parsePath p = .ok (r, c')) :
  SameHeaders c c'
  := by
  rw [parsePath] at h
  split at h
  · cases h
    apply SameHeaders.refl
  · split at h
    · obtain ⟨c₁, hs, h⟩ := bind_eq_ok.mp h
      cases h
      exact { storeAll_sameHeaders hs with }
    · cases h
      exact { SameHeaders.refl c with }

theorem parseUrl_sameHeaders {c c' : Parser} {u : ℕ} {r : HttpCode}
    (h : c.parseUrl u = .ok (r, c')) :
  SameHeaders c c'
  := by
  rw [parseUrl] at h
  obtain ⟨url₁, -, h⟩ := bind_eq_ok.mp h
  obtain ⟨url₂, -, h⟩ := bind_eq_ok.mp h
  dsimp only at h
  split at h
  · cases h
    exact { SameHeaders.refl c with }
  · apply SameHeaders.trans _ (parsePath_sameHeaders h)
    exact { SameHeaders.refl c with }

theorem parseVersion_sameHeaders {c c' : Parser} {u : ℕ} {r : HttpCode}
    (h : c.parseVersion u = .ok (r, c')) :
  SameHeaders c c'
  := by
  rw [parseVersion] at h
  obtain ⟨⟨version, c₁⟩, hw, h⟩ := bind_eq_ok.mp h
  have h₁ := cutWord_sameHeaders hw
  dsimp only at h
  split at h
  · cases h
    exact { h₁ with }
  · split at h
    · apply SameHeaders.trans _ (parseUrl_sameHeaders h)
      exact { h₁ with }
    · cases h
      exact { h₁ with }

theorem parseMethod_sameHeaders {c c' : Parser} {text u : ℕ} {r : HttpCode}
    (h : c.parseMethod text u = .ok (r, c')) :
  SameHeaders c c'
  := by
  rw [parseMethod] at h
  split at h
  · cases h
    apply SameHeaders.refl
  · exact { parseVersion_sameHeaders h with }

/-- `parse_request_line` leaves the indices and what the headers set. -/
theorem parseRequestLine_sameHeaders {c c' : Parser} {text : ℕ} {r : HttpCode}
    (h : c.parseRequestLine text = .ok (r, c')) :
  SameHeaders c c'
  := by
  rw [parseRequestLine] at h
  obtain ⟨⟨url, c₁⟩, hw, h⟩ := bind_eq_ok.mp h
  have h₁ := cutWord_sameHeaders hw
  dsimp only at h
  split at h
  · cases h
    exact { h₁ with }
  · apply SameHeaders.trans _ (parseMethod_sameHeaders h)
    exact { h₁ with }

theorem parseHeaders_sameIndices (c : Parser) (text : ℕ) :
  SameIndices c (c.parseHeaders text).2
  := by
  rw [parseHeaders]
  split
  · split
    · exact ⟨rfl, rfl, rfl⟩
    · exact ⟨rfl, rfl, rfl⟩
  · split
    · split
      · exact ⟨rfl, rfl, rfl⟩
      · exact ⟨rfl, rfl, rfl⟩
    · split
      · exact ⟨rfl, rfl, rfl⟩
      · split
        · exact ⟨rfl, rfl, rfl⟩
        · exact ⟨rfl, rfl, rfl⟩

theorem parseContent_sameIndices {c c' : Parser} {text : ℕ} {r : HttpCode}
    (h : c.parseContent text = .ok (r, c')) :
  SameIndices c c'
  := by
  rw [parseContent] at h
  split at h
  · cases h
  · split at h
    · obtain ⟨c₁, hs, h⟩ := bind_eq_ok.mp h
      cases h
      exact { (store_sameHeaders hs).toSameIndices with }
    · cases h
      exact ⟨rfl, rfl, rfl⟩

theorem parseText_sameIndices {c c' : Parser} {text : ℕ} {r : HttpCode}
    (h : c.parseText text = .ok (r, c')) :
  SameIndices c c'
  := by
  rw [parseText] at h
  split at h
  · apply (parseRequestLine_sameHeaders h).toSameIndices
  · have hp := parseHeaders_sameIndices c text
    rw [Except.ok.inj h] at hp
    apply hp
  · apply parseContent_sameIndices h

/-- A pass through the loop of `process_read` starts the next line at `m_check_index`
and leaves the other indices alone. -/
theorem readPass_sameIndices {c c' : Parser} {pass : Pass} (h : c.readPass = .ok (pass, c')) :
  SameIndices c.nextLine c'
  := by
  obtain ⟨r, hp, h⟩ := bind_eq_ok.mp h
  cases h
  apply parseText_sameIndices hp

theorem endLine_indices {c c' : Parser} {status : LineStatus} (h : c.endLine = .ok (status, c')) :
  c'.readIndex = c.readIndex ∧ c'.startLine = c.startLine ∧
    (status = .lineOk → c.checkIndex < c.readIndex ∧ c.checkIndex < c'.checkIndex) ∧
    (status ≠ .lineOk → c' = c)
  := by
  rw [endLine] at h
  split at h
  · next hlt =>
      split at h
      · split at h
        · cases h
          simp
        · split at h
          · obtain ⟨c₁, hs₁, h⟩ := bind_eq_ok.mp h
            obtain ⟨c₂, hs₂, h⟩ := bind_eq_ok.mp h
            have hi := (store_sameHeaders hs₁).trans (store_sameHeaders hs₂)
            cases h
            simp [hi.readIndex, hi.checkIndex, hi.startLine, hlt]
          · cases h
            simp
      · split at h
        · obtain ⟨c₁, hs₁, h⟩ := bind_eq_ok.mp h
          obtain ⟨c₂, hs₂, h⟩ := bind_eq_ok.mp h
          have hi := (store_sameHeaders hs₁).trans (store_sameHeaders hs₂)
          cases h
          simp [hi.readIndex, hi.checkIndex, hi.startLine, hlt]
        · cases h
          simp
  · cases h
    simp

/-- `parse_line` moves `m_check_index` only, never back, and past the line it ends. -/
theorem parseLine_indices (c : Parser) {c' : Parser} {status : LineStatus}
    (h : c.parseLine = .ok (status, c')) :
  c'.readIndex = c.readIndex ∧ c'.startLine = c.startLine ∧ c.checkIndex ≤ c'.checkIndex ∧
    (status = .lineOk → c.checkIndex < c.readIndex ∧ c.checkIndex < c'.checkIndex)
  := by
  have key := Loop.whileLoop_rule scanLine_decreases
    (P := fun c r => ∀ status c', r = .ok (status, c') →
      c'.readIndex = c.readIndex ∧ c'.startLine = c.startLine ∧ c.checkIndex ≤ c'.checkIndex ∧
        (status = .lineOk → c.checkIndex < c.readIndex ∧ c.checkIndex < c'.checkIndex))
  apply key _ _ c status c' h
  · intro c c₁ r hc ih status c' hr
    rw [scanLine] at hc
    split at hc
    · next hplain =>
        cases hc
        obtain ⟨h₁, h₂, h₃, h₄⟩ := ih status c' hr
        dsimp only at h₁ h₂ h₃ h₄
        refine ⟨h₁, h₂, by omega, ?_⟩
        intro hok
        have := h₄ hok
        omega
    · cases hc
  · intro c r hc status c' hr
    subst hr
    rw [scanLine] at hc
    split at hc
    · cases hc
    · have he := endLine_indices (Sum.inr.inj hc)
      refine ⟨he.1, he.2.1, ?_, he.2.2.1⟩
      by_cases hok : status = .lineOk
      · have := he.2.2.1 hok
        omega
      · rw [he.2.2.2 hok]

/-- A pass at the body sets `line_status` to `LINE_OPEN`. -/
theorem readPass_content {c c' : Parser} {status : LineStatus} (hc : c.checkState = .content)
    (h : c.readPass = .ok (.again status, c')) :
  status = .lineOpen
  := by
  obtain ⟨r, -, h⟩ := bind_eq_ok.mp h
  have hpass := congrArg Prod.fst (Except.ok.inj h)
  dsimp only at hpass
  rw [hc, passOf] at hpass
  split at hpass
  · cases hpass
  · cases hpass
    rfl

/-- The measure of the loop of `process_read`. -/
def readMeasure (s : Parser × LineStatus) : ℕ :=
  2 * (s.1.readIndex - s.1.checkIndex) + if s.2 = .lineOk then 1 else 0

theorem readLine_decreases :
  Loop.Decreases readLine readMeasure
  := by
  rintro ⟨c, status⟩ ⟨c', status'⟩ h
  unfold readLine at h
  dsimp only at h
  split at h
  · next hc =>
      unfold afterPass at h
      split at h
      · cases h
      · next hp =>
          cases h
          obtain ⟨h₃, h₄, -⟩ := readPass_sameIndices hp
          dsimp only [nextLine] at h₃ h₄
          simp [readMeasure, h₃, h₄, hc.2, readPass_content hc.1 hp]
      · cases h
  · split at h
    · cases h
    · next c₁ hl =>
        obtain ⟨h₁, -, -, h₂⟩ := parseLine_indices c hl
        have hlt := h₂ rfl
        unfold afterPass at h
        split at h
        · cases h
        · next hp =>
            cases h
            obtain ⟨h₃, h₄, -⟩ := readPass_sameIndices hp
            dsimp only [nextLine] at h₃ h₄
            unfold readMeasure
            dsimp only
            split <;> omega
        · cases h
    · cases h

/-- `http_conn::process_read`. -/
def processRead (c : Parser) : Except Fault (ReadExit × Parser) :=
  Loop.whileLoop readLine_decreases (c, .lineOk)

end Parser

end WebServer
