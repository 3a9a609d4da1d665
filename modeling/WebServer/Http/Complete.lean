import WebServer.Http.Body

/-!
# Complete requests

A `CompleteRequest` is what a client sends in one piece: a request line, header lines in any
order and with repetitions, the empty line, and a body at least as long as the last header
that declares a length says.  What it says is read off its parts; `process_read` finds out
the same (`processRead_complete`), with the line scanner and the line parsers at work in one
buffer.
-/

open CString Fallible

namespace WebServer

/-- The length of the body that the last of the header lines declares. -/
def lastLength (headers : List (List UInt8)) : ℤ :=
  ((lastValue (ascii "Content-Length:") headers).map atol).getD 0

/-- A complete request. -/
structure CompleteRequest extends RequestLine where
  headers : List (List UInt8)
  body : List UInt8
  headers_ne_nil : ∀ line ∈ headers, line ≠ []
  headers_line : ∀ line ∈ headers, ∀ b ∈ line, isLineByte b = true
  length_nonneg : 0 ≤ lastLength headers
  length_le : lastLength headers ≤ body.length

namespace CompleteRequest

/-- The bytes of the request. -/
def bytes (q : CompleteRequest) : List UInt8 :=
  q.line ++ crlf ++ (q.headers.flatMap (· ++ crlf) ++ (crlf ++ q.body))

/-- The length of the part of the body that the request speaks of. -/
def length (q : CompleteRequest) : ℕ := (lastLength q.headers).toNat

/-- What the request says. -/
def parsed (q : CompleteRequest) : Parsed := q.headers.foldl Parsed.after q.toRequestLine.parsed

theorem length_eq (q : CompleteRequest) :
  (q.length : ℤ) = lastLength q.headers
  := Int.toNat_of_nonneg q.length_nonneg

theorem length_le_body (q : CompleteRequest) :
  q.length ≤ q.body.length
  := by
  have hle := q.length_le
  rw [← q.length_eq] at hle
  apply Int.ofNat_le.mp hle

theorem length_bytes (q : CompleteRequest) :
  q.bytes.length
    = q.line.length + 2 + ((q.headers.flatMap (· ++ crlf)).length + (2 + q.body.length))
  := by
  simp only [bytes, List.length_append]
  rfl

/-- The declared length as the parser stores it. -/
theorem parsed_length (q : CompleteRequest) (hsize : q.bytes.length < readBuffSize) :
  q.parsed.length = q.length
  := by
  have hlt : q.length < 2 ^ 31 := by
    have hle := q.length_le_body
    rw [q.length_bytes] at hsize
    have hbuf : readBuffSize = 2048 := rfl
    omega
  have hlen := q.length_eq
  rw [parsed, Parsed.foldl_after]
  dsimp only
  rw [lastLength] at hlen
  cases hlast : lastValue (ascii "Content-Length:") q.headers with
  | none =>
      rw [hlast] at hlen
      apply hlen.symm
  | some v =>
      rw [hlast, Option.map_some, Option.getD_some] at hlen
      rw [Option.map_some, Option.getD_some, ← hlen, toInt32_of_lt hlt]

end CompleteRequest

namespace Parser

/-! ### The head of a complete request -/

/-- Header by header, the lengths that were declared are those of what was found out. -/
theorem foldl_lengthAfter (headers : List (List UInt8)) (r : Parsed) :
  headers.foldl lengthAfter r.length = (headers.foldl Parsed.after r).length
  := by
  induction headers generalizing r with
  | nil => rfl
  | cons line headers ih =>
      rw [List.foldl_cons, List.foldl_cons, ← ih, lengthAfter_eq]
      rfl

/-- The request line and the header lines of a complete request are understood. -/
theorem init_receive_headers (q : CompleteRequest) (hsize : q.bytes.length < readBuffSize) :
  ∃ c k, AtHeader c k q.length ∧ c.parsed = q.parsed ∧ k + (2 + q.body.length) < readBuffSize ∧
    (init.receive q.bytes).firstPoint = (c.receive (crlf ++ q.body)).firstPoint
  := by
  rw [q.length_bytes] at hsize
  have hline : (q.line ++ crlf).length = q.line.length + 2 := List.length_append
  have hcrlf : (crlf ++ q.body).length = 2 + q.body.length := by
    rw [List.length_append]
    rfl
  obtain ⟨c₁, hpoint₁, hc₁, hparsed₁⟩ := init_receive_line q.toRequestLine (by omega)
  obtain ⟨c₂, hpoint₂, hc₂, hparsed₂⟩ :=
    hc₁.receive_headers q.headers_ne_nil q.headers_line (by omega)
  rw [hparsed₁] at hparsed₂
  have hlength : q.headers.foldl lengthAfter 0 = q.length := by
    rw [← q.parsed_length (by rw [q.length_bytes]; exact hsize)]
    apply foldl_lengthAfter q.headers q.toRequestLine.parsed
  rw [hlength] at hc₂
  refine ⟨c₂, _, hc₂, hparsed₂, by omega, ?_⟩
  rw [CompleteRequest.bytes, init_atLine.firstPoint_append hpoint₁,
    hc₁.firstPoint_append hpoint₂]
  · omega
  · rw [hline, List.length_append]
    omega

/-! ### What follows the head -/

/-- The bytes behind the head of a request with a body. -/
theorem AtBody.receive {c : Parser} {k n : ℕ} (h : AtBody c k n) (body : List UInt8)
    (hroom : k + n < readBuffSize) :
  InBody (c.receive body) k n body
  where
  checkState := h.checkState
  startLine := h.startLine
  checkIndex := h.checkIndex
  readIndex := by rw [receive_readIndex, h.readIndex]
  contentLength := h.contentLength
  spells := h.readIndex ▸ spells_receive c body
  nul := by
    intro i hi
    rw [readBuf_receive _ _ (by rw [h.readIndex]; omega)]
    apply h.between.closed.nul
    rw [h.startLine, hi]
  room := hroom

/-- The NUL behind the body does not change what was found out. -/
theorem AtBody.parsed_bodyFound {c : Parser} {k n : ℕ} (h : AtBody c k n) (body : List UInt8)
    (hroom : k + n < readBuffSize) :
  ((c.receive body).bodyFound k n).parsed = c.parsed
  := by
  have hclosed : Sealed c k := h.startLine ▸ h.between.closed
  apply hclosed.parsed_eq (by omega)
  intro i hi
  change Function.update (c.receive body).readBuf (k + n) 0 i = c.readBuf i
  rw [Function.update_of_ne (by omega), readBuf_receive _ _ (by rw [h.readIndex]; exact hi)]

/-! ### Complete requests -/

/-- The parser found out what the request says. -/
structure Finds (c : Parser) (q : CompleteRequest) : Prop where
  method : methodOf q.method = some c.method
  cgi : c.cgi = if c.method = .post then 1 else 0
  url : c.urlText = some (pageOf (pathOf q.url))
  linger : c.linger = true ↔ ∃ line ∈ q.headers, keepsAlive line = true
  contentLength : c.contentLength = lastLength q.headers
  host : c.hostText = lastValue (ascii "Host:") q.headers
  string : 0 < q.length → ∃ p, c.string = some p ∧
    Spells c.readBuf p (q.body.take q.length) ∧ c.readBuf (p + q.length) = 0

/-- What the last values of the headers say. -/
theorem finds_of_parsed {c : Parser} {q : CompleteRequest} (h : c.parsed = q.parsed)
    (hsize : q.bytes.length < readBuffSize)
    (hstring : 0 < q.length → ∃ p, c.string = some p ∧
      Spells c.readBuf p (q.body.take q.length) ∧ c.readBuf (p + q.length) = 0) :
  Finds c q
  := by
  have hlength := (congrArg Parsed.length h).trans (q.parsed_length hsize)
  obtain ⟨m, hm⟩ := Option.isSome_iff_exists.mp q.method_implemented
  rw [CompleteRequest.parsed, Parsed.foldl_after, RequestLine.parsed, hm] at h
  have hmethod : c.method = m := congrArg Parsed.method h
  have hcgi : c.cgi = if some m = some Method.post then 1 else 0 := congrArg Parsed.cgi h
  have hlinger : c.linger = (false || q.headers.any keepsAlive) := congrArg Parsed.linger h
  have hhost : c.hostText = (lastValue (ascii "Host:") q.headers).or none :=
    congrArg Parsed.host h
  refine ⟨?_, ?_, congrArg Parsed.url h, ?_, hlength.trans q.length_eq, ?_, hstring⟩
  · rw [hm, hmethod]
  · rw [hcgi, hmethod]
    exact if_congr (Option.some.injEq m .post ▸ Iff.rfl) rfl rfl
  · rw [hlinger, Bool.false_or, List.any_eq_true]
  · rw [hhost, Option.or_none]

/-- A complete request is handed to `do_request`. -/
theorem processRead_parsed (q : CompleteRequest) (hsize : q.bytes.length < readBuffSize) :
  ∃ c, (init.receive q.bytes).processRead = .ok (.doRequest, c) ∧ c.parsed = q.parsed ∧
    (0 < q.length → ∃ p, c.string = some p ∧
      Spells c.readBuf p (q.body.take q.length) ∧ c.readBuf (p + q.length) = 0)
  := by
  obtain ⟨c, k, hc, hparsed, hroom, hhead⟩ := init_receive_headers q hsize
  have hroom' : k + (crlf.length + q.body.length) ≤ readBuffSize := Nat.le_of_lt hroom
  have hbetween : Between (init.receive q.bytes) := by
    apply init_between.receive
    rw [receive_readIndex, show init.readIndex = 0 from rfl]
    omega
  rw [hbetween.processRead_eq init_drained.header, hhead]
  rcases Nat.eq_zero_or_pos q.length with hzero | hpos
  · rw [hzero] at hc
    obtain ⟨d, hpoint, hparsed', hd⟩ := hc.receive_end (by omega)
    refine ⟨d.receive q.body, ?_, ?_, fun hpos => absurd hpos (by omega)⟩
    · rw [hc.firstPoint_of_point hpoint hroom']
      rfl
    · rw [hd.parsed_receive, hparsed', hparsed]
  · have hle := q.length_le_body
    obtain ⟨d, hpoint, hd, hparsed'⟩ := hc.receive_empty (by omega) (by omega)
    have hroom'' : k + 2 + q.length < readBuffSize := by omega
    obtain ⟨hread, hspells, hnul⟩ := (hd.receive q.body hroom'').complete hle
    refine ⟨(d.receive q.body).bodyFound (k + 2) q.length, ?_, ?_, ?_⟩
    · rw [hc.firstPoint_of_point hpoint hroom']
      exact hread
    · rw [hd.parsed_bodyFound q.body hroom'', hparsed', hparsed]
    · intro _
      exact ⟨k + 2, rfl, hspells, hnul⟩

/-- `process_read` hands every complete request to `do_request`, with what the request
says. -/
theorem processRead_complete (q : CompleteRequest) (hsize : q.bytes.length < readBuffSize) :
  ∃ c, (init.receive q.bytes).processRead = .ok (.doRequest, c) ∧ Finds c q
  := by
  obtain ⟨c, hread, hparsed, hstring⟩ := processRead_parsed q hsize
  exact ⟨c, hread, finds_of_parsed hparsed hsize hstring⟩

/-- Header lines that repeat, in any case. -/
def repeatingHeaders : List (List UInt8) :=
  [ascii "Content-Length: 9", ascii "Host:a", ascii "connection: Keep-Alive",
    ascii "content-length:2", ascii "Accept: */*", ascii "Host: b"]

/-- `post http://localhost/ http/1.1` with these headers and a byte behind the body. -/
def repeatingRequest : CompleteRequest where
  method := ascii "post"
  blank := 9
  url := ascii "http://localhost/"
  blank' := 9
  version := ascii "http/1.1"
  headers := repeatingHeaders
  body := ascii "ab!"
  method_implemented := by decide
  blank_isBlank := by decide
  url_word := List.all_eq_true.mp (by decide)
  url_path := by decide
  blank'_isBlank := by decide
  version_http := by decide
  headers_ne_nil := by decide
  headers_line := by
    have hall : repeatingHeaders.all (List.all · isLineByte) = true := by decide
    intro line hline
    apply List.all_eq_true.mp (List.all_eq_true.mp hall line hline)
  length_nonneg := by decide
  length_le := by decide

set_option maxRecDepth 10000 in
theorem processRead_complete_repeatingRequest :
  ∃ c, (init.receive repeatingRequest.bytes).processRead = .ok (.doRequest, c) ∧
    Finds c repeatingRequest
  := processRead_complete repeatingRequest (by decide)

end Parser

end WebServer
