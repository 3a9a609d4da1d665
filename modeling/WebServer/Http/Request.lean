import WebServer.Http.HeaderPhase
import WebServer.Http.Reference

/-!
# Requests with a body

A `Request` is what a client sends: a valid request line, header lines, the empty line
and a body of the length the headers declare.  The header phase accepts the head of every
request, line by line, and ends behind the empty line with the parser turned to the body
(`Request.head_content`).
-/

open CString Fallible

namespace WebServer

/-- The length of the body after a header line, which may declare it. -/
def lengthAfter (n : ℤ) (line : List UInt8) : ℤ :=
  if hasPrefixIgnoreCase line (ascii "Content-Length:") then
    toInt32 (atol ((line.drop 15).dropWhile isBlank))
  else n

/-- The length of the body that header lines declare. -/
def declaredLength (headers : List (List UInt8)) : ℤ := headers.foldl lengthAfter 0

/-- A request with a body. -/
structure Request where
  method : List UInt8
  blank : UInt8
  url : List UInt8
  blank' : UInt8
  version : List UInt8
  headers : List (List UInt8)
  body : List UInt8
  method_implemented : (Parser.methodOf method).isSome = true
  blank_isBlank : isBlank blank = true
  url_word : ∀ b ∈ url, isWordByte b = true
  url_path : hasPath url = true
  blank'_isBlank : isBlank blank' = true
  version_http : eqIgnoreCase version (ascii "HTTP/1.1") = true
  headers_ne_nil : ∀ line ∈ headers, line ≠ []
  headers_line : ∀ line ∈ headers, ∀ b ∈ line, isLineByte b = true
  body_declared : declaredLength headers = body.length
  body_ne_nil : body ≠ []

namespace Request

/-- The request line without its end. -/
def line (q : Request) : List UInt8 :=
  q.method ++ q.blank :: (q.url ++ q.blank' :: q.version)

/-- The request up to the body. -/
def head (q : Request) : List UInt8 :=
  q.line ++ crlf ++ (q.headers.flatMap (· ++ crlf) ++ crlf)

/-- The bytes of the request. -/
def bytes (q : Request) : List UInt8 := q.head ++ q.body

/-- The request line. -/
def requestLine (q : Request) : RequestLine where
  method := q.method
  blank := q.blank
  url := q.url
  blank' := q.blank'
  version := q.version
  method_implemented := q.method_implemented
  blank_isBlank := q.blank_isBlank
  url_word := q.url_word
  url_path := q.url_path
  blank'_isBlank := q.blank'_isBlank
  version_http := q.version_http

end Request

namespace Parser

/-! ### Words of the request line -/

theorem Ends.cutWord_eq {c : Parser} {p e : ℕ} (h : Ends c p e) {w l : List UInt8} {b : UInt8}
    (ht : c.text p = w ++ b :: l) (hw : ∀ x ∈ w, isBlank x = false) (hb : isBlank b = true) :
  c.cutWord p = .ok (some (p + w.length + 1), c.put (p + w.length) 0) ∧ p + w.length < e
  := by
  have hlen := h.length_text
  rw [ht, List.length_append, List.length_cons] at hlen
  have hsize := h.lt_size
  have hs := strpbrk_append ht hw hb
  refine ⟨?_, by omega⟩
  rw [cutWord, hs]
  dsimp only
  rw [store_of_lt _ _ (by omega), ok_bind]

/-- The word that was cut off. -/
theorem text_put_word {c : Parser} {p : ℕ} {w l : List UInt8} {b : UInt8}
    (hlt : p + w.length < readBuffSize) (ht : c.text p = w ++ b :: l) :
  (c.put (p + w.length) 0).text p = w
  := by
  have hspells := spells_stringAt c.readBuf readBuffSize p
  have hnul := not_mem_stringAt c.readBuf readBuffSize p
  rw [text] at ht
  rw [ht] at hspells hnul
  rw [spells_append] at hspells
  rw [List.mem_append, not_or] at hnul
  apply stringAt_spells _ _ hnul.1 hlt
  · apply hspells.1.congr
    intro i _ hi
    apply Function.update_of_ne (Nat.ne_of_lt hi)
  · apply Function.update_self

/-- What follows the word that was cut off. -/
theorem Ends.text_put_rest {c : Parser} {p e : ℕ} (h : Ends c p e) {w l : List UInt8} {b : UInt8}
    (ht : c.text p = w ++ b :: l) :
  (c.put (p + w.length) 0).text (p + w.length + 1) = l
  := by
  have hlen := h.length_text
  rw [ht, List.length_append, List.length_cons] at hlen
  have hrest : c.text (p + w.length + 1) = l := by
    have happ := stringAt_append (v := w ++ [b]) (w := l)
      (show stringAt c.readBuf readBuffSize p = _ by simpa [text] using ht)
    rw [List.length_append, List.length_singleton, ← Nat.add_assoc] at happ
    apply happ
  rw [← hrest]
  apply stringAt_congr (q := e) (by omega) h.lt_size h.nul
  intro i hi _
  apply Function.update_of_ne
  omega

/-! ### The request line is accepted -/

/-- What the parser found out about a request. -/
def parsed (c : Parser) : Parsed where
  method := c.method
  cgi := c.cgi
  url := c.urlText
  linger := c.linger
  length := c.contentLength
  host := c.hostText

/-- The request line is accepted, with the page `page`. -/
def Accepts (c : Parser) (page : List UInt8) (r : Except Fault (HttpCode × Parser)) : Prop :=
  ∃ c', r = .ok (.noRequest, c') ∧ c'.checkState = .header ∧ c'.method = c.method ∧
    c'.cgi = c.cgi ∧ c'.urlText = some page

/-- The page `/judge.html`, for which there is room behind a bare slash. -/
theorem text_putAll_judge (c : Parser) {p : ℕ} (hp : c.readBuf p = 47)
    (hroom : p + 12 ≤ readBuffSize) :
  (c.putAll (p + 1) (ascii "judge.html" ++ [0])).text p = ascii "/judge.html"
  := by
  have hspells := spells_writeAt c.readBuf (p + 1) (ascii "judge.html" ++ [0])
  rw [spells_append] at hspells
  have hslash : writeAt c.readBuf (p + 1) (ascii "judge.html" ++ [0]) p = 47 := by
    rw [writeAt_of_lt _ _ (Nat.lt_succ_self p), hp]
  rw [putAll_eq, text]
  exact stringAt_spells ⟨hslash, hspells.1⟩ hspells.2.1 (by decide) hroom

theorem parsePath_header (c : Parser) {p : ℕ} (hp : c.readBuf p = 47)
    (hroom : p + 12 ≤ readBuffSize) (hurl : c.url = some p) :
  Accepts c (pageOf (c.text p)) (c.parsePath p)
  := by
  have ht : c.text p = 47 :: c.text (p + 1) := by
    unfold text
    rw [stringAt_cons (by omega) (by rw [hp]; decide), hp]
  rw [parsePath]
  rw [if_neg (not_not_intro hp)]
  split
  · next hlen =>
      have hjudge : (ascii "judge.html" ++ [0]).length = 11 := rfl
      have hslash : c.text p = [47] := by
        rw [ht, List.length_cons] at hlen
        rw [ht, List.length_eq_zero_iff.mp (Nat.succ.inj hlen)]
      have htext := text_putAll_judge c hp hroom
      rw [storeAll_of_le _ (by omega), ok_bind, pageOf, if_pos hslash]
      rw [putAll_eq] at htext ⊢
      refine ⟨_, rfl, rfl, rfl, rfl, ?_⟩
      rw [urlText]
      dsimp only
      rw [hurl]
      apply congrArg some htext
  · next hlen =>
      have hslash : c.text p ≠ [47] := fun h => hlen (by rw [h]; rfl)
      rw [pageOf, if_neg hslash]
      refine ⟨_, rfl, rfl, rfl, rfl, ?_⟩
      rw [urlText]
      dsimp only
      rw [hurl]
      rfl

/-- A path has no scheme. -/
theorem skipScheme_path (c : Parser) {p : ℕ} (hp : c.readBuf p = 47) (hsize : p < readBuffSize)
    {scheme : List UInt8} (hscheme : ∀ l, hasPrefixIgnoreCase (47 :: l) scheme = false) :
  c.skipScheme scheme (some p) = .ok (some p)
  := by
  have ht : c.text p = 47 :: c.text (p + 1) := by
    unfold text
    rw [stringAt_cons hsize (by rw [hp]; decide), hp]
  rw [skipScheme, ht, hscheme]
  rfl

/-- A scheme is skipped with the authority when a path follows. -/
theorem Ends.skipScheme_scheme {c : Parser} {u e : ℕ} (h : Ends c u e) {scheme : List UInt8}
    (hscheme : hasPrefixIgnoreCase (c.text u) scheme = true)
    (hslash : ((c.text u).drop scheme.length).contains 47 = true) :
  ∃ p, u ≤ p ∧ p < e ∧ c.readBuf p = 47 ∧
    c.text p = ((c.text u).drop scheme.length).dropWhile (· != 47) ∧
    c.skipScheme scheme (some u) = .ok (some p)
  := by
  have hlen := length_of_hasPrefixIgnoreCase hscheme
  have hdrop : c.text (u + scheme.length) = (c.text u).drop scheme.length := stringAt_drop hlen
  rw [← hdrop] at hslash ⊢
  obtain ⟨p, hp⟩ := @strpbrk_of_mem _ _ _ (· == 47) _ (List.contains_iff_mem.mp hslash) rfl
  obtain ⟨hup, hpe, hslash⟩ := strpbrk_eq_some hp
  have hend := (h.from (q := u + scheme.length)
    (by have := h.length_text; omega)).length_text
  rw [text] at hend
  refine ⟨p, by omega, by omega, eq_of_beq hslash, stringAt_strpbrk hp, ?_⟩
  rw [skipScheme, if_pos hscheme, hp]

theorem Ends.parseUrl_header {c : Parser} {u e : ℕ} (h : Ends c u e)
    (hroom : e + 11 ≤ readBuffSize) (hurl : hasPath (c.text u) = true) :
  Accepts c (pageOf (pathOf (c.text u))) (c.parseUrl u)
  := by
  have https {p : ℕ} (hpe : p < e) (hp : c.readBuf p = 47) :
      c.skipScheme (ascii "https://") (some p) = .ok (some p) :=
    skipScheme_path c hp (by omega) (fun l => rfl)
  have path {p : ℕ} (hpe : p < e) (hp : c.readBuf p = 47)
      (hskip : (c.skipScheme (ascii "http://") (some u)
        >>= c.skipScheme (ascii "https://")) = .ok (some p)) :
      Accepts c (pageOf (c.text p)) (c.parseUrl u) := by
    have happ := parsePath_header { c with url := some p } hp (by omega) rfl
    obtain ⟨url, hurl, hskip⟩ := bind_eq_ok.mp hskip
    rw [parseUrl, hurl, ok_bind, hskip, ok_bind]
    apply happ
  rw [hasPath] at hurl
  rw [pathOf]
  split at hurl
  · next hscheme =>
      obtain ⟨p, -, hpe, hp, hpath, hskip⟩ := h.skipScheme_scheme hscheme hurl
      have hpath' : c.text p = ((c.text u).drop 7).dropWhile (· != 47) := hpath
      rw [if_pos hscheme, ← hpath']
      apply path hpe hp
      rw [hskip, ok_bind, https hpe hp]
  · next hno =>
      have hskip : c.skipScheme (ascii "http://") (some u) = .ok (some u) := by
        rw [skipScheme, if_neg hno]
      rw [if_neg hno]
      split at hurl
      · next hscheme =>
          obtain ⟨p, -, hpe, hp, hpath, hskip'⟩ := h.skipScheme_scheme hscheme hurl
          have hpath' : c.text p = ((c.text u).drop 8).dropWhile (· != 47) := hpath
          rw [if_pos hscheme, ← hpath']
          apply path hpe hp
          rw [hskip, ok_bind, hskip']
      · next hno' =>
          rw [if_neg hno']
          have hspells := spells_stringAt c.readBuf readBuffSize u
          have hlen := h.length_text
          obtain ⟨l, ht⟩ := List.head?_eq_some_iff.mp (eq_of_beq hurl)
          rw [text] at ht hlen
          rw [ht] at hspells hlen
          rw [List.length_cons] at hlen
          have hp : c.readBuf u = 47 := hspells.1
          have hue : u < e := by omega
          apply path hue hp
          rw [hskip, ok_bind, https hue hp]

/-- The parser `d` stands at `u`, at the word `text` of the request line whose method was
found to be `m`; a NUL at `e` ends it. -/
structure AtWord (c d : Parser) (m : Method) (u e : ℕ) (text : List UInt8) : Prop extends
    Ends d u e where
  text : d.text u = text
  checkState : d.checkState = c.checkState
  method : d.method = m
  cgi : d.cgi = if m = .post then 1 else c.cgi

/-- The request line behind a method that is implemented. -/
theorem Ends.parseRequestLine_method {c : Parser} {p e : ℕ} (h : Ends c p e)
    {method rest : List UInt8} {blank : UInt8} {m : Method}
    (ht : c.text p = method ++ blank :: rest) (hm : methodOf method = some m)
    (hblank : isBlank blank = true) :
  ∃ d u, c.parseRequestLine p = d.parseVersion u ∧ AtWord c d m u e rest
  := by
  have hword : ∀ b ∈ method, isBlank b = false := fun b hb =>
    isBlank_of_isWordByte (isWordByte_method (Option.isSome_of_eq_some hm) b hb)
  obtain ⟨hw, hlt⟩ := h.cutWord_eq ht hword hblank
  have hmethod := text_put_word (hlt.trans h.lt_size) ht
  have hrest := h.text_put_rest ht
  let u := p + method.length + 1
  let d := { c.put (p + method.length) 0 with url := some u }
  have hu : Ends (d.setMethod m) u e := { h.put (i := p + method.length) with le := hlt }
  refine ⟨d.setMethod m, u, ?_,
    { hu with text := hrest, checkState := rfl, method := rfl, cgi := rfl }⟩
  rw [parseRequestLine, hw, ok_bind]
  change d.parseMethod p u = _
  rw [parseMethod, show d.text p = method from hmethod, hm]

/-- The request line behind a version that is served. -/
theorem AtWord.parseVersion_url {c d : Parser} {m : Method} {u e : ℕ}
    {target version : List UInt8} {blank : UInt8}
    (h : AtWord c d m u e (target ++ blank :: version))
    (htarget : ∀ b ∈ target, isBlank b = false) (hblank : isBlank blank = true)
    (hversion : eqIgnoreCase version (ascii "HTTP/1.1") = true) :
  ∃ d' e', d.parseVersion u = d'.parseUrl u ∧ AtWord c d' m u e' target ∧ e' + 9 ≤ e
  := by
  obtain ⟨hw, hlt⟩ := h.cutWord_eq h.text htarget hblank
  have hurl := text_put_word (hlt.trans h.lt_size) h.text
  have hrest := h.text_put_rest h.text
  let v := u + target.length + 1
  let d' := { d.put (u + target.length) 0 with version := some v }
  have hu : Ends d' u (u + target.length) := { h.of_put (Nat.le_add_right _ _) hlt with }
  refine ⟨d', u + target.length, ?_, { hu with
    text := hurl, checkState := h.checkState, method := h.method, cgi := h.cgi }, ?_⟩
  · have hhttp : eqIgnoreCase (d'.text v) (ascii "HTTP/1.1") = true := by
      rw [show d'.text v = version from hrest]
      apply hversion
    rw [parseVersion, hw, ok_bind]
    apply if_pos hhttp
  · have hlen := length_of_eqIgnoreCase hversion
    have hlen' := h.length_text
    have hname : (ascii "HTTP/1.1").length = 8 := rfl
    rw [h.text, List.length_append, List.length_cons] at hlen'
    omega

/-- The request line of a request is accepted. -/
theorem Ends.parseRequestLine_header {c : Parser} {p e : ℕ} (h : Ends c p e) (q : RequestLine)
    (hroom : e + 2 ≤ readBuffSize) (ht : c.text p = q.line) :
  ∃ m c', c.parseRequestLine p = .ok (.noRequest, c') ∧ c'.checkState = .header ∧
    methodOf q.method = some m ∧ c'.method = m ∧ c'.cgi = (if m = .post then 1 else c.cgi) ∧
    c'.urlText = some (pageOf (pathOf q.url))
  := by
  obtain ⟨m, hm⟩ := Option.isSome_iff_exists.mp q.method_implemented
  obtain ⟨d, u, hd, hrest⟩ := h.parseRequestLine_method ht hm q.blank_isBlank
  obtain ⟨d', e', hd', hurl, hend⟩ := hrest.parseVersion_url
    (fun b hb => isBlank_of_isWordByte (q.url_word b hb)) q.blank'_isBlank q.version_http
  obtain ⟨c', hc', hstate, hmethod, hcgi, hpage⟩ :=
    hurl.parseUrl_header (by omega) (by rw [hurl.text]; exact q.url_path)
  rw [hurl.text] at hpage
  exact ⟨m, c', by rw [hd, hd', hc'], hstate, hm, hmethod.trans hurl.method, hcgi.trans hurl.cgi,
    hpage⟩

/-! ### The header lines are accepted -/

theorem lengthAfter_eq (n : ℤ) (line : List UInt8) :
  lengthAfter n line
    = ((headerValue (ascii "Content-Length:") line).map fun v => toInt32 (atol v)).getD n
  := by
  rw [lengthAfter, headerValue]
  split
  · rfl
  · rfl

/-- The value of a header line in the buffer. -/
theorem text_valueOffset {c : Parser} {p : ℕ} {line name : List UInt8} (ht : c.text p = line)
    (hname : hasPrefixIgnoreCase line name = true) :
  c.text (c.valueOffset p name.length) = (line.drop name.length).dropWhile isBlank
  := by
  subst ht
  have hdrop : c.text (p + name.length) = (c.text p).drop name.length :=
    stringAt_drop (length_of_hasPrefixIgnoreCase hname)
  have happ := stringAt_append
    (hdrop.trans (List.takeWhile_append_dropWhile (p := isBlank)).symm)
  rw [valueOffset, hdrop]
  apply happ

/-- A header line is understood, and the next one is waited for. -/
theorem Ends.parseHeaders_line {c : Parser} {p e : ℕ} (h : Ends c p e) {line : List UInt8}
    (ht : c.text p = line) (hne : line ≠ []) :
  (c.parseHeaders p).1 = .noRequest ∧ (c.parseHeaders p).2.checkState = c.checkState ∧
    (c.parseHeaders p).2.parsed = c.parsed.after line
  := by
  have hp : c.readBuf p ≠ 0 := by
    intro hp
    apply hne
    rw [← ht]
    apply stringAt_spells (spells_nil _ _) hp List.not_mem_nil
    apply Nat.lt_of_le_of_lt h.le h.lt_size
  have hvalue {name : List UInt8} {n : ℕ} (hname : hasPrefixIgnoreCase line name = true)
      (hn : name.length = n) : headerValue name line = some (c.text (c.valueOffset p n)) := by
    rw [headerValue, if_pos hname, ← hn, text_valueOffset ht hname]
  have hnone {name : List UInt8} (hname : hasPrefixIgnoreCase line name = false) :
      headerValue name line = none := by
    rw [headerValue, hname]
    rfl
  rw [parseHeaders, Parsed.after, keepsAlive]
  rw [if_neg hp, ht]
  split
  · next hconnection =>
      have hlength : hasPrefixIgnoreCase line (ascii "Content-Length:") = false := by
        rw [Bool.eq_false_iff]
        intro hlength
        cases hconnection.symm.trans (not_connection hlength)
      rw [hvalue (n := 11) hconnection rfl, hnone hlength,
        hnone (not_host_of_connection hconnection), Option.any_some]
      split
      · next hkeep =>
          rw [hkeep, Bool.or_true]
          exact ⟨rfl, rfl, rfl⟩
      · next hkeep =>
          rw [Bool.eq_false_iff.mpr hkeep, Bool.or_false]
          exact ⟨rfl, rfl, rfl⟩
  · next hconnection =>
      rw [hnone (Bool.eq_false_iff.mpr hconnection), Option.any_none, Bool.or_false]
      split
      · next hlength =>
          rw [hvalue (n := 15) hlength rfl, hnone (not_host_of_length hlength), Option.map_some,
            Option.getD_some]
          generalize toInt32 (atol (c.text (c.valueOffset p 15))) = n
          exact ⟨rfl, rfl, rfl⟩
      · next hlength =>
          rw [hnone (Bool.eq_false_iff.mpr hlength)]
          split
          · next hhost =>
              rw [hvalue (n := 5) hhost rfl]
              exact ⟨rfl, rfl, rfl⟩
          · next hhost =>
              rw [hnone (Bool.eq_false_iff.mpr hhost)]
              exact ⟨rfl, rfl, rfl⟩

theorem readPass_of_header {c : Parser} (hs : c.checkState = .header) :
  c.readPass = .ok (passOf .header (c.nextLine.parseHeaders c.startLine).1,
    (c.nextLine.parseHeaders c.startLine).2)
  := by
  have hs' : c.nextLine.checkState = .header := hs
  rw [readPass, parseText_header hs', hs]
  rfl

/-! ### What the parser found out -/

/-- What was found out is written before `q`. -/
theorem Sealed.parsed_eq {c : Parser} {q : ℕ} (h : Sealed c q) (hq : q ≤ readBuffSize) {m : Memory}
    (hm : ∀ i, i < q → m i = c.readBuf i) :
  { c with readBuf := m }.parsed = c.parsed
  := by
  obtain ⟨hurl, hhost⟩ := h.texts_eq hq hm
  rw [parsed, parsed, ← hurl, ← hhost]
  rfl

/-- What arrives later does not change what was found out. -/
theorem Between.parsed_receive {c : Parser} (h : Between c) (bs : List UInt8) :
  (c.receive bs).parsed = c.parsed
  := by
  have hsame := h.sameHeader_receive bs
  rw [parsed, parsed, hsame.method, hsame.cgi, hsame.urlText, hsame.linger, hsame.contentLength,
    hsame.hostText]

/-! ### Lines as they arrive -/

/-- The parser stands at the beginning `k` of a line of which nothing was read. -/
structure AtLine (c : Parser) (k : ℕ) : Prop where
  between : Between c
  header : c.checkState ≠ .content
  startLine : c.startLine = k
  checkIndex : c.checkIndex = k
  readIndex : c.readIndex = k

theorem init_atLine :
  AtLine init 0
  where
  between := init_between
  header := init_drained.header
  startLine := rfl
  checkIndex := rfl
  readIndex := rfl

/-- The parser with a line received and closed. -/
def lineRead (c : Parser) (line : List UInt8) : Parser :=
  ((c.receive (line ++ crlf)).scannedTo (c.checkIndex + line.length)).closeLine

/-- `parse_line` passes over plain bytes. -/
theorem parseLine_scan {c : Parser} {n : ℕ} (hread : c.checkIndex + n ≤ c.readIndex)
    (hplain : ∀ i, i < n → isPlain (c.readBuf (c.checkIndex + i)) = true) :
  c.parseLine = (c.scannedTo (c.checkIndex + n)).parseLine
  := by
  induction n with
  | zero => rfl
  | succ n ih =>
      rw [ih (by omega) (fun i hi => hplain i (by omega)), parseLine_plain]
      · rfl
      · change c.checkIndex + n < c.readIndex
        omega
      · apply hplain n (Nat.lt_succ_self n)

/-- What was received behind what was read. -/
theorem spells_receive (c : Parser) (bs : List UInt8) :
  Spells (c.receive bs).readBuf c.readIndex bs
  := spells_writeAt c.readBuf c.readIndex bs

/-- The line that was received. -/
theorem AtLine.text_lineRead {c : Parser} {k : ℕ} (h : AtLine c k) {line : List UInt8}
    (hline : ∀ b ∈ line, isLineByte b = true) (hroom : k + line.length + 2 ≤ readBuffSize) :
  (c.lineRead line).text k = line
  := by
  have hspells : Spells (c.receive (line ++ crlf)).readBuf k (line ++ crlf) :=
    h.readIndex ▸ spells_receive c _
  have hcheck : (c.receive (line ++ crlf)).checkIndex = k := h.checkIndex
  have hbuf : (c.lineRead line).readBuf = Function.update (Function.update
      (c.receive (line ++ crlf)).readBuf (k + line.length) 0) (k + line.length + 1) 0 := by
    rw [← hcheck]
    rfl
  have hnul : 0 ∉ line := by
    intro hb
    cases hline 0 hb
  rw [text]
  rw [hbuf]
  apply stringAt_spells _ _ hnul (by omega)
  · apply ((spells_append _ _ _ _).mp hspells).1.congr
    intro i _ hi
    rw [Function.update_of_ne (by omega), Function.update_of_ne (by omega)]
  · rw [Function.update_of_ne (by omega), Function.update_self]

/-- A line that was received does not change what was found out. -/
theorem AtLine.parsed_lineRead {c : Parser} {k : ℕ} (h : AtLine c k) (line : List UInt8) :
  (c.lineRead line).parsed = c.parsed
  := by
  have hread := h.readIndex
  have hcheck := h.checkIndex
  have hsize := h.between.le_size
  have hclosed : Sealed c k := h.startLine ▸ h.between.closed
  apply hclosed.parsed_eq (by omega)
  intro i hi
  change Function.update (Function.update (c.receive (line ++ crlf)).readBuf
    (c.checkIndex + line.length) 0) (c.checkIndex + line.length + 1) 0 i = _
  rw [Function.update_of_ne (by omega), Function.update_of_ne (by omega),
    readBuf_receive _ _ (by omega)]

/-- The bytes of a line that was received. -/
theorem AtLine.bytes_receive {c : Parser} {k : ℕ} (h : AtLine c k) {line : List UInt8}
    (hline : ∀ b ∈ line, isLineByte b = true) :
  (∀ i, i < line.length → isPlain ((c.receive (line ++ crlf)).readBuf (k + i)) = true) ∧
    (c.receive (line ++ crlf)).readBuf (k + line.length) = 13 ∧
    (c.receive (line ++ crlf)).readBuf (k + line.length + 1) = 10
  := by
  have hspells : Spells (c.receive (line ++ crlf)).readBuf k (line ++ crlf) :=
    h.readIndex ▸ spells_receive c _
  rw [spells_append] at hspells
  refine ⟨?_, hspells.2.1, hspells.2.2.1⟩
  intro i hi
  rw [hspells.1.getElem hi]
  have hbyte := hline _ (List.getElem_mem hi)
  simp only [isLineByte, Bool.and_eq_true] at hbyte
  apply hbyte.1

/-- The parser has gone through a line that was received. -/
theorem AtLine.between_scannedTo {c : Parser} {k : ℕ} (h : AtLine c k) {line : List UInt8}
    (hline : ∀ b ∈ line, isLineByte b = true) (hroom : k + line.length + 2 ≤ readBuffSize) :
  Between ((c.receive (line ++ crlf)).scannedTo (k + line.length))
  := by
  have hplain := (h.bytes_receive hline).1
  have hlen : (line ++ crlf).length = line.length + 2 := List.length_append
  have hread := h.readIndex
  have hcheck := h.checkIndex
  have hstart := h.startLine
  have hd := h.between.receive (line ++ crlf) (by rw [receive_readIndex]; omega)
  refine ⟨?_, ?_, hd.le_size, ?_, { hd.closed with }⟩
  · change c.startLine ≤ k + line.length
    omega
  · change k + line.length ≤ c.readIndex + (line ++ crlf).length
    omega
  · intro i hi hi'
    change c.startLine ≤ i at hi
    change i < k + line.length at hi'
    have hbyte := hplain (i - k) (by omega)
    rw [show k + (i - k) = i by omega] at hbyte
    exact hbyte

/-- A line that arrives is found. -/
theorem AtLine.headerLine {c : Parser} {k : ℕ} (h : AtLine c k) {line : List UInt8}
    (hline : ∀ b ∈ line, isLineByte b = true) (hroom : k + line.length + 2 ≤ readBuffSize) :
  (c.receive (line ++ crlf)).headerLine = afterHeader (c.lineRead line).readPass ∧
    LineEnds (c.lineRead line)
  := by
  obtain ⟨hplain, hcr, hlf⟩ := h.bytes_receive hline
  have hbetween := h.between_scannedTo hline hroom
  have hread : (c.receive (line ++ crlf)).readIndex = k + (line.length + 2) := by
    rw [receive_readIndex, h.readIndex, List.length_append]
    rfl
  have hlt : k + line.length + 1 < (c.receive (line ++ crlf)).readIndex := by omega
  have hclosed : ((c.receive (line ++ crlf)).scannedTo (k + line.length)).closeLine
      = c.lineRead line := by
    rw [lineRead, h.checkIndex]
  have hparse : (c.receive (line ++ crlf)).parseLine = .ok (.lineOk, c.lineRead line) := by
    rw [parseLine_scan (n := line.length)]
    · rw [receive_checkIndex, h.checkIndex, parseLine_stop,
        endLine_crlf hbetween.le_size hlt hcr hlf, ← hclosed]
      · rfl
      · rintro ⟨-, hstop⟩
        change isPlain ((c.receive (line ++ crlf)).readBuf (k + line.length)) = true at hstop
        rw [hcr] at hstop
        cases hstop
    · rw [receive_checkIndex, h.checkIndex]
      omega
    · rw [receive_checkIndex, h.checkIndex]
      exact hplain
  refine ⟨?_, hclosed ▸ hbetween.closeLine hlt⟩
  rw [Parser.headerLine, hparse]

/-- A parser that has read nothing of a line waits. -/
theorem AtLine.firstPoint {c : Parser} {k : ℕ} (h : AtLine c k) :
  c.firstPoint = .ok (none, c)
  := by
  have hlt : ¬ c.checkIndex < c.readIndex := by
    rw [h.checkIndex, h.readIndex]
    apply Nat.lt_irrefl
  apply Loop.whileLoop_inr
  rw [Parser.headerLine, parseLine_stop (fun hh => hlt hh.1), endLine, if_neg hlt]

/-- After a pass over a line that arrived the parser stands behind the line. -/
theorem AtLine.lineRead {c c' : Parser} {k : ℕ} (h : AtLine c k) {line : List UInt8}
    (hends : LineEnds (c.lineRead line)) {pass : Pass}
    (hpass : (c.lineRead line).readPass = .ok (pass, c')) :
  Between c' ∧ c'.startLine = k + line.length + 2 ∧ c'.checkIndex = k + line.length + 2 ∧
    c'.readIndex = k + line.length + 2
  := by
  have hbetween := (hends.readPass_between h.header hpass).1
  have hi := readPass_sameIndices hpass
  have hcheck : (c.lineRead line).checkIndex = k + line.length + 2 := by
    rw [← h.checkIndex]
    rfl
  have hread : (c.lineRead line).readIndex = k + line.length + 2 := by
    change c.readIndex + (line ++ crlf).length = _
    rw [h.readIndex, List.length_append]
    rfl
  exact ⟨hbetween, hi.startLine.trans hcheck, hi.checkIndex.trans hcheck,
    hi.readIndex.trans hread⟩

/-- A line after which the header phase goes on. -/
theorem AtLine.receive_line {c c' : Parser} {k : ℕ} (h : AtLine c k) {line : List UInt8}
    (hline : ∀ b ∈ line, isLineByte b = true) (hroom : k + line.length + 2 ≤ readBuffSize)
    (hpass : (c.lineRead line).readPass = .ok (.again .lineOk, c'))
    (hheader : c'.checkState ≠ .content) :
  (c.receive (line ++ crlf)).firstPoint = .ok (none, c') ∧ AtLine c' (k + line.length + 2)
  := by
  obtain ⟨hl, hends⟩ := h.headerLine hline hroom
  obtain ⟨hbetween, hstart, hcheck, hread⟩ := h.lineRead hends hpass
  have h' : AtLine c' (k + line.length + 2) := ⟨hbetween, hheader, hstart, hcheck, hread⟩
  refine ⟨?_, h'⟩
  rw [← h'.firstPoint]
  apply Loop.whileLoop_inl
  rw [hl, hpass, afterHeader, if_neg hheader]

theorem AtLine.drained {c : Parser} {k : ℕ} (h : AtLine c k) :
  Drained c
  := ⟨h.between, h.header, h.firstPoint⟩

/-- What follows the lines that were received. -/
theorem AtLine.receiveMore {c : Parser} {k : ℕ} (h : AtLine c k) {bs bs' : List UInt8}
    (hroom : k + (bs.length + bs'.length) ≤ readBuffSize) :
  (c.receive (bs ++ bs')).firstPoint = receiveMore bs' (c.receive bs).firstPoint
  := by
  have hsize : (c.receive (bs ++ bs')).readIndex ≤ readBuffSize := by
    rw [receive_readIndex, h.readIndex, List.length_append]
    exact hroom
  exact (h.drained.receiveMore hsize).2.2

/-- What follows the lines after which the header phase goes on. -/
theorem AtLine.firstPoint_append {c d : Parser} {k : ℕ} (h : AtLine c k) {bs bs' : List UInt8}
    (hd : (c.receive bs).firstPoint = .ok (none, d))
    (hroom : k + (bs.length + bs'.length) ≤ readBuffSize) :
  (c.receive (bs ++ bs')).firstPoint = (d.receive bs').firstPoint
  := by
  rw [h.receiveMore hroom, hd, receiveMore_none]

/-- What follows the lines with which the header phase ends. -/
theorem AtLine.firstPoint_of_point {c d : Parser} {k : ℕ} (h : AtLine c k) {bs bs' : List UInt8}
    {p : Point} (hd : (c.receive bs).firstPoint = .ok (some p, d))
    (hroom : k + (bs.length + bs'.length) ≤ readBuffSize) :
  (c.receive (bs ++ bs')).firstPoint = .ok (some p, d.receive bs')
  := by
  rw [h.receiveMore hroom, hd]
  rfl

/-- The parser stands at the beginning `k` of a header line of which nothing was read,
and the headers before declared a body of `n` bytes. -/
structure AtHeader (c : Parser) (k : ℕ) (n : ℤ) : Prop extends AtLine c k where
  checkState : c.checkState = .header
  contentLength : c.contentLength = n

theorem init_receive_line (q : RequestLine) (hroom : q.line.length + 2 ≤ readBuffSize) :
  ∃ c, (init.receive (q.line ++ crlf)).firstPoint = .ok (none, c) ∧
    AtHeader c (q.line.length + 2) 0 ∧ c.parsed = q.parsed
  := by
  have hroom' : 0 + q.line.length + 2 ≤ readBuffSize := by omega
  have hends := (init_atLine.headerLine q.isLineByte_line hroom').2
  have ht := init_atLine.text_lineRead q.isLineByte_line hroom'
  have hd : Ends (init.lineRead q.line).nextLine 0 ((init.lineRead q.line).checkIndex - 2) :=
    { hends.ends with }
  obtain ⟨m, c, hp, hheader, hm, hmethod, hcgi, hurl⟩ := hd.parseRequestLine_header q
    (by have := hends.room; have := hends.le_read; have := hends.le_size; omega) ht
  have hsame := parseRequestLine_sameHeaders hp
  have hpass : (init.lineRead q.line).readPass = .ok (.again .lineOk, c) := by
    have hp' : (init.lineRead q.line).nextLine.parseText (init.lineRead q.line).startLine
        = .ok (.noRequest, c) := hp
    rw [readPass, hp']
    rfl
  obtain ⟨hpoint, hc⟩ := init_atLine.receive_line q.isLineByte_line hroom' hpass
    (by rw [hheader]; decide)
  have hparsed : c.parsed = q.parsed := by
    have hhost : c.hostText = none := by
      rw [hostText, hsame.host]
      rfl
    have hpost : c.cgi = if some m = some Method.post then 1 else 0 := by
      rw [hcgi]
      exact if_congr (Option.some.injEq m .post ▸ Iff.rfl) rfl rfl
    rw [Parser.parsed, RequestLine.parsed, hm, hmethod, hpost, hurl, hhost, hsame.linger,
      hsame.contentLength]
    rfl
  rw [Nat.zero_add] at hc
  exact ⟨c, hpoint, { hc with checkState := hheader, contentLength := hsame.contentLength },
    hparsed⟩

theorem AtHeader.receive_header {c : Parser} {k : ℕ} {n : ℤ} (h : AtHeader c k n)
    {line : List UInt8} (hne : line ≠ []) (hline : ∀ b ∈ line, isLineByte b = true)
    (hroom : k + line.length + 2 ≤ readBuffSize) :
  ∃ c', (c.receive (line ++ crlf)).firstPoint = .ok (none, c') ∧
    AtHeader c' (k + line.length + 2) (lengthAfter n line) ∧ c'.parsed = c.parsed.after line
  := by
  have hends := (h.headerLine hline hroom).2
  have ht := h.text_lineRead hline hroom
  have hstart : (c.lineRead line).startLine = k := h.startLine
  have hd : Ends (c.lineRead line).nextLine k ((c.lineRead line).checkIndex - 2) := by
    rw [← hstart]
    exact { hends.ends with }
  obtain ⟨hret, hheader, hparsed⟩ := hd.parseHeaders_line ht hne
  rw [show (c.lineRead line).nextLine.parsed = c.parsed from h.parsed_lineRead line] at hparsed
  have hs : (c.lineRead line).checkState = .header := h.checkState
  have hpass : (c.lineRead line).readPass
      = .ok (.again .lineOk, ((c.lineRead line).nextLine.parseHeaders k).2) := by
    rw [readPass_of_header hs, hstart, hret]
    rfl
  rw [show (c.lineRead line).nextLine.checkState = .header from hs] at hheader
  obtain ⟨hpoint, hc'⟩ := h.receive_line hline hroom hpass (by rw [hheader]; decide)
  refine ⟨_, hpoint, { hc' with checkState := hheader, contentLength := ?_ }, hparsed⟩
  have hlength := congrArg Parsed.length hparsed
  rw [← h.contentLength, lengthAfter_eq]
  exact hlength

/-- The header lines of a request are accepted one by one. -/
theorem AtHeader.receive_headers {c : Parser} {k : ℕ} {n : ℤ} (h : AtHeader c k n)
    {headers : List (List UInt8)} (hne : ∀ line ∈ headers, line ≠ [])
    (hline : ∀ line ∈ headers, ∀ b ∈ line, isLineByte b = true)
    (hroom : k + (headers.flatMap (· ++ crlf)).length ≤ readBuffSize) :
  ∃ c', (c.receive (headers.flatMap (· ++ crlf))).firstPoint = .ok (none, c') ∧
    AtHeader c' (k + (headers.flatMap (· ++ crlf)).length) (headers.foldl lengthAfter n) ∧
    c'.parsed = headers.foldl Parsed.after c.parsed
  := by
  induction headers generalizing c k n with
  | nil =>
      use c
      rw [List.flatMap_nil, receive_nil]
      exact ⟨h.firstPoint, h, rfl⟩
  | cons line headers ih =>
      have hlen : (line ++ crlf).length = line.length + 2 := List.length_append
      rw [List.flatMap_cons, List.length_append, hlen] at hroom
      rw [List.forall_mem_cons] at hne hline
      obtain ⟨d, hd, hd', hparsed⟩ := h.receive_header hne.1 hline.1 (by omega)
      obtain ⟨c', hc', hc'', hparsed'⟩ := ih hd' hne.2 hline.2 (by omega)
      refine ⟨c', ?_, ?_, ?_⟩
      · rw [List.flatMap_cons, h.firstPoint_append hd (by omega), hc']
      · rw [List.flatMap_cons, List.length_append, hlen, List.foldl_cons]
        rw [show k + (line.length + 2 + (headers.flatMap (· ++ crlf)).length)
          = k + line.length + 2 + (headers.flatMap (· ++ crlf)).length by omega]
        exact hc''
      · rw [hparsed', hparsed, List.foldl_cons]

/-- The parser stands at the beginning `k` of a body of `n` bytes of which nothing was
read. -/
structure AtBody (c : Parser) (k : ℕ) (n : ℤ) : Prop where
  between : Between c
  checkState : c.checkState = .content
  startLine : c.startLine = k
  checkIndex : c.checkIndex = k
  readIndex : c.readIndex = k
  contentLength : c.contentLength = n

/-- The empty line: the header phase ends with the request, or turns to the body that was
declared. -/
theorem AtHeader.empty_line {c : Parser} {k : ℕ} {n : ℤ} (h : AtHeader c k n)
    (hroom : k + 2 ≤ readBuffSize) :
  (c.receive crlf).headerLine = afterHeader (c.lineRead []).readPass ∧
    LineEnds (c.lineRead []) ∧
    (c.lineRead []).readPass = .ok
      (if n ≠ 0 then (.again .lineOk, { (c.lineRead []).nextLine with checkState := .content })
      else (.exit .doRequest, (c.lineRead []).nextLine))
  := by
  obtain ⟨hl, hends⟩ := h.headerLine (nofun : ∀ b ∈ ([] : List UInt8), isLineByte b = true) hroom
  have hstart : (c.lineRead []).startLine = k := h.startLine
  have hcheck : (c.lineRead []).checkIndex = k + 2 := by
    rw [← h.checkIndex]
    rfl
  have hnul : (c.lineRead []).nextLine.readBuf k = 0 := by
    have := hends.ends.nul
    rw [hcheck] at this
    exact this
  have hlength : (c.lineRead []).nextLine.contentLength = n := h.contentLength
  have hs : (c.lineRead []).checkState = .header := h.checkState
  refine ⟨hl, hends, ?_⟩
  subst hlength
  rw [readPass_of_header hs, hstart, parseHeaders, if_pos hnul]
  split
  · rfl
  · rfl

/-- The empty line turns the parser to the body that was declared. -/
theorem AtHeader.receive_empty {c : Parser} {k : ℕ} {n : ℤ} (h : AtHeader c k n) (hn : n ≠ 0)
    (hroom : k + 2 ≤ readBuffSize) :
  ∃ c', (c.receive crlf).firstPoint = .ok (some .content, c') ∧ AtBody c' (k + 2) n ∧
    c'.parsed = c.parsed
  := by
  obtain ⟨hl, hends, hpass⟩ := h.empty_line hroom
  rw [if_pos hn] at hpass
  obtain ⟨hbetween, hstart', hcheck', hread'⟩ := h.lineRead hends hpass
  refine ⟨_, ?_, ⟨hbetween, rfl, hstart', hcheck', hread', h.contentLength⟩, h.parsed_lineRead []⟩
  apply Loop.whileLoop_inr
  rw [hl, hpass, afterHeader]
  rfl

/-- The empty line ends a request without a body. -/
theorem AtHeader.receive_end {c : Parser} {k : ℕ} (h : AtHeader c k 0)
    (hroom : k + 2 ≤ readBuffSize) :
  ∃ c', (c.receive crlf).firstPoint = .ok (some (.stopped .doRequest), c') ∧
    c'.parsed = c.parsed ∧ Between c'
  := by
  obtain ⟨hl, hends, hpass⟩ := h.empty_line hroom
  rw [if_neg (not_not.mpr rfl)] at hpass
  refine ⟨(c.lineRead []).nextLine, ?_, h.parsed_lineRead [], (h.lineRead hends hpass).1⟩
  apply Loop.whileLoop_inr
  rw [hl, hpass, afterHeader]

/-- The head of a request leads the header phase to the body. -/
theorem init_receive_head (q : Request) (hroom : q.head.length ≤ readBuffSize) :
  ∃ c, (init.receive q.head).firstPoint = .ok (some .content, c) ∧
    AtBody c q.head.length q.body.length
  := by
  have hlen : q.head.length
      = q.line.length + 2 + ((q.headers.flatMap (· ++ crlf)).length + 2) := by
    simp only [Request.head, List.length_append]
    rfl
  have hbody : (q.body.length : ℤ) ≠ 0 := by
    have := List.length_pos_of_ne_nil q.body_ne_nil
    omega
  have hline : (q.line ++ crlf).length = q.line.length + 2 := List.length_append
  have hcrlf : crlf.length = 2 := rfl
  obtain ⟨c₁, hpoint₁, hc₁, -⟩ :=
    init_receive_line q.requestLine (show q.line.length + 2 ≤ readBuffSize by omega)
  change (init.receive (q.line ++ crlf)).firstPoint = _ at hpoint₁
  change AtHeader c₁ (q.line.length + 2) 0 at hc₁
  obtain ⟨c₂, hpoint₂, hc₂, -⟩ := hc₁.receive_headers q.headers_ne_nil q.headers_line (by omega)
  rw [show q.headers.foldl lengthAfter 0 = q.body.length from q.body_declared] at hc₂
  obtain ⟨c₃, hpoint₃, hc₃, -⟩ := hc₂.receive_empty hbody (by omega)
  rw [show q.line.length + 2 + (q.headers.flatMap (· ++ crlf)).length + 2 = q.head.length
    by omega] at hc₃
  refine ⟨c₃, ?_, hc₃⟩
  rw [Request.head, init_atLine.firstPoint_append hpoint₁, hc₁.firstPoint_append hpoint₂, hpoint₃]
  · omega
  · rw [hline, List.length_append]
    omega

end Parser

end WebServer
