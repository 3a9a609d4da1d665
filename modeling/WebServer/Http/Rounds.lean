import WebServer.Http.Body
import WebServer.Lib.Run

/-!
# `process_read` step by step

A connection receives bytes, and in between `process_read` runs: its loop evaluates the
condition, which calls `parse_line`, and its body, which calls the line parser of the
state.  A call of `process_read` is a run of these steps (`exec_processRead`).

`Inv` is what holds of the indices between the steps, whatever the bytes are: the line
that is parsed starts before `m_check_index`, which does not pass what was read.  The
parsers of the header phase keep within the line, and all that can go wrong in them is a
null pointer (`Ends.parseRequestLine_within`).
-/

open CString Fallible WebServer.Parser

namespace WebServer

namespace Parser

/-! ### The request line -/

/-- What `parse_request_line` comes to: a null pointer, the rejection of the request, or
an `m_url` that points to a slash. -/
def FindsPath : Except Fault (HttpCode × Parser) → Prop
  | .error f => f = .nullPointer
  | .ok (ret, c) =>
    (ret = .badRequest ∧ c.checkState = .requestLine) ∨
      ret = .noRequest ∧ c.checkState = .header ∧ ∃ u, c.url = some u ∧ c.readBuf u = 47

theorem Ends.parsePath_finds {c : Parser} {p e : ℕ} (h : Ends c p e)
    (hroom : e + 11 ≤ readBuffSize) (hc : c.checkState = .requestLine) (hurl : c.url = some p) :
  FindsPath (c.parsePath p)
  := by
  rw [parsePath]
  split
  · exact .inl ⟨rfl, hc⟩
  · next hslash =>
      rw [not_not] at hslash
      split
      · next hlen =>
        have hle := h.length_text
        have hjudge : (ascii "judge.html" ++ [0]).length = 11 := rfl
        rw [storeAll_of_le _ (by omega), ok_bind, putAll_eq]
        refine .inr ⟨rfl, rfl, p, hurl, ?_⟩
        dsimp only
        rw [writeAt_of_lt _ _ (Nat.lt_succ_self p), hslash]
      · exact .inr ⟨rfl, rfl, p, hurl, hslash⟩

theorem Ends.parseUrl_finds {c : Parser} {u e : ℕ} (h : Ends c u e)
    (hroom : e + 11 ≤ readBuffSize) (hc : c.checkState = .requestLine) :
  FindsPath (c.parseUrl u)
  := by
  rw [parseUrl]
  rcases h.skipScheme_cases (ascii "http://") with hs | ⟨p, -, hpe, hs⟩
  · rw [hs, ok_bind]
    rfl
  · rw [hs, ok_bind]
    rcases (h.from hpe).skipScheme_cases (ascii "https://") with hs' | ⟨p', -, hpe', hs'⟩
    · rw [hs', ok_bind]
      exact .inl ⟨rfl, hc⟩
    · rw [hs', ok_bind]
      have hp' : Ends { c with url := some p' } p' e := { h.from hpe' with }
      apply hp'.parsePath_finds hroom hc rfl

theorem Ends.parseVersion_finds {c : Parser} {u e : ℕ} (h : Ends c u e)
    (hend : e + 2 ≤ readBuffSize) (hc : c.checkState = .requestLine) :
  FindsPath (c.parseVersion u)
  := by
  rw [parseVersion]
  rcases h.cutWord_cases with hw | ⟨v, huv, hve, hw⟩
  · rw [hw, ok_bind]
    exact .inl ⟨rfl, hc⟩
  · let d := { c.put v 0 with version := some (v + 1) }
    have hd : Ends d u v := { h.of_put huv hve with }
    have hd' : Ends d (v + 1) e := { h.put (i := v) with le := hve }
    rw [hw, ok_bind]
    change FindsPath (if eqIgnoreCase (d.text (v + 1)) _ = true then d.parseUrl u else .ok (_, d))
    split
    · next hhttp =>
        have hlen := length_of_eqIgnoreCase hhttp
        have hlen' := hd'.length_text
        have hname : (ascii "HTTP/1.1").length = 8 := rfl
        apply hd.parseUrl_finds (by omega) hc
    · exact .inl ⟨rfl, hc⟩

/-- The stores of `parse_request_line` keep within the buffer. -/
theorem Ends.parseRequestLine_finds {c : Parser} {p e : ℕ} (h : Ends c p e)
    (hend : e + 2 ≤ readBuffSize) (hc : c.checkState = .requestLine) :
  FindsPath (c.parseRequestLine p)
  := by
  rw [parseRequestLine]
  rcases h.cutWord_cases with hw | ⟨u, hpu, hue, hw⟩
  · rw [hw, ok_bind]
    exact .inl ⟨rfl, hc⟩
  · rw [hw, ok_bind]
    dsimp only
    rw [parseMethod]
    split
    · exact .inl ⟨rfl, hc⟩
    · next m _ =>
        have hm : Ends ({ c.put u 0 with url := some (u + 1) }.setMethod m) (u + 1) e :=
          { h.put (i := u) with le := hue }
        apply hm.parseVersion_finds hend hc

/-! ### The passes of a call -/

/-- What a pass at the request line comes to. -/
theorem LineEnds.readPass_requestLine {c : Parser} (h : LineEnds c)
    (hc : c.checkState = .requestLine) :
  c.readPass = .error .nullPointer ∨ ∃ c', SameHeaders c.nextLine c' ∧
    ((c.readPass = .ok (.exit (.returned .badRequest), c') ∧ c'.checkState = .requestLine) ∨
      c.readPass = .ok (.again .lineOk, c') ∧ c'.checkState = .header ∧
        ∃ u, c'.url = some u ∧ u < c.checkIndex ∧ c'.readBuf u = 47)
  := by
  have hd : Ends c.nextLine c.startLine (c.checkIndex - 2) := { h.ends with }
  have hclosed : Sealed c.nextLine c.checkIndex := { h.closed with }
  have hroom := h.room
  have hread := h.le_read
  have hsize := h.le_size
  have hc' : c.nextLine.checkState = .requestLine := hc
  have hfinds := hd.parseRequestLine_finds (by omega) hc'
  rw [readPass, parseText_requestLine hc', hc]
  cases hr : c.nextLine.parseRequestLine c.startLine with
  | error f =>
      rw [hr] at hfinds
      left
      rw [show f = .nullPointer from hfinds]
      rfl
  | ok r =>
      obtain ⟨ret, c'⟩ := r
      rw [hr] at hfinds
      refine .inr ⟨c', parseRequestLine_sameHeaders hr, ?_⟩
      rcases hfinds with ⟨rfl, hstate⟩ | ⟨rfl, hstate, u, hurl, hslash⟩
      · exact .inl ⟨rfl, hstate⟩
      · have hlt := (hclosed.parseRequestLine hd (by omega) (by omega) hr).url u hurl
        exact .inr ⟨rfl, hstate, u, hurl, hlt, hslash⟩

/-- A pass at a header line goes on with the next line or hands the request to
`do_request`, and leaves the buffer alone. -/
structure HeaderPass (c : Parser) (pass : Pass) (c' : Parser) : Prop extends
    SameIndices c.nextLine c' where
  pass : pass = .again .lineOk ∨ pass = .exit .doRequest
  checkState : c'.checkState ≠ .requestLine
  url : c'.url = c.url
  readBuf : c'.readBuf = c.readBuf
  string : c'.string = c.string

theorem readPass_header_cases {c : Parser} (hc : c.checkState = .header) :
  ∃ pass c', c.readPass = .ok (pass, c') ∧ HeaderPass c pass c'
  := by
  have hc' : c.nextLine.checkState ≠ .requestLine := by
    rw [show c.nextLine.checkState = .header from hc]
    decide
  have hcontent : CheckState.content ≠ .requestLine := by decide
  refine ⟨_, _, readPass_of_header hc, ?_⟩
  rw [parseHeaders]
  split
  · split
    · exact ⟨⟨rfl, rfl, rfl⟩, .inl rfl, hcontent, rfl, rfl, rfl⟩
    · exact ⟨⟨rfl, rfl, rfl⟩, .inr rfl, hc', rfl, rfl, rfl⟩
  · split
    · split
      · exact ⟨⟨rfl, rfl, rfl⟩, .inl rfl, hc', rfl, rfl, rfl⟩
      · exact ⟨⟨rfl, rfl, rfl⟩, .inl rfl, hc', rfl, rfl, rfl⟩
    · split
      · exact ⟨⟨rfl, rfl, rfl⟩, .inl rfl, hc', rfl, rfl, rfl⟩
      · split
        · exact ⟨⟨rfl, rfl, rfl⟩, .inl rfl, hc', rfl, rfl, rfl⟩
        · exact ⟨⟨rfl, rfl, rfl⟩, .inl rfl, hc', rfl, rfl, rfl⟩

/-- A pass at a body: the sum overflows, the body is not complete, the store behind the
body is outside the buffer, or the request is handed to `do_request`. -/
theorem readPass_content_cases {c : Parser} (hc : c.checkState = .content) :
  (((c.checkIndex : ℤ) + c.contentLength < -2 ^ 31 ∨ 2 ^ 31 ≤ c.checkIndex + c.contentLength) ∧
      c.readPass = .error .signedOverflow) ∨
    (((c.readIndex : ℤ) < c.checkIndex + c.contentLength ∧
      c.checkIndex + c.contentLength < 2 ^ 31) ∧
      c.readPass = .ok (.again .lineOpen, c.nextLine)) ∨
    ((c.checkIndex : ℤ) + c.contentLength ≤ c.readIndex ∧
      ¬ (0 ≤ c.startLine + c.contentLength ∧ c.startLine + c.contentLength < readBuffSize) ∧
      c.readPass = .error .outOfBounds) ∨
    ((c.checkIndex : ℤ) + c.contentLength ≤ c.readIndex ∧
      (0 ≤ c.startLine + c.contentLength ∧ c.startLine + c.contentLength < readBuffSize) ∧
      c.readPass = .ok (.exit .doRequest,
        { c.nextLine.put (c.startLine + c.contentLength).toNat 0 with string := some c.startLine }))
  := by
  have hpass : c.readPass
      = ((if (c.checkIndex : ℤ) + c.contentLength < -2 ^ 31 ∨
            2 ^ 31 ≤ c.checkIndex + c.contentLength
          then .error .signedOverflow
        else if (c.readIndex : ℤ) ≥ c.checkIndex + c.contentLength then do
          let d ← c.nextLine.store (c.startLine + c.contentLength) 0
          .ok (.getRequest, { d with string := some c.startLine })
        else .ok (.noRequest, c.nextLine)) >>= fun r => .ok (passOf .content r.1, r.2)) :=
    readPass_of_content hc
  rw [hpass]
  split
  · next hover => exact .inl ⟨hover, rfl⟩
  · next hover =>
    rw [not_or] at hover
    split
    · next hle =>
        rw [store]
        split
        · next hin => exact .inr (.inr (.inr ⟨hle, hin, rfl⟩))
        · next hout => exact .inr (.inr (.inl ⟨hle, hout, rfl⟩))
    · next hlt => exact .inr (.inl ⟨⟨not_le.mp hlt, not_le.mp hover.2⟩, rfl⟩)

end Parser

/-- Where the object of a connection is: between two calls of `process_read`, in its loop
at the condition or at the body, behind a call that ended the request, or past a fault. -/
inductive Reading.Place where
  | outside
  | condition (status : LineStatus)
  | body
  | left (e : ReadExit)
  | fault (f : Fault)
  deriving DecidableEq

/-- The object of a connection between the steps of `process_read`. -/
structure Reading where
  parser : Parser
  place : Reading.Place

/-- A step of a connection. -/
inductive ReadingEvent where
  /-- Bytes are received. -/
  | receive (bs : List UInt8)
  /-- `process_read` is called. -/
  | call
  /-- The condition of its loop. -/
  | condition
  /-- The body of its loop. -/
  | body
  /-- `init()`, after a request. -/
  | init

namespace Reading

/-- The place behind the end of a call. -/
def leave : ReadExit → Place
  | .returned .noRequest => .outside
  | e => .left e

theorem leave_cases (e : ReadExit) :
  leave e = .outside ∨ leave e = .left e
  := by
  rw [leave.eq_def]
  split
  · exact .inl rfl
  · exact .inr rfl

theorem leave_eq_left {e e' : ReadExit} (h : leave e = .left e') :
  e = e'
  := by
  rw [leave.eq_def] at h
  split at h
  · cases h
  · apply Place.left.inj h

/-- A step of a connection. -/
def step (s : Reading) : ReadingEvent → Option Reading
  | .receive bs =>
    match s.place with
    | .outside =>
      if s.parser.readIndex + bs.length ≤ readBuffSize then
        some ⟨s.parser.receive bs, .outside⟩
      else
        none
    | _ => none
  | .call =>
    match s.place with
    | .outside => some ⟨s.parser, .condition .lineOk⟩
    | _ => none
  | .condition =>
    match s.place with
    | .condition status =>
      if s.parser.checkState = .content ∧ status = .lineOk then
        some ⟨s.parser, .body⟩
      else
        match s.parser.parseLine with
        | .error f => some ⟨s.parser, .fault f⟩
        | .ok (.lineOk, c) => some ⟨c, .body⟩
        | .ok (_, c) => some ⟨c, .outside⟩
    | _ => none
  | .body =>
    match s.place with
    | .body =>
      match s.parser.readPass with
      | .error f => some ⟨s.parser, .fault f⟩
      | .ok (.again status, c) => some ⟨c, .condition status⟩
      | .ok (.exit e, c) => some ⟨c, leave e⟩
    | _ => none
  | .init =>
    match s.place with
    | .left _ => some ⟨Parser.init, .outside⟩
    | _ => none

/-- A connection right behind `init()`. -/
def start : Reading := ⟨Parser.init, .outside⟩

/-! ### A call of `process_read` -/

/-- How a call ends. -/
def Ended (s : Reading) : Except Fault (ReadExit × Parser) → Prop
  | .error f => s.place = .fault f
  | .ok (e, c) => s = ⟨c, leave e⟩

section Body

variable {c c' : Parser}

theorem step_body_error {f : Fault} (h : c.readPass = .error f) :
  step ⟨c, .body⟩ .body = some ⟨c, .fault f⟩
  := by
  simp [step, h]

theorem step_body_again {status : LineStatus} (h : c.readPass = .ok (.again status, c')) :
  step ⟨c, .body⟩ .body = some ⟨c', .condition status⟩
  := by
  simp [step, h]

theorem step_body_exit {e : ReadExit} (h : c.readPass = .ok (.exit e, c')) :
  step ⟨c, .body⟩ .body = some ⟨c', leave e⟩
  := by
  simp [step, h]

end Body

/-- The body of the loop behind its condition makes a round of the loop. -/
theorem exec_body {c d : Parser} {status : LineStatus}
    (hd : step ⟨c, .condition status⟩ .condition = some ⟨d, .body⟩) :
  (∃ c' status', afterPass d.readPass = .inl (c', status')
      ∧ Run.exec step ⟨c, .condition status⟩ [.condition, .body] = some ⟨c', .condition status'⟩)
    ∨ ∃ r es s, afterPass d.readPass = .inr r
      ∧ Run.exec step ⟨c, .condition status⟩ es = some s ∧ s.Ended r
  := by
  have hexec {s : Reading} (h : step ⟨d, .body⟩ .body = some s) :
      Run.exec step ⟨c, .condition status⟩ [.condition, .body] = some s :=
    Run.exec_cons.mpr ⟨_, hd, Run.exec_cons.mpr ⟨_, h, rfl⟩⟩
  cases hpass : d.readPass with
  | error f => exact .inr ⟨.error f, _, _, rfl, hexec (step_body_error hpass), rfl⟩
  | ok r =>
      obtain ⟨pass, c'⟩ := r
      cases pass with
      | again status' => exact .inl ⟨c', status', rfl, hexec (step_body_again hpass)⟩
      | exit e => exact .inr ⟨.ok (e, c'), _, _, rfl, hexec (step_body_exit hpass), rfl⟩

/-- The condition of the loop and, where it holds, the body make a round of the loop. -/
theorem exec_readLine (c : Parser) (status : LineStatus) :
  (∃ c' status', readLine (c, status) = .inl (c', status')
      ∧ Run.exec step ⟨c, .condition status⟩ [.condition, .body] = some ⟨c', .condition status'⟩)
    ∨ ∃ r es s, readLine (c, status) = .inr r
      ∧ Run.exec step ⟨c, .condition status⟩ es = some s ∧ s.Ended r
  := by
  by_cases hc : c.checkState = .content ∧ status = .lineOk
  · rw [readLine, if_pos hc]
    apply exec_body
    simp [step, hc]
  · cases hl : c.parseLine with
    | error f =>
        refine .inr ⟨.error f, [.condition], ⟨c, .fault f⟩, ?_, ?_, rfl⟩
        · rw [readLine, if_neg hc, hl]
        · simp [Run.exec, step, hc, hl]
    | ok r =>
        obtain ⟨status', d⟩ := r
        by_cases hstatus : status' = .lineOk
        · subst hstatus
          rw [readLine_line hc hl]
          apply exec_body
          simp [step, hc, hl]
        · refine .inr ⟨_, [.condition], ⟨d, .outside⟩, readLine_wait hc hl hstatus, ?_, rfl⟩
          cases status' with
          | lineOk => exact absurd rfl hstatus
          | lineBad => simp [Run.exec, step, hc, hl]
          | lineOpen => simp [Run.exec, step, hc, hl]

/-- A call of `process_read` is a run of the steps. -/
theorem exec_processRead (c : Parser) :
  ∃ es s, Run.exec step ⟨c, .outside⟩ (.call :: es) = some s ∧ s.Ended c.processRead
  := by
  obtain ⟨es, s, hs, hr⟩ := Loop.whileLoop_rule readLine_decreases
    (P := fun (c, status) r => ∃ es s, Run.exec step ⟨c, .condition status⟩ es = some s
      ∧ s.Ended r)
    (by
      rintro ⟨c, status⟩ ⟨c', status'⟩ r h ⟨es, s, hs, hr⟩
      rcases exec_readLine c status with ⟨d, status₁, hround, hexec⟩ | ⟨r', -, -, hround, -⟩
      · cases hround.symm.trans h
        exact ⟨_, s, Run.exec_append hexec hs, hr⟩
      · cases hround.symm.trans h)
    (by
      rintro ⟨c, status⟩ r h
      rcases exec_readLine c status with ⟨d, status₁, hround, -⟩ | ⟨r', es, s, hround, hs, hr⟩
      · cases hround.symm.trans h
      · cases hround.symm.trans h
        exact ⟨es, s, hs, hr⟩)
    (c, .lineOk)
  exact ⟨es, s, Run.exec_cons.mpr ⟨_, rfl, hs⟩, hr⟩

/-! ### Between the steps -/

/-- The line that is parsed starts before `m_check_index`, which does not pass what was
read. -/
structure InBuffer (c : Parser) : Prop where
  le_check : c.startLine ≤ c.checkIndex
  le_read : c.checkIndex ≤ c.readIndex
  le_size : c.readIndex ≤ readBuffSize

/-- Behind the request line `m_url` points to a slash, or to a NUL that took its place. -/
def UrlSet (c : Parser) : Prop :=
  c.checkState ≠ .requestLine →
    ∃ u, c.url = some u ∧ u < c.readIndex ∧ (c.readBuf u = 47 ∨ c.readBuf u = 0)

/-- Where the loop of `process_read` is when the parser is in the header phase. -/
def InLine (c : Parser) : Place → Prop
  | .outside => Between c
  | .condition _ => Between c
  | .body => LineEnds c
  | .left _ => True
  | .fault _ => True

/-- What a step does. -/
inductive Steps : Reading → ReadingEvent → Reading → Prop where
  | receive {c : Parser} {bs : List UInt8} (hsize : c.readIndex + bs.length ≤ readBuffSize) :
      Steps ⟨c, .outside⟩ (.receive bs) ⟨c.receive bs, .outside⟩
  | call {c : Parser} : Steps ⟨c, .outside⟩ .call ⟨c, .condition .lineOk⟩
  | content {c : Parser} (hc : c.checkState = .content) :
      Steps ⟨c, .condition .lineOk⟩ .condition ⟨c, .body⟩
  | line {c c' : Parser} {status : LineStatus} (hl : c.parseLine = .ok (.lineOk, c')) :
      Steps ⟨c, .condition status⟩ .condition ⟨c', .body⟩
  | wait {c c' : Parser} {status status' : LineStatus} (hstatus : status' ≠ .lineOk)
      (hl : c.parseLine = .ok (status', c')) :
      Steps ⟨c, .condition status⟩ .condition ⟨c', .outside⟩
  | lineFault {c : Parser} {status : LineStatus} {f : Fault} (hl : c.parseLine = .error f) :
      Steps ⟨c, .condition status⟩ .condition ⟨c, .fault f⟩
  | again {c c' : Parser} {status : LineStatus} (hp : c.readPass = .ok (.again status, c')) :
      Steps ⟨c, .body⟩ .body ⟨c', .condition status⟩
  | exit {c c' : Parser} {e : ReadExit} (hp : c.readPass = .ok (.exit e, c')) :
      Steps ⟨c, .body⟩ .body ⟨c', leave e⟩
  | bodyFault {c : Parser} {f : Fault} (hp : c.readPass = .error f) :
      Steps ⟨c, .body⟩ .body ⟨c, .fault f⟩
  | init {c : Parser} {e : ReadExit} : Steps ⟨c, .left e⟩ .init ⟨Parser.init, .outside⟩

/-- A step takes one of its branches. -/
theorem steps_of_step {s s' : Reading} {e : ReadingEvent} (h : step s e = some s') :
  Steps s e s'
  := by
  obtain ⟨c, place⟩ := s
  cases e with
  | receive bs =>
      rw [step] at h
      split at h
      next hplace =>
        obtain rfl : place = .outside := hplace
        split at h
        next hsize =>
          cases h
          exact .receive hsize
        next => cases h
      next => cases h
  | call =>
      rw [step] at h
      split at h
      next hplace =>
        obtain rfl : place = .outside := hplace
        cases h
        exact .call
      next => cases h
  | condition =>
      rw [step] at h
      split at h
      next status hplace =>
        obtain rfl : place = .condition status := hplace
        split at h
        next hc =>
          cases h
          obtain ⟨hcontent, rfl⟩ := hc
          exact .content hcontent
        next =>
          split at h
          next f hl =>
            cases h
            exact .lineFault hl
          next c' hl =>
            cases h
            exact .line hl
          next status' c' hne hl =>
            cases h
            exact .wait hne hl
      next => cases h
  | body =>
      rw [step] at h
      split at h
      next hplace =>
        obtain rfl : place = .body := hplace
        split at h
        next f hp =>
          cases h
          exact .bodyFault hp
        next status c' hp =>
          cases h
          exact .again hp
        next e c' hp =>
          cases h
          exact .exit hp
      next => cases h
  | init =>
      rw [step] at h
      split at h
      next e hplace =>
        obtain rfl : place = .left e := hplace
        cases h
        exact .init
      next => cases h

/-- What holds of a connection between its steps. -/
structure Inv (s : Reading) : Prop where
  inBuffer : InBuffer s.parser
  inLine : s.parser.checkState ≠ .content → InLine s.parser s.place
  url : UrlSet s.parser
  accepted : s.place = .left .doRequest → s.parser.checkState ≠ .requestLine

theorem start_inv :
  start.Inv
  where
  inBuffer := ⟨le_rfl, le_rfl, Nat.zero_le _⟩
  inLine := fun _ => init_between
  url := fun h => absurd rfl h
  accepted := fun h => by cases h

theorem InBuffer.parseLine {c c' : Parser} {status : LineStatus} (h : InBuffer c)
    (hl : c.parseLine = .ok (status, c')) :
  InBuffer c'
  := by
  obtain ⟨hread, hstart, hcheck, -⟩ := parseLine_indices c hl
  have hle := parseLine_le h.le_size h.le_read hl
  have hsize := h.le_size
  exact ⟨by rw [hstart]; exact h.le_check.trans hcheck, hle, hread ▸ hsize⟩

theorem UrlSet.parseLine {c c' : Parser} {status : LineStatus} (h : UrlSet c) (hc : InBuffer c)
    (hl : c.parseLine = .ok (status, c')) :
  UrlSet c'
  := by
  have hscanned := parseLine_scanned hc.le_size hl
  intro hstate
  have hstate' : c.checkState ≠ .requestLine := by
    rwa [hscanned.frame] at hstate
  obtain ⟨u, hurl, hlt, hu⟩ := h hstate'
  have hread : c'.readIndex = c.readIndex := by rw [hscanned.frame]
  refine ⟨u, ?_, hread ▸ hlt, ?_⟩
  · rw [hscanned.frame]
    exact hurl
  · rcases hscanned.bytes u with hsame | hnul
    · rw [hsame]
      exact hu
    · exact .inr hnul

/-- A scan in the header phase closes the line or stays within it. -/
theorem Inv.parseLine {c c' : Parser} {status status' : LineStatus}
    (h : Inv ⟨c, .condition status⟩) (hl : c.parseLine = .ok (status', c'))
    (hc : c'.checkState ≠ .content) :
  (status' = .lineOk ∧ LineEnds c') ∨ (status' ≠ .lineOk ∧ Between c')
  := by
  have hframe := (parseLine_scanned h.inBuffer.le_size hl).frame
  have hc' : c.checkState ≠ .content := by
    rwa [hframe] at hc
  have hbetween : Between c := h.inLine hc'
  rcases hbetween.headerLine_cases hc' with ⟨status₁, d, hstatus, hd, hd', -⟩ | ⟨d, hd, hends, -⟩
  · cases hl.symm.trans hd
    exact .inr ⟨hstatus, hd'⟩
  · cases hl.symm.trans hd
    exact .inl ⟨rfl, hends⟩

theorem InBuffer.readPass {c c' : Parser} {pass : Pass} (h : InBuffer c)
    (hp : c.readPass = .ok (pass, c')) :
  InBuffer c'
  := by
  have hi := readPass_sameIndices hp
  have hstart : c'.startLine = c.checkIndex := hi.startLine
  have hcheck : c'.checkIndex = c.checkIndex := hi.checkIndex
  have hread : c'.readIndex = c.readIndex := hi.readIndex
  have hle := h.le_read
  have hsize := h.le_size
  exact ⟨by omega, by omega, by omega⟩

/-- A NUL in the place of a byte. -/
theorem slash_update {m : Memory} {u : ℕ} (hu : m u = 47 ∨ m u = 0) (j : ℕ) :
  Function.update m j 0 u = 47 ∨ Function.update m j 0 u = 0
  := by
  by_cases hat : u = j
  · right
    rw [← hat]
    apply Function.update_self
  · rw [Function.update_of_ne hat]
    exact hu

/-- A pass in the header phase that does not turn to the body. -/
theorem Inv.readPass_between {c c' : Parser} {pass : Pass} (h : Inv ⟨c, .body⟩)
    (hp : c.readPass = .ok (pass, c')) (hc : c'.checkState ≠ .content) :
  Between c'
  := by
  have hheader : c.checkState ≠ .content := by
    intro hcontent
    rcases readPass_content_cases hcontent with ⟨-, hd⟩ | ⟨-, hd⟩ | ⟨-, -, hd⟩ | ⟨-, -, hd⟩
    · cases hd.symm.trans hp
    · cases hd.symm.trans hp
      apply hc hcontent
    · cases hd.symm.trans hp
    · cases hd.symm.trans hp
      apply hc hcontent
  exact (LineEnds.readPass_between (h.inLine hheader) hheader hp).1

/-- A pass sets `m_url` or keeps it, and hands the request on behind the request line
only. -/
theorem Inv.readPass_url {c c' : Parser} {pass : Pass} (h : Inv ⟨c, .body⟩)
    (hp : c.readPass = .ok (pass, c')) :
  UrlSet c' ∧ (pass = .exit .doRequest → c'.checkState ≠ .requestLine)
  := by
  cases hc : c.checkState with
  | requestLine =>
      have hread : c'.readIndex = c.readIndex := (readPass_sameIndices hp).readIndex
      have hcheck : c.checkIndex ≤ c.readIndex := h.inBuffer.le_read
      have hends : LineEnds c := h.inLine (by rw [hc]; decide)
      rcases hends.readPass_requestLine hc
        with hfault | ⟨d, -, ⟨hd, hstate⟩ | ⟨hd, -, u, hurl, hlt, hslash⟩⟩
      · cases hfault.symm.trans hp
      · cases hd.symm.trans hp
        exact ⟨fun hne => absurd hstate hne, fun hexit => by cases hexit⟩
      · cases hd.symm.trans hp
        exact ⟨fun _ => ⟨u, hurl, by omega, .inl hslash⟩, fun hexit => by cases hexit⟩
  | header =>
      have hread : c'.readIndex = c.readIndex := (readPass_sameIndices hp).readIndex
      obtain ⟨u, hurl, hlt, hu⟩ := h.url (by rw [hc]; decide)
      obtain ⟨pass', d, hd, hpass⟩ := readPass_header_cases hc
      cases hd.symm.trans hp
      refine ⟨fun _ => ?_, fun _ => hpass.checkState⟩
      exact ⟨u, hpass.url.trans hurl, hread ▸ hlt, hpass.readBuf ▸ hu⟩
  | content =>
      obtain ⟨u, hurl, hlt, hu⟩ := h.url (by rw [hc]; decide)
      rcases readPass_content_cases hc with ⟨-, hd⟩ | ⟨-, hd⟩ | ⟨-, -, hd⟩ | ⟨-, -, hd⟩
      · cases hd.symm.trans hp
      · cases hd.symm.trans hp
        exact ⟨fun _ => ⟨u, hurl, hlt, hu⟩, fun hexit => by cases hexit⟩
      · cases hd.symm.trans hp
      · cases hd.symm.trans hp
        refine ⟨fun _ => ⟨u, hurl, hlt, slash_update hu _⟩, fun _ => ?_⟩
        change c.checkState ≠ .requestLine
        rw [hc]
        decide

/-- Every step keeps the invariant. -/
theorem Inv.step {s s' : Reading} {e : ReadingEvent} (h : s.Inv) (hs : step s e = some s') :
  s'.Inv
  := by
  cases steps_of_step hs with
  | receive hsize =>
      obtain ⟨hcheck, hread, -⟩ := h.inBuffer
      refine ⟨⟨hcheck, Nat.le_add_right_of_le hread, hsize⟩, ?_, ?_, fun hp => by cases hp⟩
      · intro hc
        exact (h.inLine hc).receive _ hsize
      · intro hc
        obtain ⟨u, hurl, hlt, hu⟩ := h.url hc
        refine ⟨u, hurl, Nat.lt_add_right _ hlt, ?_⟩
        rw [readBuf_receive _ _ hlt]
        exact hu
  | call => exact ⟨h.inBuffer, h.inLine, h.url, fun hp => by cases hp⟩
  | content hc => exact ⟨h.inBuffer, fun hne => absurd hc hne, h.url, fun hp => by cases hp⟩
  | line hl =>
      refine ⟨h.inBuffer.parseLine hl, ?_, h.url.parseLine h.inBuffer hl, fun hp => by cases hp⟩
      intro hc
      rcases h.parseLine hl hc with ⟨-, hends⟩ | ⟨hne, -⟩
      · exact hends
      · apply absurd rfl hne
  | wait hstatus hl =>
      refine ⟨h.inBuffer.parseLine hl, ?_, h.url.parseLine h.inBuffer hl, fun hp => by cases hp⟩
      intro hc
      rcases h.parseLine hl hc with ⟨hok, -⟩ | ⟨-, hbetween⟩
      · apply absurd hok hstatus
      · exact hbetween
  | lineFault hl => exact ⟨h.inBuffer, fun _ => trivial, h.url, fun hp => by cases hp⟩
  | again hp =>
      exact ⟨h.inBuffer.readPass hp, h.readPass_between hp, (h.readPass_url hp).1,
        fun hp => by cases hp⟩
  | @exit _ _ e hp =>
      obtain ⟨hurl, haccepted⟩ := h.readPass_url hp
      refine ⟨h.inBuffer.readPass hp, ?_, hurl,
        fun hleft => haccepted (congrArg Pass.exit (leave_eq_left hleft))⟩
      intro hc
      rcases leave_cases e with hleave | hleave
      · rw [hleave]
        apply h.readPass_between hp hc
      · rw [hleave]
        trivial
  | bodyFault hp => exact ⟨h.inBuffer, fun _ => trivial, h.url, fun hp => by cases hp⟩
  | init => exact start_inv

end Reading

end WebServer
