import WebServer.Http.Rounds

/-!
# The bounds of the read buffer

The declared length of a body is the number behind `Content-Length:`, as an `int`, and
`parse_content` stores a NUL at that distance behind the beginning of the body, when the
sum with `m_check_index` does not pass what was read.  In the header phase nothing goes
out of bounds; in a body it does for a negative length, for one near `INT_MAX`, and for a
body that ends with the buffer (`bounded_iff`).
-/

open CString Fallible WebServer.Parser

namespace WebServer

namespace Reading

/-- No store went out of the read buffer, no sum overflowed, and a body that was accepted
was read. -/
structure Bounded (s : Reading) : Prop where
  store : s.place ≠ .fault .outOfBounds
  sum : s.place ≠ .fault .signedOverflow
  body : ∀ k, s.parser.string = some k →
    0 ≤ s.parser.contentLength ∧ k + s.parser.contentLength ≤ s.parser.readIndex

/-- When the body of the loop is at the body of a request, the declared length is not
negative, its sum with `m_check_index` is an `int`, and the body does not end with the
buffer. -/
def BodyFits (s : Reading) : ReadingEvent → Prop
  | .body =>
    s.parser.checkState = .content →
      0 ≤ s.parser.contentLength ∧ s.parser.checkIndex + s.parser.contentLength < 2 ^ 31 ∧
        (s.parser.startLine + s.parser.contentLength = readBuffSize →
          s.parser.readIndex < s.parser.checkIndex + s.parser.contentLength)
  | _ => True

/-- What holds of a connection as long as nothing went wrong. -/
structure Held (s : Reading) : Prop extends Inv s, Bounded s where
  string : (∀ e, s.place ≠ .left e) → s.parser.string = none

/-- Without a body the parser is in bounds unless it is past a fault. -/
theorem Held.of_none {s : Reading} (h : s.Inv) (hstring : s.parser.string = none)
    (hplace : ∀ f, s.place = .fault f → f = .nullPointer) :
  s.Held
  where
  toInv := h
  store := fun hfault => absurd (hplace _ hfault) (by decide)
  sum := fun hfault => absurd (hplace _ hfault) (by decide)
  body := fun k hk => absurd (hstring.symm.trans hk) (Option.some_ne_none k).symm
  string := fun _ => hstring

theorem start_held :
  start.Held
  := Held.of_none start_inv rfl (fun f hf => by cases hf)

/-- `parse_line` leaves `m_string`. -/
theorem Inv.parseLine_string {c c' : Parser} {place : Place} {status : LineStatus}
    (h : Inv ⟨c, place⟩) (hl : c.parseLine = .ok (status, c')) :
  c'.string = c.string
  := by
  rw [(parseLine_scanned h.inBuffer.le_size hl).frame]

/-- Outside the body a pass does not fault but for a null pointer, and leaves `m_string`. -/
theorem Inv.readPass_header {c : Parser} (h : Inv ⟨c, .body⟩) (hc : c.checkState ≠ .content) :
  c.readPass = .error .nullPointer ∨ ∃ pass c', c.readPass = .ok (pass, c') ∧
    c'.string = c.string
  := by
  cases hs : c.checkState with
  | requestLine =>
      rcases LineEnds.readPass_requestLine (h.inLine hc) hs
        with hfault | ⟨d, hd, ⟨hp, -⟩ | ⟨hp, -⟩⟩
      · exact .inl hfault
      · exact .inr ⟨_, _, hp, hd.string⟩
      · exact .inr ⟨_, _, hp, hd.string⟩
  | header =>
      obtain ⟨pass, d, hp, hd⟩ := readPass_header_cases hs
      exact .inr ⟨pass, d, hp, hd.string⟩
  | content => exact absurd hs hc

/-- A pass at a body that fits does not fault, and the body that it accepts was read. -/
theorem Inv.readPass_fits {c : Parser} (h : Inv ⟨c, .body⟩) (hc : c.checkState = .content)
    (hfits : BodyFits ⟨c, .body⟩ .body) :
  (∃ status, c.readPass = .ok (.again status, c.nextLine)) ∨
    ∃ c', c.readPass = .ok (.exit .doRequest, c') ∧ c'.string = some c.startLine ∧
      0 ≤ c'.contentLength ∧ c.startLine + c'.contentLength ≤ c'.readIndex
  := by
  obtain ⟨hpos, hsum, hend⟩ := hfits hc
  obtain ⟨hcheck, hread, hsize⟩ := h.inBuffer
  dsimp only at hpos hsum hend hcheck hread hsize
  rcases readPass_content_cases hc
    with ⟨hover, -⟩ | ⟨-, hp⟩ | ⟨hle, hout, -⟩ | ⟨hle, hin, hp⟩
  · omega
  · exact .inl ⟨_, hp⟩
  · omega
  · refine .inr ⟨_, hp, rfl, hpos, ?_⟩
    change (c.startLine : ℤ) + c.contentLength ≤ c.readIndex
    omega

/-- A body that was accepted is in what was read. -/
def Accepted (c : Parser) : Prop :=
  ∃ k, c.string = some k ∧ 0 ≤ c.contentLength ∧ k + c.contentLength ≤ c.readIndex

/-- The passes of the loop: a null pointer, a pass without a body, or the last pass with a
body that was accepted. -/
theorem Held.readPass_cases {c : Parser} (h : Held ⟨c, .body⟩)
    (he : BodyFits ⟨c, .body⟩ .body) :
  c.readPass = .error .nullPointer ∨
    (∃ pass c', c.readPass = .ok (pass, c') ∧ c'.string = none) ∨
    ∃ c', c.readPass = .ok (.exit .doRequest, c') ∧ Accepted c'
  := by
  have hstring : c.string = none := h.string (fun _ hp => by cases hp)
  by_cases hc : c.checkState = .content
  · rcases h.toInv.readPass_fits hc he with ⟨status, hd⟩ | ⟨d, hd, hk, hpos, hle⟩
    · exact .inr (.inl ⟨_, _, hd, hstring⟩)
    · exact .inr (.inr ⟨d, hd, _, hk, hpos, hle⟩)
  · rcases h.toInv.readPass_header hc with hfault | ⟨pass, d, hd, hsame⟩
    · exact .inl hfault
    · exact .inr (.inl ⟨pass, d, hd, hsame.trans hstring⟩)

/-- A pass after which the loop goes on. -/
theorem Held.again {c c' : Parser} {status : LineStatus} (h : Held ⟨c, .body⟩)
    (he : BodyFits ⟨c, .body⟩ .body) (hp : c.readPass = .ok (.again status, c')) :
  c'.string = none
  := by
  rcases h.readPass_cases he with hfault | ⟨pass, d, hd, hnone⟩ | ⟨d, hd, -⟩
  · cases hfault.symm.trans hp
  · cases hd.symm.trans hp
    exact hnone
  · cases hd.symm.trans hp

/-- A pass with which the loop ends. -/
theorem Held.exit {c c' : Parser} {e : ReadExit} (h : Held ⟨c, .body⟩)
    (he : BodyFits ⟨c, .body⟩ .body) (hp : c.readPass = .ok (.exit e, c')) :
  c'.string = none ∨ e = .doRequest ∧ Accepted c'
  := by
  rcases h.readPass_cases he with hfault | ⟨pass, d, hd, hnone⟩ | ⟨d, hd, haccepted⟩
  · cases hfault.symm.trans hp
  · cases hd.symm.trans hp
    exact .inl hnone
  · cases hd.symm.trans hp
    exact .inr ⟨rfl, haccepted⟩

/-- A pass that faults. -/
theorem Held.fault {c : Parser} {f : Fault} (h : Held ⟨c, .body⟩)
    (he : BodyFits ⟨c, .body⟩ .body) (hp : c.readPass = .error f) :
  f = .nullPointer
  := by
  rcases h.readPass_cases he with hfault | ⟨pass, d, hd, -⟩ | ⟨d, hd, -⟩
  · exact (Except.error.inj (hfault.symm.trans hp)).symm
  · cases hd.symm.trans hp
  · cases hd.symm.trans hp

/-- A step of a body that fits. -/
theorem Held.step {s s' : Reading} {e : ReadingEvent} (h : s.Held) (he : s.BodyFits e)
    (hs : s.step e = some s') :
  s'.Held
  := by
  have hinv := h.toInv.step hs
  have hnone (hplace : ∀ e, s.place ≠ .left e) : s.parser.string = none := h.string hplace
  cases steps_of_step hs with
  | receive hsize => exact .of_none hinv (hnone (fun _ hp => by cases hp)) (fun _ hp => by cases hp)
  | call => exact .of_none hinv (hnone (fun _ hp => by cases hp)) (fun _ hp => by cases hp)
  | content hc => exact .of_none hinv (hnone (fun _ hp => by cases hp)) (fun _ hp => by cases hp)
  | line hl =>
      have hstring := h.toInv.parseLine_string hl
      exact .of_none hinv (hstring.trans (hnone (fun _ hp => by cases hp)))
        (fun _ hp => by cases hp)
  | wait hstatus hl =>
      have hstring := h.toInv.parseLine_string hl
      exact .of_none hinv (hstring.trans (hnone (fun _ hp => by cases hp)))
        (fun _ hp => by cases hp)
  | lineFault hl =>
      obtain ⟨status, d, hd⟩ := parseLine_ok _ h.inBuffer.le_size
      cases hl.symm.trans hd
  | again hp => exact .of_none hinv (h.again he hp) (fun _ hp => by cases hp)
  | @exit c c' e hp =>
      have hplace (f : Fault) : leave e ≠ .fault f := by
        rcases leave_cases e with hleave | hleave
        · rw [hleave]
          apply Place.noConfusion
        · rw [hleave]
          apply Place.noConfusion
      rcases h.exit he hp with hstring | ⟨rfl, k, hk, hpos, hle⟩
      · exact .of_none hinv hstring (fun f hf => absurd hf (hplace f))
      · refine ⟨hinv, ⟨hplace _, hplace _, ?_⟩, fun hleft => absurd rfl (hleft _)⟩
        intro k' hk'
        obtain rfl := Option.some.inj (hk.symm.trans hk')
        exact ⟨hpos, hle⟩
  | bodyFault hp =>
      refine .of_none hinv (hnone (fun _ hp => by cases hp)) ?_
      rintro _ ⟨⟩
      apply h.fault he hp
  | init => exact start_held

theorem place_of_step_body {s s' : Reading} (hs : s.step .body = some s') :
  s.place = .body
  := by
  cases steps_of_step hs with
  | again => rfl
  | exit => rfl
  | bodyFault => rfl

/-- A step of a body that does not fit goes out of bounds. -/
theorem Held.spoiled {s s' : Reading} {e : ReadingEvent} (h : s.Held) (he : ¬ s.BodyFits e)
    (hs : s.step e = some s') :
  ¬ s'.Bounded
  := by
  intro hb
  apply he
  cases e with
  | body =>
      intro hc
      obtain ⟨c, place⟩ := s
      obtain rfl : place = .body := place_of_step_body hs
      obtain ⟨hcheck, hread, hsize⟩ := h.inBuffer
      dsimp only at hc hcheck hread hsize ⊢
      have hbuff : readBuffSize = 2048 := rfl
      rcases readPass_content_cases hc
        with ⟨-, hp⟩ | ⟨⟨hlt, hsum⟩, -⟩ | ⟨-, -, hp⟩ | ⟨hle, hin, hp⟩
      · cases (step_body_error hp).symm.trans hs
        apply absurd rfl hb.sum
      · exact ⟨by omega, hsum, fun _ => hlt⟩
      · cases (step_body_error hp).symm.trans hs
        apply absurd rfl hb.store
      · cases (step_body_exit hp).symm.trans hs
        have hpos : 0 ≤ c.contentLength := (hb.body _ rfl).1
        exact ⟨hpos, by omega, fun hend => absurd hend (ne_of_lt hin.2)⟩
  | receive bs => trivial
  | call => trivial
  | condition => trivial
  | init => trivial

/-- The parser keeps within the read buffer throughout a run exactly when all the bodies
in it fit. -/
theorem bounded_iff {es : List ReadingEvent} {s : Reading} (h : Run.exec step start es = some s) :
  Run.Throughout step Bounded start es ↔ Run.Along step BodyFits start es
  := by
  apply Run.throughout_iff_along (I := Held) _ _ (fun _ h => h.toBounded) start_held h
  · intro s e s' hs he hs'
    apply hs.step he hs'
  · intro s e s' hs he hs'
    apply hs.spoiled he hs'

/-- A `POST` whose body is declared by the text `length` is received and parsed at once. -/
def declaring (length : String) : List ReadingEvent :=
  [.receive (ascii "POST / HTTP/1.1" ++ crlf ++ ascii "Content-Length:" ++ ascii length ++ crlf
      ++ crlf ++ ascii "ab"),
    .call, .condition, .body, .condition, .body, .condition, .body, .condition, .body]

set_option maxRecDepth 10000 in
theorem bounded_iff_declaring :
  Run.Throughout step Bounded start (declaring "2") ↔ Run.Along step BodyFits start (declaring "2")
  := by
  have hrun : (Run.exec step start (declaring "2")).isSome = true := by decide +kernel
  obtain ⟨s, hs⟩ := Option.isSome_iff_exists.mp hrun
  apply bounded_iff hs

set_option maxRecDepth 10000 in
/-- A body of `-1` bytes is accepted. -/
theorem not_bounded :
  ¬ ∀ (es : List ReadingEvent) (s : Reading), Run.exec step start es = some s → s.Bounded
  := by
  intro h
  have hrun : (Run.exec step start (declaring "-1")).map
      (fun s => (s.parser.string.isSome, s.parser.contentLength)) = some (true, -1) := by
    decide +kernel
  obtain ⟨s, hs, hbody⟩ := Option.map_eq_some_iff.mp hrun
  obtain ⟨hstring, hlength⟩ := Prod.mk.inj hbody
  obtain ⟨k, hk⟩ := Option.isSome_iff_exists.mp hstring
  have hpos := ((h _ s hs).body k hk).1
  rw [hlength] at hpos
  apply absurd hpos (by decide)

end Reading

end WebServer
