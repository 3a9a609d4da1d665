import WebServer.Http.Grammar
import WebServer.Http.Rounds

/-!
# Requests that are handed to `do_request`

What `process_read` leaves of a request in the object of the connection: for a `POST` request
`cgi` is set, `m_url` points into the request line, eleven bytes of the version and of the end
of the line behind it at least, and `m_string`, when it is set, points behind that line and to
a body at whose declared length a NUL was stored (`exec_placed`).
-/

open CString Fallible WebServer.Parser

namespace WebServer

namespace Parser

/-! ### The place of `m_url` -/

theorem storeAll_url {c c' : Parser} {p : ℕ} {l : List UInt8} (h : c.storeAll p l = .ok c') :
  c'.url = c.url
  := by
  induction l generalizing c p with
  | nil =>
      cases h
      rfl
  | cons b l ih =>
      obtain ⟨c₁, hs, h⟩ := bind_eq_ok.mp h
      rw [ih h, (store_eq_ok.mp hs).2]

theorem parsePath_url {c c' : Parser} {p : ℕ} {r : HttpCode} (h : c.parsePath p = .ok (r, c')) :
  c'.url = c.url
  := by
  rw [parsePath] at h
  split at h
  · cases h
    rfl
  · split at h
    · obtain ⟨c₁, hs, h⟩ := bind_eq_ok.mp h
      cases h
      apply storeAll_url hs
    · cases h
      rfl

/-- The path of an accepted target lies in it. -/
theorem Ends.parseUrl_place {c c' : Parser} {u e : ℕ} (h : Ends c u e)
    (hr : c.parseUrl u = .ok (.noRequest, c')) :
  ∃ p, c'.url = some p ∧ p ≤ e
  := by
  rw [parseUrl] at hr
  rcases h.skipScheme_cases (ascii "http://") with hs | ⟨p, -, hpe, hs⟩
  · rw [hs] at hr
    cases hr
  · rw [hs, ok_bind] at hr
    rcases (h.from hpe).skipScheme_cases (ascii "https://") with hs' | ⟨p', -, hpe', hs'⟩
    · rw [hs'] at hr
      cases hr
    · rw [hs', ok_bind] at hr
      exact ⟨p', parsePath_url hr, hpe'⟩

/-- What an accepted request line leaves: `cgi` is set for a `POST`, and the version and the
blank before it follow `m_url`. -/
theorem Ends.parseRequestLine_place {c c' : Parser} {p e : ℕ} (h : Ends c p e)
    (hroom : e + 2 ≤ readBuffSize) (hr : c.parseRequestLine p = .ok (.noRequest, c')) :
  c'.cgi = (if c'.method = .post then 1 else c.cgi) ∧ ∃ u, c'.url = some u ∧ u + 9 ≤ e
  := by
  by_cases hw : ∃ w : Words, c.text p = w.line
  · obtain ⟨w, ht⟩ := hw
    obtain ⟨m, hm⟩ := Option.isSome_iff_exists.mp w.method_implemented
    obtain ⟨d, u, hd, hrest⟩ := h.parseRequestLine_method ht hm w.blank_isBlank
    obtain ⟨d', e', hd', hurl, hend⟩ :=
      hrest.parseVersion_url w.target_word w.blank'_isBlank w.version_http
    rw [hd, hd'] at hr
    have hpath : hasPath (d'.text u) = true := by
      by_contra hpath
      cases hless : pathless (d'.text u) with
      | true => cases (parseUrl_pathless hless).symm.trans hr
      | false =>
          obtain ⟨c₁, hc₁, -⟩ :=
            hurl.parseUrl_rejects (Bool.eq_false_of_not_eq_true hpath) hless
          cases hc₁.symm.trans hr
    obtain ⟨c₁, hc₁, -, hmethod, hcgi, -⟩ := hurl.parseUrl_header (by omega) hpath
    cases hc₁.symm.trans hr
    constructor
    · rw [hcgi, hurl.cgi, hmethod, hurl.method]
    · obtain ⟨q, hq, hle⟩ := hurl.parseUrl_place hr
      exact ⟨q, hq, by omega⟩
  · obtain ⟨c₁, hc₁, -⟩ := h.parseRequestLine_rejects (not_exists.mp hw)
    cases hc₁.symm.trans hr

/-- A pass over a request line that goes on. -/
theorem LineEnds.readPass_place {c c' : Parser} (h : LineEnds c)
    (hc : c.checkState = .requestLine) {pass : Pass} (hp : c.readPass = .ok (pass, c'))
    (hc' : c'.checkState ≠ .requestLine) :
  c'.cgi = (if c'.method = .post then 1 else c.cgi) ∧ ∃ u, c'.url = some u ∧ u + 11 ≤ c.checkIndex
  := by
  have hd : Ends c.nextLine c.startLine (c.checkIndex - 2) := { h.ends with }
  have hroom := h.room
  have hread := h.le_read
  have hsize := h.le_size
  have hstate : c.nextLine.checkState = .requestLine := hc
  have hend : c.checkIndex - 2 + 2 ≤ readBuffSize := by omega
  have hfinds := hd.parseRequestLine_finds hend hstate
  rw [readPass, parseText_requestLine hstate] at hp
  obtain ⟨⟨ret, d⟩, hr, hp⟩ := bind_eq_ok.mp hp
  cases hp
  rw [hr] at hfinds
  rcases hfinds with ⟨-, hbad⟩ | ⟨rfl, -⟩
  · apply absurd hbad hc'
  · obtain ⟨hcgi, u, hu, hle⟩ := hd.parseRequestLine_place hend hr
    exact ⟨hcgi, u, hu, by omega⟩

/-! ### The place of the body -/

/-- `m_string` is `q`: it lies behind what `m_url` points to, and there is a NUL at the length
that was declared. -/
structure Bodied (c : Parser) (q : ℕ) : Prop where
  url : ∀ u, c.url = some u → u + 11 ≤ q
  nonneg : 0 ≤ q + c.contentLength
  lt_size : q + c.contentLength < readBuffSize
  nul : c.readBuf (q + c.contentLength).toNat = 0

theorem parseHeaders_method (c : Parser) (p : ℕ) :
  (c.parseHeaders p).2.method = c.method ∧ (c.parseHeaders p).2.cgi = c.cgi
  := by
  rw [parseHeaders]
  split
  · split
    · exact ⟨rfl, rfl⟩
    · exact ⟨rfl, rfl⟩
  · split
    · split
      · exact ⟨rfl, rfl⟩
      · exact ⟨rfl, rfl⟩
    · split
      · exact ⟨rfl, rfl⟩
      · split
        · exact ⟨rfl, rfl⟩
        · exact ⟨rfl, rfl⟩

/-- Behind the request line a pass leaves the method and `cgi`. -/
theorem readPass_method {c c' : Parser} {pass : Pass} (hc : c.checkState ≠ .requestLine)
    (hp : c.readPass = .ok (pass, c')) :
  c'.checkState ≠ .requestLine ∧ c'.method = c.method ∧ c'.cgi = c.cgi
  := by
  cases hstate : c.checkState with
  | requestLine => exact absurd hstate hc
  | header =>
      obtain ⟨hmethod, hcgi⟩ := parseHeaders_method c.nextLine c.startLine
      obtain ⟨pass', d, hd, hpass⟩ := readPass_header_cases hstate
      cases hd.symm.trans hp
      have hleft := hpass.checkState
      cases (readPass_of_header hstate).symm.trans hp
      exact ⟨hleft, hmethod, hcgi⟩
  | content =>
      rcases readPass_content_cases hstate with ⟨-, hd⟩ | ⟨-, hd⟩ | ⟨-, -, hd⟩ | ⟨-, -, hd⟩
      · cases hd.symm.trans hp
      · cases hd.symm.trans hp
        exact ⟨hc, rfl, rfl⟩
      · cases hd.symm.trans hp
      · cases hd.symm.trans hp
        exact ⟨hc, rfl, rfl⟩

end Parser

namespace Reading

/-- What holds of the pointers of a connection between its steps. -/
structure Placed (s : Reading) : Prop where
  cgi : s.parser.checkState ≠ .requestLine → s.parser.method = .post → s.parser.cgi = 1
  url : s.parser.checkState ≠ .requestLine →
    ∀ u, s.parser.url = some u → u + 11 ≤ s.parser.startLine
  string : ∀ q, s.parser.string = some q → s.place = .left .doRequest ∧ s.parser.Bodied q

theorem start_placed :
  start.Placed
  where
  cgi := fun h => absurd rfl h
  url := fun h => absurd rfl h
  string := fun q hq => by cases hq

/-- Before a request is handed over, `m_string` is not set. -/
theorem Placed.string_eq_none {s : Reading} (h : s.Placed) (hplace : ∀ e, s.place ≠ .left e) :
  s.parser.string = none
  := by
  cases hstring : s.parser.string with
  | none => rfl
  | some q => exact absurd (h.string q hstring).1 (hplace _)

theorem Placed.of_parseLine {c c' : Parser} {status status' : LineStatus} {place : Place}
    (h : Placed ⟨c, .condition status⟩) (hc : InBuffer c) (hl : c.parseLine = .ok (status', c')) :
  Placed ⟨c', place⟩
  := by
  have hnone := h.string_eq_none (by rintro e ⟨⟩)
  have hframe := (parseLine_scanned hc.le_size hl).frame
  rw [hframe]
  refine ⟨h.cgi, h.url, fun q hq => ?_⟩
  cases hnone.symm.trans hq

/-- The same parser somewhere else. -/
theorem Placed.moved {c : Parser} {place place' : Place} (h : Placed ⟨c, place⟩)
    (hplace : ∀ e, place ≠ .left e) :
  Placed ⟨c, place'⟩
  := ⟨h.cgi, h.url, fun q hq => by cases (h.string_eq_none hplace).symm.trans hq⟩

/-- A pass over the request line sets `m_url`. -/
theorem Placed.readPass_requestLine {c c' : Parser} {pass : Pass} {place : Place}
    (h : Placed ⟨c, .body⟩) (hends : LineEnds c) (hc : c.checkState = .requestLine)
    (hp : c.readPass = .ok (pass, c')) :
  Placed ⟨c', place⟩
  := by
  have hnone : c.string = none := h.string_eq_none (by rintro e ⟨⟩)
  have hstart : c'.startLine = c.checkIndex := (readPass_sameIndices hp).startLine
  have hstring : c'.string = none := by
    rcases hends.readPass_requestLine hc with hfault | ⟨d, hsame, ⟨hd, -⟩ | ⟨hd, -⟩⟩
    · cases hfault.symm.trans hp
    · cases hd.symm.trans hp
      apply hsame.string.trans hnone
    · cases hd.symm.trans hp
      apply hsame.string.trans hnone
  constructor
  · intro hc' hpost
    rw [(hends.readPass_place hc hp hc').1, if_pos hpost]
  · intro hc' u hu
    obtain ⟨-, u', hu', hle⟩ := hends.readPass_place hc hp hc'
    cases hu'.symm.trans hu
    apply hle.trans hstart.ge
  · intro q hq
    cases hstring.symm.trans hq

/-- A pass over a header line leaves the pointers. -/
theorem Placed.readPass_header {c c' : Parser} {pass : Pass} {place : Place}
    (h : Placed ⟨c, .body⟩) (hle : c.startLine ≤ c.checkIndex) (hc : c.checkState = .header)
    (hp : c.readPass = .ok (pass, c')) :
  Placed ⟨c', place⟩
  := by
  have hnone : c.string = none := h.string_eq_none (by rintro e ⟨⟩)
  have hstart : c'.startLine = c.checkIndex := (readPass_sameIndices hp).startLine
  have hne : c.checkState ≠ .requestLine := by
    rw [hc]
    decide
  obtain ⟨-, hmethod, hcgi⟩ := readPass_method hne hp
  obtain ⟨pass', d, hd, hpass⟩ := readPass_header_cases hc
  cases hd.symm.trans hp
  constructor
  · intro _ hpost
    apply hcgi.trans (h.cgi hne (hmethod.symm.trans hpost))
  · intro _ u hu
    exact (h.url hne u (hpass.url.symm.trans hu)).trans (hle.trans hstart.ge)
  · intro q hq
    cases (hpass.string.trans hnone).symm.trans hq

/-- A pass over the body sets `m_string` when it hands the request over. -/
theorem Placed.readPass_content {c c' : Parser} {pass : Pass} {place : Place}
    (h : Placed ⟨c, .body⟩) (hle : c.startLine ≤ c.checkIndex) (hc : c.checkState = .content)
    (hp : c.readPass = .ok (pass, c'))
    (hplace : pass = .exit .doRequest → place = .left .doRequest) :
  Placed ⟨c', place⟩
  := by
  have hnone : c.string = none := h.string_eq_none (by rintro e ⟨⟩)
  have hne : c.checkState ≠ .requestLine := by
    rw [hc]
    decide
  have hurl : ∀ u, c.url = some u → u + 11 ≤ c.checkIndex := fun u hu =>
    (h.url hne u hu).trans hle
  rcases readPass_content_cases hc
    with ⟨-, hd⟩ | ⟨-, hd⟩ | ⟨-, -, hd⟩ | ⟨-, ⟨hnonneg, hlt⟩, hd⟩
  · cases hd.symm.trans hp
  · cases hd.symm.trans hp
    exact ⟨fun _ => h.cgi hne, fun _ => hurl, fun q hq => by cases hnone.symm.trans hq⟩
  · cases hd.symm.trans hp
  · cases hd.symm.trans hp
    refine ⟨fun _ => h.cgi hne, fun _ => hurl, ?_⟩
    rintro q ⟨⟩
    exact ⟨hplace rfl, h.url hne, hnonneg, hlt, Function.update_self ..⟩

theorem Placed.readPass {c c' : Parser} {pass : Pass} {place : Place} (h : Placed ⟨c, .body⟩)
    (hinv : Inv ⟨c, .body⟩) (hp : c.readPass = .ok (pass, c'))
    (hplace : pass = .exit .doRequest → place = .left .doRequest) :
  Placed ⟨c', place⟩
  := by
  have hle := hinv.inBuffer.le_check
  cases hc : c.checkState with
  | requestLine =>
      have hends : LineEnds c := hinv.inLine (by rw [hc]; decide)
      apply h.readPass_requestLine hends hc hp
  | header => apply h.readPass_header hle hc hp
  | content => apply h.readPass_content hle hc hp hplace

theorem Placed.step {s s' : Reading} {e : ReadingEvent} (h : s.Placed) (hinv : s.Inv)
    (hs : step s e = some s') :
  s'.Placed
  := by
  cases steps_of_step hs with
  | receive hsize =>
      have hnone := h.string_eq_none (by rintro e ⟨⟩)
      exact ⟨h.cgi, h.url, fun q hq => by cases hnone.symm.trans hq⟩
  | call => exact h.moved (by rintro e ⟨⟩)
  | content hc => exact h.moved (by rintro e ⟨⟩)
  | line hl => exact h.of_parseLine hinv.inBuffer hl
  | wait hstatus hl => exact h.of_parseLine hinv.inBuffer hl
  | lineFault hl => exact h.moved (by rintro e ⟨⟩)
  | again hp => exact h.readPass hinv hp (by rintro ⟨⟩)
  | exit hp =>
      apply h.readPass hinv hp
      rintro ⟨⟩
      rfl
  | bodyFault hp => exact h.moved (by rintro e ⟨⟩)
  | init => exact start_placed

/-- Whatever was received, the pointers are placed so. -/
theorem exec_placed {es : List ReadingEvent} {s : Reading} (h : Run.exec step start es = some s) :
  s.Inv ∧ s.Placed
  := Run.exec_preserves (I := fun s => s.Inv ∧ s.Placed)
    (fun _ _ _ hs hstep => ⟨hs.1.step hstep, hs.2.step hs.1 hstep⟩) ⟨start_inv, start_placed⟩ h

end Reading

end WebServer
