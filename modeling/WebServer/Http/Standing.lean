import WebServer.Http.FormParts

/-!
# Where a parser stands that waits

What holds of a parser behind a call of `process_read` that returned `NO_REQUEST`, whatever was
received: `m_url` points to a slash and ends before the line that is parsed, and nothing is in
`m_string` (`Unfinished.stands`).  What is in front of the line that is parsed is not touched by
the calls that follow (`Keeps`), but for the NUL that `parse_content` stores behind a body.
-/

open CString Fallible WebServer.Parser

namespace WebServer

namespace Parser

/-! ### The URL -/

/-- The URL starts at `u`, and the NUL at `e` ends it in front of the line that is parsed. -/
structure UrlEnds (c : Parser) (u e : ℕ) : Prop where
  url : c.url = some u
  le : u ≤ e
  lt : e < c.startLine
  lt_size : e < readBuffSize
  nul : c.readBuf e = 0

/-- What `c` has in front of the line that it parses is left alone in `d`, which does not go back
before that line. -/
structure Keeps (c d : Parser) : Prop where
  url : d.url = c.url
  cgi : d.cgi = c.cgi
  startLine : c.startLine ≤ d.startLine
  readBuf : ∀ i, i < c.startLine → d.readBuf i = c.readBuf i

theorem Keeps.trans {c₁ c₂ c₃ : Parser} (h : Keeps c₁ c₂) (h' : Keeps c₂ c₃) :
  Keeps c₁ c₃
  where
  url := h'.url.trans h.url
  cgi := h'.cgi.trans h.cgi
  startLine := h.startLine.trans h'.startLine
  readBuf i hi := (h'.readBuf i (hi.trans_le h.startLine)).trans (h.readBuf i hi)

/-- A byte put in both. -/
theorem Keeps.put {c d : Parser} (h : Keeps c d) (i : ℕ) (b : UInt8) :
  Keeps (c.put i b) (d.put i b)
  where
  url := h.url
  cgi := h.cgi
  startLine := h.startLine
  readBuf j hj := by
    change Function.update d.readBuf i b j = Function.update c.readBuf i b j
    by_cases hji : j = i
    · rw [hji, Function.update_self, Function.update_self]
    · rw [Function.update_of_ne hji, Function.update_of_ne hji]
      apply h.readBuf j hj

/-- A byte put behind the beginning of the line. -/
theorem keeps_put (c : Parser) {i : ℕ} (b : UInt8) (hi : c.startLine ≤ i) :
  Keeps c (c.put i b)
  where
  url := rfl
  cgi := rfl
  startLine := le_rfl
  readBuf j hj := Function.update_of_ne (by omega) ..

theorem keeps_receive (c : Parser) (bs : List UInt8) (hread : c.startLine ≤ c.readIndex) :
  Keeps c (c.receive bs)
  where
  url := rfl
  cgi := rfl
  startLine := le_rfl
  readBuf _ hj := readBuf_receive _ _ (hj.trans_le hread)

theorem keeps_nextLine {c : Parser} (h : c.startLine ≤ c.checkIndex) :
  Keeps c c.nextLine
  := ⟨rfl, rfl, h, fun _ _ => rfl⟩

theorem keeps_scannedTo (c : Parser) (k : ℕ) :
  Keeps c (c.scannedTo k)
  := ⟨rfl, rfl, le_rfl, fun _ _ => rfl⟩

theorem keeps_closeLine {c : Parser} {k : ℕ} (h : c.startLine ≤ k) :
  Keeps c (c.scannedTo k).closeLine
  where
  url := rfl
  cgi := rfl
  startLine := le_rfl
  readBuf j hj := by
    change Function.update (Function.update c.readBuf k 0) (k + 1) 0 j = c.readBuf j
    rw [Function.update_of_ne (by omega), Function.update_of_ne (by omega)]

theorem UrlEnds.keeps {c d : Parser} {u e : ℕ} (h : UrlEnds c u e) (hkeeps : Keeps c d) :
  UrlEnds d u e
  where
  url := hkeeps.url.trans h.url
  le := h.le
  lt := h.lt.trans_le hkeeps.startLine
  lt_size := h.lt_size
  nul := (hkeeps.readBuf e h.lt).trans h.nul

/-- A NUL that is put somewhere leaves the one at the end. -/
theorem UrlEnds.put {c : Parser} {u e : ℕ} (h : UrlEnds c u e) (i : ℕ) :
  UrlEnds (c.put i 0) u e
  where
  url := h.url
  le := h.le
  lt := h.lt
  lt_size := h.lt_size
  nul := by
    change Function.update c.readBuf i 0 e = 0
    by_cases hei : e = i
    · rw [hei, Function.update_self]
    · rw [Function.update_of_ne hei, h.nul]

/-- The URL is left alone. -/
theorem UrlEnds.text_eq {c d : Parser} {u e : ℕ} (h : UrlEnds c u e) (hkeeps : Keeps c d) :
  d.text u = c.text u
  := by
  apply stringAt_congr h.le h.lt_size h.nul
  intro i _ hi
  apply hkeeps.readBuf i (hi.trans_lt h.lt)

theorem UrlEnds.strrchr_eq {c d : Parser} {u e : ℕ} (h : UrlEnds c u e) (hkeeps : Keeps c d) :
  strrchr d.readBuf readBuffSize u 47 = strrchr c.readBuf readBuffSize u 47
  := by
  have htext := h.text_eq hkeeps
  rw [text, text] at htext
  rw [strrchr, strrchr, htext]

/-- So is the byte behind its last slash. -/
theorem UrlEnds.digit_eq {c d : Parser} {u p e : ℕ} (h : UrlEnds c u e) (hkeeps : Keeps c d)
    (hp : strrchr c.readBuf readBuffSize u 47 = some p) :
  d.readBuf (p + 1) = c.readBuf (p + 1)
  := by
  have hlt := strrchr_lt hp
  have hle := stringAt_length h.le h.lt_size h.nul
  have hstart := h.lt
  apply hkeeps.readBuf
  omega

/-- Whether the request is one with credentials does not change. -/
theorem UrlEnds.credentialed_iff {c d : Parser} {u p e : ℕ} (h : UrlEnds c u e)
    (hkeeps : Keeps c d) :
  Credentialed d u p ↔ Credentialed c u p
  := by
  have hslash := h.strrchr_eq hkeeps
  constructor
  · intro hd
    have hp := hslash.symm.trans hd.slash
    exact ⟨h.url, hp, hkeeps.cgi.symm.trans hd.cgi, h.digit_eq hkeeps hp ▸ hd.digit⟩
  · intro hc
    have hdigit := h.digit_eq hkeeps hc.slash
    exact ⟨hkeeps.url.trans h.url, hslash.trans hc.slash, hkeeps.cgi.trans hc.cgi,
      hdigit.symm ▸ hc.digit⟩

/-- What fits does not change either. -/
theorem UrlEnds.fits_iff {c d : Parser} {u p e : ℕ} (h : UrlEnds c u e) (hkeeps : Keeps c d)
    (hp : strrchr c.readBuf readBuffSize u 47 = some p) (l : List UInt8) :
  HttpTask.Fits d u p l ↔ HttpTask.Fits c u p l
  := by
  have htext := h.text_eq hkeeps
  have hdigit := h.digit_eq hkeeps hp
  constructor
  · rintro ⟨hurl, hname, hpassword, hstatement⟩
    exact ⟨htext ▸ hurl, hname, hpassword, hdigit ▸ hstatement⟩
  · rintro ⟨hurl, hname, hpassword, hstatement⟩
    exact ⟨htext.symm ▸ hurl, hname, hpassword, hdigit.symm ▸ hstatement⟩

end Parser

namespace Reading

/-! ### Until the request is handed over -/

/-- What holds between the steps until the request is handed over: `m_url` points to a slash and
ends before the line that is parsed, and `m_check_index` is not behind a carriage return. -/
structure Standing (s : Reading) : Prop where
  url : s.parser.checkState ≠ .requestLine → (∀ e, s.place ≠ .left e) →
    ∃ u e, UrlEnds s.parser u e ∧ s.parser.readBuf u = 47
  before : s.parser.checkState = .content → (∀ e, s.place ≠ .left e) →
    ∀ i, i + 1 = s.parser.checkIndex → s.parser.readBuf i ≠ 13

theorem start_standing :
  start.Standing
  where
  url h := absurd rfl h
  before h := by cases h

theorem Standing.moved {c : Parser} {place place' : Place} (h : Standing ⟨c, place⟩)
    (hplace : ∀ e, place ≠ .left e) :
  Standing ⟨c, place'⟩
  := ⟨fun hc _ => h.url hc hplace, fun hc _ => h.before hc hplace⟩

/-- What is kept of the URL. -/
theorem Standing.url_keeps {c d : Parser} {place : Place} (h : Standing ⟨c, place⟩)
    (hplace : ∀ e, place ≠ .left e) (hkeeps : Keeps c d) (hc : c.checkState ≠ .requestLine) :
  ∃ u e, UrlEnds d u e ∧ d.readBuf u = 47
  := by
  obtain ⟨u, e, he, hslash⟩ := h.url hc hplace
  exact ⟨u, e, he.keeps hkeeps, (hkeeps.readBuf u (he.le.trans_lt he.lt)).trans hslash⟩

theorem Standing.of_parseLine {c c' : Parser} {status status' : LineStatus} {place : Place}
    (h : Standing ⟨c, .condition status⟩) (hinv : Inv ⟨c, .condition status⟩)
    (hl : c.parseLine = .ok (status', c')) :
  Standing ⟨c', place⟩
  := by
  have hleft : ∀ e, Place.condition status ≠ .left e := by
    rintro e ⟨⟩
  have hbefore : ∀ i, i + 1 = c.checkIndex → c.readBuf i ≠ 13 := by
    by_cases hc : c.checkState = .content
    · apply h.before hc hleft
    · apply (hinv.inLine hc).before
  have hstart : c.startLine ≤ c.checkIndex := hinv.inBuffer.le_check
  obtain ⟨k, hk, -, hplain, ⟨status₁, -, hl'⟩ | ⟨-, -, -, hl'⟩⟩ :=
    parseLine_cases hinv.inBuffer.le_read hinv.inBuffer.le_size hbefore
  · cases hl'.symm.trans hl
    refine ⟨fun hc _ => h.url_keeps hleft (keeps_scannedTo c k) hc, fun _ _ i hi hcr => ?_⟩
    change i + 1 = k at hi
    rcases Nat.eq_or_lt_of_le hk with rfl | hlt
    · apply hbefore i hi hcr
    · have hplain' := hplain i (by omega) (by omega)
      rw [show c.readBuf i = 13 from hcr] at hplain'
      cases hplain'
  · cases hl'.symm.trans hl
    refine ⟨fun hc _ => h.url_keeps hleft (keeps_closeLine (hstart.trans hk)) hc,
      fun _ _ i hi hcr => ?_⟩
    obtain rfl : i = k + 1 := Nat.succ.inj hi
    have hnul : ((c.scannedTo k).closeLine).readBuf (k + 1) = 0 := Function.update_self ..
    cases hnul.symm.trans hcr

/-- A pass over the request line sets `m_url`. -/
theorem Standing.readPass_requestLine {c c' : Parser} {pass : Pass} {place : Place}
    (hinv : Inv ⟨c, .body⟩) (hc : c.checkState = .requestLine)
    (hp : c.readPass = .ok (pass, c')) :
  Standing ⟨c', place⟩
  := by
  have hends : LineEnds c := hinv.inLine (by rw [hc]; decide)
  have hstart : c'.startLine = c.checkIndex := (readPass_sameIndices hp).startLine
  rcases hends.readPass_requestLine hc
    with hfault | ⟨d, -, ⟨hd, hstate⟩ | ⟨hd, hstate, u, hurl, hlt, hslash⟩⟩
  · cases hfault.symm.trans hp
  · cases hd.symm.trans hp
    exact ⟨fun hne => absurd hstate hne, fun hcontent => by cases hstate.symm.trans hcontent⟩
  · cases hd.symm.trans hp
    have hheader : c'.checkState ≠ .content := by
      rw [hstate]
      decide
    have hbetween := hinv.readPass_between hp hheader
    have hle := hbetween.le_check.trans (hbetween.le_read.trans hbetween.le_size)
    have hnul : c'.readBuf (c'.startLine - 1) = 0 := hbetween.closed.nul _ (by omega)
    have he : UrlEnds c' u (c'.startLine - 1) := ⟨hurl, by omega, by omega, by omega, hnul⟩
    exact ⟨fun _ _ => ⟨u, _, he, hslash⟩, fun hcontent => absurd hcontent hheader⟩

/-- A pass over a header line leaves the URL, and the turn to the body is behind a NUL. -/
theorem Standing.readPass_header {c c' : Parser} {pass : Pass} {place : Place}
    (h : Standing ⟨c, .body⟩) (hinv : Inv ⟨c, .body⟩) (hc : c.checkState = .header)
    (hp : c.readPass = .ok (pass, c')) :
  Standing ⟨c', place⟩
  := by
  have hends : LineEnds c := hinv.inLine (by rw [hc]; decide)
  have hindices := readPass_sameIndices hp
  have hle : c.startLine ≤ c.checkIndex := hinv.inBuffer.le_check
  obtain ⟨pass', d, hd, hpass⟩ := readPass_header_cases hc
  cases hd.symm.trans hp
  have hkeeps : Keeps c c' :=
    ⟨hpass.url, (readPass_method (by rw [hc]; decide) hp).2.2, hle.trans hindices.startLine.ge,
      fun i _ => congrFun hpass.readBuf i⟩
  refine ⟨fun _ _ => h.url_keeps (by rintro e ⟨⟩) hkeeps (by rw [hc]; decide),
    fun _ _ i hi hcr => ?_⟩
  have hnul := hends.closed.nul i (hi.trans hindices.checkIndex)
  rw [hpass.readBuf, hnul] at hcr
  cases hcr

/-- A pass over a body leaves the URL until the request is handed over. -/
theorem Standing.readPass_content {c c' : Parser} {pass : Pass} {place : Place}
    (h : Standing ⟨c, .body⟩) (hinv : Inv ⟨c, .body⟩) (hc : c.checkState = .content)
    (hp : c.readPass = .ok (pass, c'))
    (hplace : pass = .exit .doRequest → place = .left .doRequest) :
  Standing ⟨c', place⟩
  := by
  rcases readPass_content_cases hc with ⟨-, hd⟩ | ⟨-, hd⟩ | ⟨-, -, hd⟩ | ⟨-, -, hd⟩
  · cases hd.symm.trans hp
  · cases hd.symm.trans hp
    refine ⟨fun _ _ => ?_, fun _ _ => h.before hc (by rintro e ⟨⟩)⟩
    exact h.url_keeps (by rintro e ⟨⟩) (keeps_nextLine hinv.inBuffer.le_check)
      (by rw [hc]; decide)
  · cases hd.symm.trans hp
  · cases hd.symm.trans hp
    obtain rfl := hplace rfl
    exact ⟨fun _ hleft => absurd rfl (hleft _), fun _ hleft => absurd rfl (hleft _)⟩

theorem Standing.readPass {c c' : Parser} {pass : Pass} {place : Place}
    (h : Standing ⟨c, .body⟩) (hinv : Inv ⟨c, .body⟩) (hp : c.readPass = .ok (pass, c'))
    (hplace : pass = .exit .doRequest → place = .left .doRequest) :
  Standing ⟨c', place⟩
  := by
  cases hc : c.checkState with
  | requestLine => exact Standing.readPass_requestLine hinv hc hp
  | header => exact h.readPass_header hinv hc hp
  | content => exact h.readPass_content hinv hc hp hplace

theorem Standing.step {s s' : Reading} {e : ReadingEvent} (h : s.Standing) (hinv : s.Inv)
    (hs : step s e = some s') :
  s'.Standing
  := by
  cases steps_of_step hs with
  | @receive c bs hsize =>
      have hcheck : c.startLine ≤ c.checkIndex := hinv.inBuffer.le_check
      have hread : c.checkIndex ≤ c.readIndex := hinv.inBuffer.le_read
      have hkeeps := keeps_receive c bs (hcheck.trans hread)
      refine ⟨fun hc _ => h.url_keeps (by rintro e ⟨⟩) hkeeps hc, fun hc _ i hi => ?_⟩
      change i + 1 = c.checkIndex at hi
      change (c.receive bs).readBuf i ≠ 13
      rw [readBuf_receive _ _ (by omega)]
      exact h.before hc (by rintro e ⟨⟩) i hi
  | call => exact h.moved (by rintro e ⟨⟩)
  | content hc => exact h.moved (by rintro e ⟨⟩)
  | line hl => exact h.of_parseLine hinv hl
  | wait hstatus hl => exact h.of_parseLine hinv hl
  | lineFault hl => exact h.moved (by rintro e ⟨⟩)
  | again hp => exact h.readPass hinv hp (by rintro ⟨⟩)
  | exit hp =>
      apply h.readPass hinv hp
      rintro ⟨⟩
      rfl
  | bodyFault hp => exact h.moved (by rintro e ⟨⟩)
  | init => exact start_standing

/-- Whatever was received, a connection stands so. -/
theorem exec_standing {es : List ReadingEvent} {s : Reading}
    (h : Run.exec step start es = some s) :
  s.Inv ∧ s.Placed ∧ s.Standing
  := Run.exec_preserves (I := fun s => s.Inv ∧ s.Placed ∧ s.Standing)
    (fun _ _ _ hs hstep => ⟨hs.1.step hstep, hs.2.1.step hs.1 hstep, hs.2.2.step hs.1 hstep⟩)
    ⟨start_inv, start_placed, start_standing⟩ h

end Reading

namespace Parser

/-! ### Calls that return `NO_REQUEST` -/

/-- `process_read` runs after each of the chunks, which fit into the buffer, and returns
`NO_REQUEST` every time; it leaves the parser `d`. -/
def Unfinished : Parser → List (List UInt8) → Parser → Prop
  | c, [], d => d = c
  | c, chunk :: chunks, d =>
    ∃ c', (c.receive chunk).readIndex ≤ readBuffSize ∧
      (c.receive chunk).processRead = .ok (.returned .noRequest, c') ∧ Unfinished c' chunks d

theorem Unfinished.append {c d e : Parser} {chunks : List (List UInt8)} {chunk : List UInt8}
    (h : Unfinished c chunks d) (hsize : (d.receive chunk).readIndex ≤ readBuffSize)
    (hcall : (d.receive chunk).processRead = .ok (.returned .noRequest, e)) :
  Unfinished c (chunks ++ [chunk]) e
  := by
  induction chunks generalizing c with
  | nil =>
      obtain rfl : d = c := h
      exact ⟨e, hsize, hcall, rfl⟩
  | cons chunk' chunks ih =>
      obtain ⟨c', hsize', hcall', h⟩ := h
      exact ⟨c', hsize', hcall', ih h⟩

/-- The calls are runs of the steps of `process_read`. -/
theorem Unfinished.exec {c d : Parser} {chunks : List (List UInt8)} (h : Unfinished c chunks d)
    {es : List ReadingEvent}
    (hes : Run.exec Reading.step Reading.start es = some ⟨c, .outside⟩) :
  ∃ es', Run.exec Reading.step Reading.start es' = some ⟨d, .outside⟩
  := by
  induction chunks generalizing c es with
  | nil =>
      obtain rfl : d = c := h
      exact ⟨es, hes⟩
  | cons chunk chunks ih =>
      obtain ⟨c', hsize, hcall, h⟩ := h
      obtain ⟨es', s, hs, hended⟩ := Reading.exec_processRead (c.receive chunk)
      rw [hcall] at hended
      obtain rfl : s = ⟨c', .outside⟩ := hended
      have hreceive : Reading.step ⟨c, .outside⟩ (.receive chunk)
          = some ⟨c.receive chunk, .outside⟩ := if_pos hsize
      exact ih h (Run.exec_append hes (Run.exec_cons.mpr ⟨_, hreceive, hs⟩))

/-- What holds of a parser behind such calls. -/
structure Stands (c : Parser) : Prop extends Reading.InBuffer c where
  url : c.checkState ≠ .requestLine →
    ∃ u e, UrlEnds c u e ∧ c.readBuf u = 47 ∧ u + 11 ≤ c.startLine
  before : c.checkState = .content → ∀ i, i + 1 = c.checkIndex → c.readBuf i ≠ 13
  string : c.string = none

theorem Unfinished.stands {c : Parser} {chunks : List (List UInt8)}
    (h : Unfinished init chunks c) :
  Stands c
  := by
  have hstart : Run.exec Reading.step Reading.start [] = some ⟨init, .outside⟩ := rfl
  obtain ⟨es, hes⟩ := h.exec hstart
  obtain ⟨hinv, hplaced, hstanding⟩ := Reading.exec_standing hes
  have hplace : ∀ e, Reading.Place.outside ≠ .left e := by
    rintro e ⟨⟩
  refine ⟨hinv.inBuffer, fun hc => ?_, fun hc => hstanding.before hc hplace,
    hplaced.string_eq_none hplace⟩
  obtain ⟨u, e, he, hslash⟩ := hstanding.url hc hplace
  exact ⟨u, e, he, hslash, hplaced.url hc u he.url⟩

/-! ### Calls at a body -/

/-- The scanner stands at a line feed, or at a carriage return that another byte follows. -/
def AtBadByte (c : Parser) : Prop :=
  c.checkIndex < c.readIndex ∧
    (c.readBuf c.checkIndex = 10 ∨
      c.readBuf c.checkIndex = 13 ∧ c.checkIndex + 1 < c.readIndex ∧
        c.readBuf (c.checkIndex + 1) ≠ 10)

/-- The parser waits: `parse_line` finds no line, and leaves it as it is. -/
def Rests (c : Parser) : Prop := ∃ status, status ≠ .lineOk ∧ c.parseLine = .ok (status, c)

/-- The scanner goes no further behind what was read, at a carriage return that was read last, or
at a bad byte. -/
theorem rests_of_stops {c : Parser} (hle : c.checkIndex ≤ c.readIndex)
    (hsize : c.readIndex ≤ readBuffSize) (hbefore : ∀ i, i + 1 = c.checkIndex → c.readBuf i ≠ 13)
    (h : c.checkIndex = c.readIndex ∨
      (c.checkIndex + 1 = c.readIndex ∧ c.readBuf c.checkIndex = 13) ∨ c.AtBadByte) :
  Rests c
  := by
  obtain ⟨k, hk, hread, hplain, hl⟩ := parseLine_cases hle hsize hbefore
  have hnot : c.checkIndex < c.readIndex → isPlain (c.readBuf c.checkIndex) = false := by
    intro hlt
    rcases h with heq | ⟨-, hcr⟩ | ⟨-, hlf | ⟨hcr, -⟩⟩
    · apply absurd heq hlt.ne
    · rw [hcr]
      rfl
    · rw [hlf]
      rfl
    · rw [hcr]
      rfl
  have hstays : k = c.checkIndex := by
    by_contra hne
    have hfirst := hplain c.checkIndex le_rfl (by omega)
    rw [hnot (by omega)] at hfirst
    cases hfirst
  subst hstays
  rcases hl with ⟨status, hstatus, hl⟩ | ⟨hlt, hcr, hlf, -⟩
  · exact ⟨status, hstatus, hl⟩
  · exfalso
    rcases h with heq | ⟨hlast, -⟩ | ⟨-, hlf' | ⟨-, -, hne⟩⟩
    · omega
    · omega
    · rw [hcr] at hlf'
      cases hlf'
    · apply hne hlf

/-- The scanner does not leave a bad byte. -/
theorem AtBadByte.rests {c : Parser} (h : c.AtBadByte) (hsize : c.readIndex ≤ readBuffSize)
    (hbefore : ∀ i, i + 1 = c.checkIndex → c.readBuf i ≠ 13) :
  Rests c
  := rests_of_stops h.1.le hsize hbefore (.inr (.inr h))

/-- A parser that waits stands behind what was read, at a carriage return that was read last, or
at a bad byte. -/
theorem Rests.cases {c : Parser} (h : Rests c) (hle : c.checkIndex ≤ c.readIndex)
    (hsize : c.readIndex ≤ readBuffSize) :
  c.checkIndex = c.readIndex ∨
    (c.checkIndex + 1 = c.readIndex ∧ c.readBuf c.checkIndex = 13) ∨ c.AtBadByte
  := by
  obtain ⟨status, hstatus, hl⟩ := h
  rcases Nat.eq_or_lt_of_le hle with heq | hlt
  · exact .inl heq
  right
  by_cases hplain : isPlain (c.readBuf c.checkIndex) = true
  · rw [parseLine_plain hlt hplain] at hl
    have hmoves := (parseLine_indices _ hl).2.2.1
    apply absurd hmoves (Nat.not_succ_le_self _)
  · rw [isPlain, Bool.and_eq_true, not_and_or, bne_iff_ne, bne_iff_ne, not_not, not_not] at hplain
    rcases hplain with hcr | hlf
    · by_cases hlast : c.checkIndex + 1 = c.readIndex
      · exact .inl ⟨hlast, hcr⟩
      · refine .inr ⟨hlt, .inr ⟨hcr, by omega, fun hlf => ?_⟩⟩
        rw [parseLine_stop (by rw [hcr]; rintro ⟨-, ⟨⟩⟩),
          endLine_crlf hsize (by omega) hcr hlf] at hl
        apply hstatus (Prod.mk.inj (Except.ok.inj hl)).1.symm
    · exact .inr ⟨hlt, .inl hlf⟩

/-- What the passes over a body that is not complete make of `c`. -/
structure Goes (c d : Parser) : Prop extends Keeps c d, Reading.InBuffer d where
  checkState : d.checkState = .content
  contentLength : d.contentLength = c.contentLength
  readIndex : d.readIndex = c.readIndex
  string : d.string = c.string
  short : (d.readIndex : ℤ) < d.startLine + d.contentLength
  before : ∀ i, i + 1 = d.checkIndex → d.readBuf i ≠ 13
  parked : c.AtBadByte → d = c.nextLine

/-- The first pass over a body that is not complete. -/
theorem goes_nextLine {c : Parser} (h : Reading.InBuffer c) (hc : c.checkState = .content)
    (hbefore : ∀ i, i + 1 = c.checkIndex → c.readBuf i ≠ 13)
    (hshort : (c.readIndex : ℤ) < c.checkIndex + c.contentLength) :
  Goes c c.nextLine
  where
  toKeeps := keeps_nextLine h.le_check
  toInBuffer := ⟨le_rfl, h.le_read, h.le_size⟩
  checkState := hc
  contentLength := rfl
  readIndex := rfl
  string := rfl
  short := hshort
  before := hbefore
  parked _ := rfl

/-- A line that `parse_line` finds in a body, and the pass over it. -/
theorem Goes.nextLine {c d : Parser} (h : Goes c d) {k : ℕ} (hk : d.checkIndex ≤ k)
    (hlt : k + 1 < d.readIndex) (hparked : ¬ c.AtBadByte) :
  Goes c (d.scannedTo k).closeLine.nextLine
  := by
  have hstart := h.le_check
  have hkeeps : Keeps d (d.scannedTo k).closeLine := keeps_closeLine (hstart.trans hk)
  have hshort := h.short
  refine ⟨h.toKeeps.trans (hkeeps.trans (keeps_nextLine (Nat.le_add_right_of_le
    (hstart.trans hk)))), ⟨le_rfl, hlt, h.le_size⟩, h.checkState, h.contentLength, h.readIndex,
    h.string, ?_, fun i hi hcr => ?_, fun hbyte => absurd hbyte hparked⟩
  · change (d.readIndex : ℤ) < (k + 2 : ℕ) + d.contentLength
    omega
  · obtain rfl : i = k + 1 := Nat.succ.inj hi
    have hnul : (d.scannedTo k).closeLine.nextLine.readBuf (k + 1) = 0 := Function.update_self ..
    cases hnul.symm.trans hcr

/-- Where `parse_line` finds no line in a body, it leaves what it found, and waits. -/
theorem Goes.scannedTo {c d : Parser} (h : Goes c d) {k : ℕ} (hk : d.checkIndex ≤ k)
    (hread : k ≤ d.readIndex)
    (hplain : ∀ i, d.checkIndex ≤ i → i < k → isPlain (d.readBuf i) = true)
    (hparked : c.AtBadByte → k = d.checkIndex) :
  Goes c (d.scannedTo k)
  := by
  refine ⟨h.toKeeps.trans (keeps_scannedTo d k), ⟨h.le_check.trans hk, hread, h.le_size⟩,
    h.checkState, h.contentLength, h.readIndex, h.string, h.short, fun i hi hcr => ?_,
    fun hbyte => ?_⟩
  · change i + 1 = k at hi
    rcases Nat.eq_or_lt_of_le hk with rfl | hlt
    · apply h.before i hi hcr
    · have hplain' := hplain i (by omega) (by omega)
      rw [show d.readBuf i = 13 from hcr] at hplain'
      cases hplain'
  · rw [hparked hbyte]
    apply h.parked hbyte

/-- A round of the loop behind a pass over a body that is not complete. -/
theorem Goes.readLine {c d : Parser} (h : Goes c d) {status : LineStatus}
    (hstatus : status ≠ .lineOk) :
  (∃ d', readLine (d, status) = .inl (d', .lineOpen) ∧ Goes c d') ∨
    (∃ f, readLine (d, status) = .inr (.error f)) ∨
    ∃ d', readLine (d, status) = .inr (.ok (.returned .noRequest, d')) ∧ Goes c d' ∧ Rests d'
  := by
  have hcondition : ¬ (d.checkState = .content ∧ status = .lineOk) := fun h => hstatus h.2
  have hbad (hbyte : c.AtBadByte) : ∃ status, status ≠ .lineOk ∧ d.parseLine = .ok (status, d) := by
    have hd := h.parked hbyte
    have hbyte' : d.AtBadByte := by
      rw [hd]
      apply hbyte
    apply hbyte'.rests h.le_size h.before
  obtain ⟨k, hk, hread, hplain, ⟨status', hne, hl⟩ | ⟨hlt, hcr, hlf, hl⟩⟩ :=
    parseLine_cases h.le_read h.le_size h.before
  · right; right
    refine ⟨_, readLine_wait hcondition hl hne, h.scannedTo hk hread hplain fun hbyte => ?_,
      status', hne, ?_⟩
    · obtain ⟨status₁, -, hl₁⟩ := hbad hbyte
      have hsame := (Prod.mk.inj (Except.ok.inj (hl.symm.trans hl₁))).2
      apply congrArg checkIndex hsame
    · have hstop := parseLine_receive_stop [] hne hl
      rw [receive_nil, receive_nil] at hstop
      apply hstop.symm.trans hl
  · have hparked : ¬ c.AtBadByte := fun hbyte => by
      obtain ⟨status₁, hne, hl₁⟩ := hbad hbyte
      apply hne (Prod.mk.inj (Except.ok.inj (hl₁.symm.trans hl))).1
    have hgoes := h.nextLine hk hlt hparked
    have hshort : (d.readIndex : ℤ) < (k + 2 : ℕ) + d.contentLength := hgoes.short
    have hc : (d.scannedTo k).closeLine.checkState = .content := h.checkState
    rw [readLine_line hcondition hl]
    rcases readPass_content_cases hc with ⟨-, hp⟩ | ⟨-, hp⟩ | ⟨hle, -⟩ | ⟨hle, -⟩
    · rw [hp]
      exact .inr (.inl ⟨_, rfl⟩)
    · rw [hp]
      exact .inl ⟨_, rfl, hgoes⟩
    · apply absurd hle (not_le.mpr hshort)
    · apply absurd hle (not_le.mpr hshort)

theorem Goes.rounds {c d : Parser} (h : Goes c d) {status : LineStatus}
    (hstatus : status ≠ .lineOk) :
  (∃ f, Loop.whileLoop readLine_decreases (d, status) = .error f) ∨
    ∃ d', Loop.whileLoop readLine_decreases (d, status) = .ok (.returned .noRequest, d') ∧
      Goes c d' ∧ Rests d'
  := by
  refine Loop.whileLoop_invariant readLine_decreases
    (I := fun s => Goes c s.1 ∧ s.2 ≠ .lineOk)
    (P := fun _ r => (∃ f, r = .error f) ∨
      ∃ d', r = .ok (.returned .noRequest, d') ∧ Goes c d' ∧ Rests d') ?_ ?_ ?_ ⟨h, hstatus⟩
  · rintro ⟨d, status⟩ s ⟨h, hstatus⟩ hs
    rcases h.readLine hstatus with ⟨d', hd', h'⟩ | ⟨f, hf⟩ | ⟨d', hd', -⟩
    · cases hd'.symm.trans hs
      exact ⟨h', by rintro ⟨⟩⟩
    · cases hf.symm.trans hs
    · cases hd'.symm.trans hs
  · intro s s' r _ _ hr
    apply hr
  · rintro ⟨d, status⟩ r ⟨h, hstatus⟩ hs
    rcases h.readLine hstatus with ⟨d', hd', h'⟩ | ⟨f, hf⟩ | ⟨d', hd', h'⟩
    · cases hd'.symm.trans hs
    · cases hf.symm.trans hs
      exact .inl ⟨f, rfl⟩
    · cases hd'.symm.trans hs
      exact .inr ⟨d', rfl, h'⟩

/-- The parser whose body is complete. -/
def bodyTaken (c : Parser) : Parser :=
  { c.nextLine.put (c.startLine + c.contentLength).toNat 0 with string := some c.startLine }

/-- A call at a body that is complete, and ends in the buffer, hands the request over. -/
theorem processRead_bodyTaken {c : Parser} (h : Reading.InBuffer c) (hc : c.checkState = .content)
    (hle : (c.checkIndex : ℤ) + c.contentLength ≤ c.readIndex)
    (hin : 0 ≤ c.startLine + c.contentLength ∧ c.startLine + c.contentLength < readBuffSize) :
  c.processRead = .ok (.doRequest, c.bodyTaken)
  := by
  have hstart := h.le_check
  have hsize := h.le_size
  have hbuf : readBuffSize = 2048 := rfl
  apply Loop.whileLoop_inr
  rw [readLine_content hc]
  rcases readPass_content_cases hc with ⟨hover, -⟩ | ⟨⟨hshort, -⟩, -⟩ | ⟨-, hout, -⟩ | ⟨-, -, hp⟩
  · omega
  · omega
  · apply absurd hin hout
  · rw [hp]
    rfl

/-- What a call at a body comes to: the body is complete and the request is handed over, the
program loses its defined behaviour, or the body is not complete. -/
theorem processRead_content_cases {c : Parser} (h : Reading.InBuffer c)
    (hc : c.checkState = .content) (hbefore : ∀ i, i + 1 = c.checkIndex → c.readBuf i ≠ 13) :
  (c.processRead = .ok (.doRequest, c.bodyTaken) ∧
      (c.checkIndex : ℤ) + c.contentLength ≤ c.readIndex ∧ 0 ≤ c.startLine + c.contentLength) ∨
    (∃ f, c.processRead = .error f) ∨
    ∃ d, c.processRead = .ok (.returned .noRequest, d) ∧ Goes c d ∧ Rests d
  := by
  have hfirst {r : Except Fault (ReadExit × Parser)} (hp : afterPass c.readPass = .inr r) :
      c.processRead = r := by
    apply Loop.whileLoop_inr
    rw [readLine_content hc, hp]
  rcases readPass_content_cases hc
    with ⟨-, hp⟩ | ⟨⟨hshort, -⟩, hp⟩ | ⟨-, -, hp⟩ | ⟨hle, ⟨hin, -⟩, hp⟩
  · exact .inr (.inl ⟨_, hfirst (by rw [hp]; rfl)⟩)
  · right
    have hgoes := goes_nextLine h hc hbefore hshort
    have hround : Parser.readLine (c, .lineOk) = .inl (c.nextLine, .lineOpen) := by
      rw [readLine_content hc, hp]
      rfl
    rw [processRead, Loop.whileLoop_inl _ hround]
    apply hgoes.rounds (by decide)
  · exact .inr (.inl ⟨_, hfirst (by rw [hp]; rfl)⟩)
  · exact .inl ⟨hfirst (by rw [hp]; rfl), hle, hin⟩

end Parser

end WebServer
