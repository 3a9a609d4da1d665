import WebServer.Http.Handed
import WebServer.Http.WebRoot

/-!
# The file that a plain URL names

A URL that is not that of a page and does not come with credentials names the file itself:
`do_request` appends it to `doc_root`.  The copy is bounded by what is left of `m_real_file`,
while a URL may fill the read buffer, so the file is the one that the URL names exactly when
the URL fits (`wholeUrl_iff`).
-/

open CString Fallible WebServer.Parser

namespace WebServer

namespace Reading

/-! ### The flag of a `POST` -/

/-- Behind the request line `cgi` is set for a `POST` and for nothing else. -/
structure Flagged (s : Reading) : Prop where
  unset : s.parser.checkState = .requestLine → (∀ e, s.place ≠ .left e) → s.parser.cgi = 0
  set : s.parser.checkState ≠ .requestLine →
    s.parser.cgi = if s.parser.method = .post then 1 else 0

theorem start_flagged :
  start.Flagged
  where
  unset := fun _ _ => rfl
  set := fun h => absurd rfl h

/-- The same parser somewhere else. -/
theorem Flagged.moved {c : Parser} {place place' : Place} (h : Flagged ⟨c, place⟩)
    (hplace : ∀ e, place ≠ .left e) :
  Flagged ⟨c, place'⟩
  := ⟨fun hc _ => h.unset hc hplace, h.set⟩

theorem Flagged.of_parseLine {c c' : Parser} {status status' : LineStatus} {place : Place}
    (h : Flagged ⟨c, .condition status⟩) (hc : InBuffer c) (hl : c.parseLine = .ok (status', c')) :
  Flagged ⟨c', place⟩
  := by
  have hframe := (parseLine_scanned hc.le_size hl).frame
  rw [hframe]
  exact ⟨fun hc _ => h.unset hc (by rintro e ⟨⟩), h.set⟩

/-- A pass over the request line sets `cgi`. -/
theorem Flagged.readPass_requestLine {c c' : Parser} {pass : Pass} {place : Place}
    (h : Flagged ⟨c, .body⟩) (hends : LineEnds c) (hc : c.checkState = .requestLine)
    (hp : c.readPass = .ok (pass, c'))
    (hplace : pass = .exit (.returned .badRequest) → ∃ e, place = .left e) :
  Flagged ⟨c', place⟩
  := by
  have hzero : c.cgi = 0 := h.unset hc (by rintro e ⟨⟩)
  constructor
  · intro hc' hnot
    rcases hends.readPass_requestLine hc with hfault | ⟨d, -, ⟨hd, -⟩ | ⟨hd, hheader, -⟩⟩
    · cases hfault.symm.trans hp
    · cases hd.symm.trans hp
      obtain ⟨e, he⟩ := hplace rfl
      apply absurd he (hnot e)
    · cases hd.symm.trans hp
      cases hheader.symm.trans hc'
  · intro hc'
    have hcgi := (hends.readPass_place hc hp hc').1
    rw [hzero] at hcgi
    exact hcgi

theorem Flagged.readPass {c c' : Parser} {pass : Pass} {place : Place} (h : Flagged ⟨c, .body⟩)
    (hinv : Inv ⟨c, .body⟩) (hp : c.readPass = .ok (pass, c'))
    (hplace : pass = .exit (.returned .badRequest) → ∃ e, place = .left e) :
  Flagged ⟨c', place⟩
  := by
  by_cases hc : c.checkState = .requestLine
  · apply h.readPass_requestLine _ hc hp hplace
    apply hinv.inLine
    rw [hc]
    decide
  · obtain ⟨hleft, hmethod, hcgi⟩ := readPass_method hc hp
    refine ⟨fun hc' => absurd hc' hleft, fun _ => ?_⟩
    rw [hmethod, hcgi]
    apply h.set hc

theorem Flagged.step {s s' : Reading} {e : ReadingEvent} (h : s.Flagged) (hinv : s.Inv)
    (hs : step s e = some s') :
  s'.Flagged
  := by
  cases steps_of_step hs with
  | receive hsize => exact ⟨h.unset, h.set⟩
  | call => exact h.moved (by rintro e ⟨⟩)
  | content hc => exact h.moved (by rintro e ⟨⟩)
  | line hl => exact h.of_parseLine hinv.inBuffer hl
  | wait hstatus hl => exact h.of_parseLine hinv.inBuffer hl
  | lineFault hl => exact h.moved (by rintro e ⟨⟩)
  | again hp => exact h.readPass hinv hp (by rintro ⟨⟩)
  | exit hp =>
      apply h.readPass hinv hp
      rintro ⟨⟩
      exact ⟨_, rfl⟩
  | bodyFault hp => exact h.moved (by rintro e ⟨⟩)
  | init => exact start_flagged

/-- Whatever was received, `cgi` is the flag of a `POST` in a request that is handed to
`do_request`. -/
theorem exec_flagged {es : List ReadingEvent} {s : Reading} (h : Run.exec step start es = some s)
    (hleft : s.place = .left .doRequest) :
  s.parser.cgi = if s.parser.method = .post then 1 else 0
  := by
  obtain ⟨hinv, hflagged⟩ := Run.exec_preserves (I := fun s => s.Inv ∧ s.Flagged)
    (fun _ _ _ hs hstep => ⟨hs.1.step hstep, hs.2.step hs.1 hstep⟩) ⟨start_inv, start_flagged⟩ h
  apply hflagged.set (hinv.accepted hleft)

end Reading

/-! ### Plain URLs -/

/-- The last segment of the URL at `u` does not begin with the digit of a page, nor for a
`POST` with that of a login or a registration. -/
def Parser.Plain (c : Parser) (u : ℕ) : Prop :=
  ∀ p, strrchr c.readBuf readBuffSize u 47 = some p →
    c.readBuf (p + 1) ∉ ascii "01567" ∧ (c.method = .post → c.readBuf (p + 1) ∉ ascii "23")

namespace HttpTask

theorem digitPage_eq_none {b : UInt8} (h : b ∉ ascii "01567") :
  digitPage b = none
  := by
  change b ∉ [48, 49, 53, 54, 55] at h
  simp only [List.mem_cons, List.not_mem_nil, or_false, not_or] at h
  obtain ⟨h₀, h₁, h₅, h₆, h₇⟩ := h
  rw [digitPage, if_neg h₀, if_neg h₁, if_neg h₅, if_neg h₆, if_neg h₇]

theorem hasCredentials_eq_false {c : HttpTask} {p : ℕ}
    (hcgi : c.cgi = if c.method = .post then 1 else 0)
    (h : c.method = .post → c.readBuf (p + 1) ∉ ascii "23") :
  c.hasCredentials p = false
  := by
  rw [hasCredentials, hcgi]
  split
  · next hpost =>
    have hdigit : c.readBuf (p + 1) ∉ [50, 51] := h hpost
    simp only [List.mem_cons, List.not_mem_nil, or_false, not_or] at hdigit
    rw [beq_eq_false_iff_ne.mpr hdigit.1, beq_eq_false_iff_ne.mpr hdigit.2]
    rfl
  · rfl

/-- A plain URL is appended to `doc_root`, as much of it as there is room for. -/
theorem makePath_plain {c d : HttpTask} {query : List UInt8 → ℤ} {u : ℕ}
    (hfresh : c.realFile = fun _ => 0) (hcgi : c.cgi = if c.method = .post then 1 else 0)
    (hu : c.url = some u) (hplain : c.Plain u) (h : c.makePath query = .ok d) :
  d.path = docRoot ++ (c.text u).take (realFileSize - docRoot.length - 1)
  := by
  obtain ⟨u', p, hu', hp, hd⟩ := makePath_eq_ok h
  obtain rfl := Option.some.inj (hu.symm.trans hu')
  obtain ⟨hdigit, hpost⟩ := hplain p hp
  rcases hd with ⟨hcredentials, -⟩ | ⟨-, rfl⟩
  · cases (hasCredentials_eq_false hcgi hpost).symm.trans hcredentials
  · apply (rooted_rooted hfresh).route_url (digitPage_eq_none hdigit)

/-- A request for a plain URL that is served with a file is served with the one that the
whole URL names exactly when the URL fits behind `doc_root`. -/
theorem wholeUrl_iff (c : HttpTask) {es : List ReadingEvent} {s : Reading}
    (h : Run.exec Reading.step Reading.start es = some s) (hleft : s.place = .left .doRequest)
    {u : ℕ} (hu : s.parser.url = some u) (hplain : s.parser.Plain u)
    {query : List UInt8 → ℤ} {stat : List UInt8 → Answer} {d : HttpTask}
    (hd : (c.handed s.parser).doRequest query stat = .ok (.fileRequest, d)) :
  d.path = docRoot ++ s.parser.text u ↔
    (s.parser.text u).length ≤ realFileSize - docRoot.length - 1
  := by
  obtain ⟨d', hd', hrest⟩ := bind_eq_ok.mp hd
  obtain rfl := (Prod.mk.inj (Except.ok.inj hrest)).2
  have hpath : d'.path = docRoot ++ (s.parser.text u).take (realFileSize - docRoot.length - 1) :=
    makePath_plain rfl (Reading.exec_flagged h hleft) hu hplain hd'
  change d'.path = _ ↔ _
  rw [hpath, List.append_cancel_left_eq, List.take_eq_self_iff]

/-- A request for a URL that is served with a file: where the parser leaves it and `m_url`,
the URL and the byte behind its last slash, and the string in `m_real_file`. -/
def served (url : String) (stat : List UInt8 → Answer) :
    Option ((Reading.Place × Option ℕ) × (List UInt8 × Option UInt8) × Option (List UInt8)) :=
  (Run.exec Reading.step Reading.start (getting url)).map fun s =>
    ((s.place, s.parser.url),
      (s.parser.text 4, (strrchr s.parser.readBuf readBuffSize 4 47).map
        fun p => s.parser.readBuf (p + 1)),
      ((idle.handed s.parser).doRequest (fun _ => 0) stat).toOption.bind fun r =>
        if r.1 = .fileRequest then some r.2.path else none)

theorem exists_of_served {url : String} {stat : List UInt8 → Answer} {b : UInt8}
    {path : List UInt8}
    (h : served url stat = some ((.left .doRequest, some 4), (ascii url, some b), some path))
    (hb : b ∉ ascii "01567" ∧ b ∉ ascii "23") :
  ∃ (s : Reading) (d : HttpTask),
    Run.exec Reading.step Reading.start (getting url) = some s ∧ s.place = .left .doRequest ∧
    s.parser.url = some 4 ∧ s.parser.text 4 = ascii url ∧ s.parser.Plain 4 ∧
    (idle.handed s.parser).doRequest (fun _ => 0) stat = .ok (.fileRequest, d) ∧ d.path = path
  := by
  obtain ⟨s, hs, hr⟩ := Option.map_eq_some_iff.mp h
  obtain ⟨hparser, hr⟩ := Prod.mk.inj hr
  obtain ⟨hplace, hu⟩ := Prod.mk.inj hparser
  obtain ⟨htext, hpath⟩ := Prod.mk.inj hr
  obtain ⟨htext, hbyte⟩ := Prod.mk.inj htext
  obtain ⟨⟨ret, d⟩, hd, hpath⟩ := Option.bind_eq_some_iff.mp hpath
  obtain ⟨rfl, hpath⟩ := Option.ite_none_right_eq_some.mp hpath
  refine ⟨s, d, hs, hplace, hu, htext, ?_, ?_, Option.some.inj hpath⟩
  · intro p hp
    rw [hp] at hbyte
    obtain rfl := Option.some.inj hbyte
    exact ⟨hb.1, fun _ => hb.2⟩
  · cases hdo : (idle.handed s.parser).doRequest (fun _ => 0) stat with
    | error f =>
        rw [hdo] at hd
        cases hd
    | ok r =>
        rw [hdo] at hd
        cases hd
        rfl

set_option maxRecDepth 10000 in
theorem wholeUrl_iff_judge :
  ∃ (s : Reading) (d : HttpTask),
    Run.exec Reading.step Reading.start (getting "/judge.html") = some s ∧
    (idle.handed s.parser).doRequest (fun _ => 0) filesOnly = .ok (.fileRequest, d) ∧
    d.path = docRoot ++ s.parser.text 4
  := by
  have hserved : served "/judge.html" filesOnly
      = some ((.left .doRequest, some 4), (ascii "/judge.html", some 106),
        some (docRoot ++ ascii "/judge.html")) := by
    decide +kernel
  obtain ⟨s, d, hs, hleft, hu, htext, hplain, hd, -⟩ := exists_of_served hserved (by decide)
  refine ⟨s, d, hs, hd, (wholeUrl_iff idle hs hleft hu hplain hd).mpr ?_⟩
  rw [htext]
  decide

/-- A URL of 172 bytes, with 80 dot segments. -/
def dotted : String :=
  "/././././././././././././././././././././././././././././././././././././././././" ++
    "././././././././././././././././././././././././././././././././././././././././judge.htmlx"

/-- A file system with a single file, whose name is a byte shorter. -/
def judgeOnly (path : List UInt8) : Answer :=
  if path = docRoot ++ (ascii dotted).take 171 then .file 5 fun _ => 0 else .missing

set_option maxRecDepth 10000 in
/-- A URL with dot segments that is too long is served with the file of a shorter one. -/
theorem not_wholeUrl :
  ¬ ∀ (c : HttpTask) (es : List ReadingEvent) (s : Reading) (u : ℕ)
    (query : List UInt8 → ℤ) (stat : List UInt8 → Answer) (d : HttpTask),
    Run.exec Reading.step Reading.start es = some s → s.place = .left .doRequest →
      s.parser.url = some u → s.parser.Plain u →
      (c.handed s.parser).doRequest query stat = .ok (.fileRequest, d) →
      d.path = docRoot ++ s.parser.text u
  := by
  intro h
  have hserved : served dotted judgeOnly
      = some ((.left .doRequest, some 4), (ascii dotted, some 106),
        some (docRoot ++ (ascii dotted).take 171)) := by
    decide +kernel
  obtain ⟨s, d, hs, hleft, hu, htext, hplain, hd, hpath⟩ := exists_of_served hserved (by decide)
  have hwhole := h idle _ s 4 _ _ d hs hleft hu hplain hd
  rw [hpath, htext, List.append_cancel_left_eq, List.take_eq_self_iff] at hwhole
  apply absurd hwhole (by decide +kernel)

end HttpTask

end WebServer
