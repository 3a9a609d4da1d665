import WebServer.Http.DoRequest
import WebServer.Http.Rounds
import WebServer.Lib.LexicalPath

/-!
# The files that requests name

`do_request` makes the name of a file of `doc_root` and what a request asks for: the page
of a digit, the page that answers credentials, or the URL itself.  The pages lie in
`doc_root`.  The URL, which begins with a slash, is appended as it is, so a file that it
names lies in `doc_root` or below it exactly when its segments do not lead out of the
directory (`within_docRoot_iff`).
-/

open CString Fallible LexicalPath

namespace WebServer

namespace HttpTask

/-! ### The string in `m_real_file` -/

theorem within_pages :
  ∀ page ∈ pages, Within docRoot (docRoot ++ ascii page)
  := by
  decide

theorem zero_not_mem_pages :
  ∀ page ∈ pages, 0 ∉ ascii page
  := by
  decide

/-- The pages fit into `m_real_file`. -/
theorem length_pages :
  ∀ page ∈ pages, (ascii page).length < realFileSize - docRoot.length - 1
  := by
  decide

theorem digitPage_mem {b : UInt8} {page : String} (h : digitPage b = some page) :
  page ∈ pages
  := by
  rw [digitPage] at h
  split at h
  · cases h
    decide
  · split at h
    · cases h
      decide
    · split at h
      · cases h
        decide
      · split at h
        · cases h
          decide
        · split at h
          · cases h
            decide
          · cases h

/-- `m_real_file` holds `doc_root`, and NULs behind it. -/
structure Rooted (c : HttpTask) : Prop where
  spells : Spells c.realFile 0 docRoot
  nul : ∀ i, docRoot.length ≤ i → c.realFile i = 0

/-- The file name of a digit. -/
theorem Rooted.route_page {c : HttpTask} (h : c.Rooted) {u p : ℕ} {page : String}
    (hpage : digitPage (c.readBuf (p + 1)) = some page) :
  (c.route u p).path = docRoot ++ ascii page
  := by
  have hmem := digitPage_mem hpage
  have hlen := length_pages page hmem
  have hlimit : docRoot.length + (ascii page).length < realFileSize := by omega
  have hpath := stringAt_strncpy h.spells (by decide) (zero_not_mem_pages page hmem)
    (h.nul _ (Nat.le_add_right _ _)) hlimit
  rw [List.take_length] at hpath
  rw [route, hpage]
  exact hpath

/-- The file name of any other URL. -/
theorem route_url {c : HttpTask} {u p : ℕ} (hdir : Spells c.realFile 0 docRoot)
    (hlast : c.realFile (realFileSize - 1) = 0) (hpage : digitPage (c.readBuf (p + 1)) = none) :
  (c.route u p).path = docRoot ++ (c.text u).take (realFileSize - docRoot.length - 1)
  := by
  have hlimit : docRoot.length + (realFileSize - docRoot.length - 1) < realFileSize := by decide
  have hpath := stringAt_strncpy hdir (by decide) (not_mem_stringAt c.readBuf readBuffSize u)
    hlast hlimit
  rw [route, hpage]
  exact hpath

theorem Rooted.route_url {c : HttpTask} (h : c.Rooted) {u p : ℕ}
    (hpage : digitPage (c.readBuf (p + 1)) = none) :
  (c.route u p).path = docRoot ++ (c.text u).take (realFileSize - docRoot.length - 1)
  := HttpTask.route_url h.spells (h.nul (realFileSize - 1) (by decide)) hpage

/-! ### The answer to credentials -/

theorem storeAll_eq_ok {c c' : Parser} {p : ℕ} {l : List UInt8} {b : UInt8}
    (h : c.storeAll p (l ++ [b]) = .ok c') :
  p + l.length < readBuffSize ∧ c' = { c with readBuf := writeAt c.readBuf p (l ++ [b]) }
  := by
  have hlen : p + l.length < readBuffSize := by
    induction l generalizing c p with
    | nil =>
        obtain ⟨c₁, hs, -⟩ := bind_eq_ok.mp h
        have hp := (Parser.store_eq_ok.mp hs).1.2
        rw [List.length_nil]
        omega
    | cons a l ih =>
        obtain ⟨c₁, -, h⟩ := bind_eq_ok.mp h
        have hlen := ih h
        rw [List.length_cons]
        omega
  have hroom : p + (l ++ [b]).length ≤ readBuffSize := by
    rw [List.length_append, List.length_singleton]
    omega
  rw [Parser.storeAll_of_le _ hroom, Parser.putAll_eq] at h
  exact ⟨hlen, (Except.ok.inj h).symm⟩

/-- The URL is the page `page`, and the rest of `m_real_file` is left. -/
structure ShowsPage (c d : HttpTask) (u : ℕ) (page : String) : Prop where
  mem : page ∈ pages
  room : u + (ascii page).length < readBuffSize
  url : d.readBuf = writeAt c.readBuf u (ascii page ++ [0])
  realFile : ∀ i, i < docRoot.length ∨ realFileSize - 1 ≤ i → d.realFile i = c.realFile i

theorem setUrl_showsPage {c d : HttpTask} {u : ℕ} {page : String} (hmem : page ∈ pages)
    (h : c.setUrl u page = .ok d) :
  ShowsPage c d u page
  := by
  obtain ⟨p, hp, h⟩ := bind_eq_ok.mp h
  obtain ⟨hroom, rfl⟩ := storeAll_eq_ok hp
  cases h
  exact ⟨hmem, hroom, rfl, fun _ _ => rfl⟩

/-- Credentials are answered with a page. -/
theorem credentials_showPage {c d : HttpTask} {query : List UInt8 → ℤ} {u p : ℕ}
    (h : c.credentials query u p = .ok d) :
  ∃ name password, c.form = .ok (name, password) ∧
    ShowsPage c d u (c.answer query p name password)
  := by
  obtain ⟨name, password, users, queries, hform, hd⟩ := credentials_eq_ok h
  have hshows := setUrl_showsPage (answer_mem c query p name password) hd
  refine ⟨name, password, hform, hshows.mem, hshows.room, hshows.url, ?_⟩
  intro i hi
  refine (hshows.realFile i hi).trans ?_
  rcases hi with hi | hi
  · apply strncpy_of_lt hi
  · have hend : docRoot.length + (realFileSize - docRoot.length - 1) = realFileSize - 1 := rfl
    exact strncpy_of_ge (hend ▸ hi)

/-- No byte of a page is the digit of another one. -/
theorem digitPage_pages :
  ∀ page ∈ pages, (ascii page ++ [0]).all (fun b => (digitPage b).isNone) = true
  := by
  decide

/-- Behind the answer to credentials, no byte where their digit was is that of a page. -/
theorem ShowsPage.digitPage_eq {c d : HttpTask} {u p : ℕ} {page : String}
    (h : ShowsPage c d u page) (hp : u ≤ p) (hdigit : digitPage (c.readBuf (p + 1)) = none) :
  digitPage (d.readBuf (p + 1)) = none
  := by
  rw [h.url]
  rcases Nat.lt_or_ge (p + 1) (u + (ascii page ++ [0]).length) with hlt | hge
  · obtain ⟨i, hi⟩ := Nat.exists_eq_add_of_le (Nat.le_add_right_of_le hp : u ≤ p + 1)
    rw [hi] at hlt ⊢
    rw [writeAt_add _ _ (Nat.lt_of_add_lt_add_left hlt)]
    have hall := List.all_eq_true.mp (digitPage_pages page h.mem)
    apply Option.isNone_iff_eq_none.mp (hall _ (List.getElem_mem _))
  · rw [writeAt_of_ge _ _ hge, hdigit]

theorem ShowsPage.text_eq {c d : HttpTask} {u : ℕ} {page : String} (h : ShowsPage c d u page) :
  d.text u = ascii page
  := by
  have hspells := spells_writeAt c.readBuf u (ascii page ++ [0])
  rw [← h.url, spells_append] at hspells
  apply stringAt_spells hspells.1 hspells.2.1 (zero_not_mem_pages page h.mem) h.room

theorem digitPage_of_hasCredentials {c : HttpTask} {p : ℕ} (h : c.hasCredentials p = true) :
  digitPage (c.readBuf (p + 1)) = none
  := by
  rw [hasCredentials, Bool.and_eq_true, Bool.or_eq_true, beq_iff_eq, beq_iff_eq, beq_iff_eq] at h
  rcases h.2 with hb | hb
  · rw [hb]
    rfl
  · rw [hb]
    rfl

/-- The file name of an answer to credentials. -/
theorem Rooted.credentials_page {c d : HttpTask} (h : c.Rooted) {query : List UInt8 → ℤ}
    {u p : ℕ} (hp : u ≤ p) (hcredentials : c.hasCredentials p = true)
    (hd : c.credentials query u p = .ok d) :
  ∃ name password, c.form = .ok (name, password) ∧
    (d.route u p).path = docRoot ++ ascii (c.answer query p name password)
  := by
  obtain ⟨name, password, hform, hpage⟩ := credentials_showPage hd
  have hdigit := hpage.digitPage_eq hp (digitPage_of_hasCredentials hcredentials)
  have hlen := length_pages _ hpage.mem
  refine ⟨name, password, hform, ?_⟩
  rw [HttpTask.route_url _ _ hdigit, hpage.text_eq, List.take_of_length_le (Nat.le_of_lt hlen)]
  · apply h.spells.congr
    intro i _ hi
    apply hpage.realFile i (.inl (by omega))
  · rw [hpage.realFile (realFileSize - 1) (.inr le_rfl)]
    apply h.nul _ (by decide)

/-! ### The files -/

theorem rooted_rooted {c : HttpTask} (h : c.realFile = fun _ => 0) :
  c.rooted.Rooted
  := by
  have hspells := spells_writeAt c.realFile 0 (docRoot ++ [0])
  rw [spells_append] at hspells
  refine ⟨hspells.1, ?_⟩
  intro i hi
  rcases Nat.eq_or_lt_of_le hi with heq | hlt
  · rw [← heq, ← Nat.zero_add docRoot.length]
    apply hspells.2.1
  · have hkept : strcpy c.realFile 0 docRoot i = c.realFile i := by
      apply writeAt_of_ge
      rw [List.length_append, List.length_singleton]
      omega
    apply hkept.trans (congrFun h i)

/-- When the URL names the file, as much of it as is copied does not lead out of
`doc_root`. -/
def StaysBelow (c : HttpTask) : Prop :=
  ∀ u p, c.url = some u → strrchr c.readBuf readBuffSize u 47 = some p →
    c.hasCredentials p = false → digitPage (c.readBuf (p + 1)) = none →
    (relative (segments ((c.text u).take (realFileSize - docRoot.length - 1)))).Returns
      (resolve docRoot)

theorem staysBelow_iff {c : HttpTask} {u p : ℕ} (hu : c.url = some u)
    (hp : strrchr c.readBuf readBuffSize u 47 = some p) :
  c.StaysBelow ↔ (c.hasCredentials p = false → digitPage (c.readBuf (p + 1)) = none →
    (relative (segments ((c.text u).take (realFileSize - docRoot.length - 1)))).Returns
      (resolve docRoot))
  := by
  constructor
  · intro h
    apply h u p hu hp
  · intro h u' p' hu' hp'
    obtain rfl := Option.some.inj (hu.symm.trans hu')
    obtain rfl := Option.some.inj (hp.symm.trans hp')
    exact h

/-- A URL that begins with a slash behind `doc_root`. -/
theorem within_url_iff {rest : List UInt8} (n : ℕ) :
  Within docRoot (docRoot ++ (47 :: rest).take (n + 1)) ↔
    (relative (segments ((47 :: rest).take (n + 1)))).Returns (resolve docRoot)
  := by
  rw [List.take_succ_cons, within_append_iff, segments_slash]

/-- The file that `do_request` names. -/
theorem makePath_within {c d : HttpTask} {query : List UInt8 → ℤ}
    (hfresh : c.realFile = fun _ => 0)
    (hslash : ∀ u, c.url = some u → u < readBuffSize ∧ (c.readBuf u = 47 ∨ c.readBuf u = 0))
    (h : c.makePath query = .ok d) :
  Within docRoot d.path ↔ c.StaysBelow
  := by
  have hrooted := rooted_rooted hfresh
  obtain ⟨u, p, hu, hp, hd⟩ := makePath_eq_ok h
  obtain ⟨hup, htext⟩ := strrchr_eq_some hp
  rw [staysBelow_iff hu hp]
  rcases hd with ⟨hcredentials, c', hc', rfl⟩ | ⟨hcredentials, rfl⟩
  · obtain ⟨name, password, -, hpath⟩ := hrooted.credentials_page hup hcredentials hc'
    rw [hpath]
    refine iff_of_true (within_pages _ (answer_mem _ query p name password)) ?_
    intro hnot
    cases hcredentials.symm.trans hnot
  · cases hdigit : digitPage (c.readBuf (p + 1)) with
    | some page =>
        rw [hrooted.route_page hdigit]
        refine iff_of_true (within_pages page (digitPage_mem hdigit)) ?_
        rintro - ⟨⟩
    | none =>
        obtain ⟨hlt, hbyte⟩ := hslash u hu
        have hurl : c.text u = 47 :: c.text (u + 1) := by
          rcases hbyte with hbyte | hbyte
          · rw [← hbyte]
            apply stringAt_cons hlt (by rw [hbyte]; decide)
          · apply absurd (stringAt_spells (l := []) trivial hbyte (by simp) hlt) htext
        rw [hrooted.route_url hdigit]
        change Within docRoot (docRoot ++ (c.text u).take (170 + 1)) ↔ _
        rw [hurl, within_url_iff]
        exact ⟨fun hreturns _ _ => hreturns, fun hreturns => hreturns hcredentials rfl⟩

/-- A request that is served with a file names one in `doc_root` or below it exactly when
the URL, if it is the URL that names the file, does not lead out of the directory. -/
theorem within_docRoot_iff (c : HttpTask) {es : List ReadingEvent} {s : Reading}
    (h : Run.exec Reading.step Reading.start es = some s) (hleft : s.place = .left .doRequest)
    {query : List UInt8 → ℤ} {stat : List UInt8 → Answer} {d : HttpTask}
    (hd : (c.handed s.parser).doRequest query stat = .ok (.fileRequest, d)) :
  Within docRoot d.path ↔ (c.handed s.parser).StaysBelow
  := by
  have hinv := Run.exec_preserves (fun _ _ _ hs => hs.step) Reading.start_inv h
  obtain ⟨d', hd', hrest⟩ := bind_eq_ok.mp hd
  obtain rfl := (Prod.mk.inj (Except.ok.inj hrest)).2
  apply makePath_within rfl _ hd'
  intro u hu
  obtain ⟨u', hu', hlt, hbyte⟩ := hinv.url (hinv.accepted hleft)
  obtain rfl := Option.some.inj (hu.symm.trans hu')
  exact ⟨Nat.lt_of_lt_of_le hlt hinv.inBuffer.le_size, hbyte⟩

/-- A `GET` request without header lines is received and parsed at once. -/
def getting (url : String) : List ReadingEvent :=
  [.receive (ascii "GET " ++ ascii url ++ ascii " HTTP/1.1\r\n\r\n"),
    .call, .condition, .body, .condition, .body]

/-- What becomes of a `GET` request: where the parser leaves it, and whether it is served
with a file that lies in `doc_root` or below it. -/
def fate (url : String) : Option (Reading.Place × Except Fault (HttpCode × Bool)) :=
  (Run.exec Reading.step Reading.start (getting url)).map fun s =>
    (s.place, ((idle.handed s.parser).doRequest (fun _ => 0) filesOnly).map fun r =>
      (r.1, decide (Within docRoot r.2.path)))

theorem exists_of_fate {url : String} {place : Reading.Place} {ret : HttpCode} {within : Bool}
    (h : fate url = some (place, .ok (ret, within))) :
  ∃ (s : Reading) (d : HttpTask),
    Run.exec Reading.step Reading.start (getting url) = some s ∧ s.place = place ∧
    (idle.handed s.parser).doRequest (fun _ => 0) filesOnly = .ok (ret, d) ∧
    (Within docRoot d.path ↔ within = true)
  := by
  obtain ⟨s, hs, hr⟩ := Option.map_eq_some_iff.mp h
  obtain ⟨hplace, hr⟩ := Prod.mk.inj hr
  cases hd : (idle.handed s.parser).doRequest (fun _ => 0) filesOnly with
  | error f =>
      rw [hd] at hr
      cases hr
  | ok r =>
      rw [hd] at hr
      obtain ⟨hret, hwithin⟩ := Prod.mk.inj (Except.ok.inj hr)
      refine ⟨s, r.2, hs, hplace, ?_, ?_⟩
      · rw [hd, ← hret]
      · rw [← hwithin, decide_eq_true_iff]

set_option maxRecDepth 10000 in
theorem within_docRoot_iff_judge :
  ∃ (s : Reading) (d : HttpTask),
    Run.exec Reading.step Reading.start (getting "/judge.html") = some s ∧
    (Within docRoot d.path ↔ (idle.handed s.parser).StaysBelow)
  := by
  have hfate : fate "/judge.html" = some (.left .doRequest, .ok (.fileRequest, true)) := by
    decide +kernel
  obtain ⟨s, d, hs, hleft, hd, -⟩ := exists_of_fate hfate
  exact ⟨s, d, hs, within_docRoot_iff idle hs hleft hd⟩

set_option maxRecDepth 10000 in
/-- A URL with two dots leads out of `doc_root`. -/
theorem not_within_docRoot :
  ¬ ∀ (c : HttpTask) (es : List ReadingEvent) (s : Reading) (query : List UInt8 → ℤ)
    (stat : List UInt8 → Answer) (d : HttpTask),
    Run.exec Reading.step Reading.start es = some s → s.place = .left .doRequest →
      (c.handed s.parser).doRequest query stat = .ok (.fileRequest, d) → Within docRoot d.path
  := by
  intro h
  have hfate : fate "/../secret" = some (.left .doRequest, .ok (.fileRequest, false)) := by
    decide +kernel
  obtain ⟨s, d, hs, hleft, hd, hwithin⟩ := exists_of_fate hfate
  apply absurd (hwithin.mp (h idle _ s _ _ d hs hleft hd)) (by decide)

end HttpTask

end WebServer
