import WebServer.Http.Form
import WebServer.Http.WebRoot

/-!
# The answer to credentials

A login or a registration sends a body `user=N&password=P`, and `do_request` copies the URL,
the name, the password and the statement for the database into arrays whose sizes it does not
look at.  The copies fit exactly when the URL, the name, the password, and for a registration
the name and the password together are short enough (`copiesFit_iff`).  Then the name and the
password that come out are those that were sent, and `m_real_file` is the page that answers
them (`doRequest_credentials`).
-/

open CString Fallible WebServer.Parser

namespace WebServer

namespace Parser

/-- The body of a request, as long as it was declared. -/
def body (c : Parser) : Option (List UInt8) :=
  c.string.map fun q => (List.range c.contentLength.toNat).map fun i => c.readBuf (q + i)

theorem body_eq_some {c : Parser} {l : List UInt8} (h : c.body = some l) :
  ∃ q, c.string = some q ∧ c.contentLength.toNat = l.length ∧ Spells c.readBuf q l
  := by
  obtain ⟨q, hq, rfl⟩ := Option.map_eq_some_iff.mp h
  refine ⟨q, hq, ?_, ?_⟩
  · rw [List.length_map, List.length_range]
  · apply spells_of_getElem
    intro i hi
    rw [List.getElem_map, List.getElem_range]

end Parser

namespace HttpTask

/-! ### Forms -/

/-- The body `user=N&password=P`. -/
def formBody (name password : List UInt8) : List UInt8 :=
  ascii "user=" ++ name ++ ascii "&password=" ++ password

theorem length_formBody (name password : List UInt8) :
  (formBody name password).length = name.length + password.length + 15
  := by
  have huser : (ascii "user=").length = 5 := by decide
  have hpassword : (ascii "&password=").length = 10 := by decide
  rw [formBody, List.length_append, List.length_append, List.length_append, huser, hpassword]
  omega

/-- What follows `user=`. -/
theorem drop_formBody (name password : List UInt8) :
  (formBody name password).drop 5 = name ++ 38 :: (ascii "password=" ++ password)
  := by
  rw [formBody, List.append_assoc, List.append_assoc]
  rfl

/-- A name ends at the `&` behind it, or before. -/
theorem length_upTo_append (stop : UInt8) (w l : List UInt8) :
  (upTo stop (w ++ stop :: l)).length ≤ w.length
  := by
  by_cases hw : stop ∈ w
  · obtain ⟨v, w', rfl, hv⟩ := List.eq_append_cons_of_mem hw
    rw [List.append_assoc, List.cons_append, upTo_append hv, List.length_append]
    apply Nat.le_add_right
  · rw [upTo_append hw]

theorem length_nameOf_formBody (name password : List UInt8) :
  (nameOf (formBody name password)).length ≤ name.length
  := by
  rw [nameOf, drop_formBody]
  apply length_upTo_append

theorem nameOf_formBody {name : List UInt8} (h : 38 ∉ name) (password : List UInt8) :
  nameOf (formBody name password) = name
  := by
  rw [nameOf, drop_formBody, upTo_append h]

theorem passwordOf_formBody {name password : List UInt8} (hname : 38 ∉ name)
    (hpassword : 0 ∉ password) :
  passwordOf (formBody name password) = password
  := by
  have hdrop : (formBody name password).drop (5 + name.length + 10) = password := by
    rw [Nat.add_assoc, ← List.drop_drop, drop_formBody, ← List.drop_drop, List.drop_left]
    rfl
  rw [passwordOf, nameOf_formBody hname, hdrop, upTo_eq_self hpassword]

theorem length_sqlInsert (name password : List UInt8) :
  (sqlInsert name password).length = name.length + password.length + 47
  := by
  have hinsert : (ascii "INSERT INTO webdb(name,password) VALUES(").length = 40 := by decide
  have hquote : (ascii "'").length = 1 := by decide
  have hcomma : (ascii "', '").length = 4 := by decide
  have hend : (ascii "')").length = 2 := by decide
  rw [sqlInsert]
  simp only [List.length_append, hinsert, hquote, hcomma, hend]
  omega

/-! ### The copies of a login and a registration -/

/-- The page fits where the URL was. -/
theorem setUrl_of_le {c : HttpTask} {u : ℕ} {page : String} (hmem : page ∈ pages)
    (hroom : u + 20 ≤ readBuffSize) :
  ∃ d, c.setUrl u page = .ok d
  := by
  have hlen : ∀ page ∈ pages, (ascii page ++ [0]).length ≤ 20 := by decide
  have hfits : u + (ascii page ++ [0]).length ≤ readBuffSize :=
    (Nat.add_le_add_left (hlen page hmem) u).trans hroom
  rw [setUrl, Parser.storeAll_of_le _ hfits]
  exact ⟨_, rfl⟩

/-- `body` is what `m_string` points to, a NUL behind it, and the URL at `u` is not too near
to it. -/
structure Sent (c : Parser) (u q : ℕ) (body : List UInt8) : Prop where
  url : u + 11 ≤ q
  string : c.string = some q
  spells : Spells c.readBuf q body
  nul : c.readBuf (q + body.length) = 0
  size : q + body.length < readBuffSize
  rest : 5 + (nameOf body).length + 10 ≤ body.length

/-- The strings that are copied from the URL at `u`, whose last slash is at `p`, and from the
body are shorter than the arrays they are copied to. -/
structure Fits (c : Parser) (u p : ℕ) (body : List UInt8) : Prop where
  url : (c.text u).length ≤ 200
  name : (nameOf body).length ≤ 99
  password : (passwordOf body).length ≤ 99
  statement : c.readBuf (p + 1) = 51 →
    (upTo 0 (nameOf body)).length + (passwordOf body).length ≤ 152

/-- The URL without its first two bytes. -/
theorem length_text_of_hasCredentials {c : HttpTask} {u p e : ℕ} (hue : u ≤ e)
    (he : e < readBuffSize) (hnul : c.readBuf e = 0)
    (hp : strrchr c.readBuf readBuffSize u 47 = some p)
    (hcredentials : c.hasCredentials p = true) :
  (c.text (u + 2)).length + 2 = (c.text u).length
  := by
  have hbefore : u + (c.text u).length ≤ e := stringAt_length hue he hnul
  have hend : c.readBuf (u + (c.text u).length) = 0 :=
    stringAt_end (Nat.lt_of_le_of_lt hbefore he)
  have hup := (strrchr_eq_some hp).1
  have hlt : p < u + (c.text u).length := strrchr_lt hp
  have hne : p + 1 ≠ u + (c.text u).length := by
    intro heq
    rw [hasCredentials, heq, hend] at hcredentials
    simp at hcredentials
  have hdrop : c.text (u + 2) = (c.text u).drop 2 := stringAt_drop (by
    change 2 ≤ (c.text u).length
    omega)
  rw [hdrop, List.length_drop]
  omega

theorem Sent.length_text {c : HttpTask} {u q p : ℕ} {body : List UInt8}
    (h : Sent c.toParser u q body) (hp : strrchr c.readBuf readBuffSize u 47 = some p)
    (hcredentials : c.hasCredentials p = true) :
  (c.text (u + 2)).length + 2 = (c.text u).length
  := by
  have hurl := h.url
  exact length_text_of_hasCredentials (by omega) h.size h.nul hp hcredentials

/-- The name and the password are extracted when they fit. -/
theorem Sent.form_eq {c : HttpTask} {u q : ℕ} {body : List UInt8} (h : Sent c.toParser u q body) :
  c.form = if (nameOf body).length < 100 ∧ (passwordOf body).length < 100 then
      .ok (upTo 0 (nameOf body), passwordOf body)
    else .error .outOfBounds
  := HttpTask.form_eq h.string h.spells h.nul h.size h.rest

/-- Credentials that fit are answered. -/
theorem Sent.credentials_of_fits {c : HttpTask} {u q p : ℕ} {body : List UInt8}
    (h : Sent c.toParser u q body) (hp : strrchr c.readBuf readBuffSize u 47 = some p)
    (hcredentials : c.hasCredentials p = true) (hfits : Fits c.toParser u p body)
    (query : List UInt8 → ℤ) :
  ∃ d, c.credentials query u p = .ok d
  := by
  have hurl := h.url
  have hsize := h.size
  have hrest := h.rest
  have htext := h.length_text hp hcredentials
  have hreal : ¬ 200 < (ascii "/" ++ c.text (u + 2)).length + 1 := by
    have hslash : (ascii "/").length = 1 := by decide
    have hle := hfits.url
    rw [List.length_append, hslash]
    omega
  have hform := h.form_eq
  rw [if_pos ⟨Nat.lt_succ_of_le hfits.name, Nat.lt_succ_of_le hfits.password⟩] at hform
  have hroom : u + 20 ≤ readBuffSize := by omega
  rw [credentials, if_neg hreal]
  dsimp only
  change ∃ d, (c.form >>= _) = Except.ok d
  rw [hform, ok_bind]
  dsimp only
  split
  · next hflag =>
    have hstatement : ¬ 200 < (sqlInsert (upTo 0 (nameOf body)) (passwordOf body)).length + 1 := by
      have hle := hfits.statement hflag
      rw [length_sqlInsert]
      omega
    rw [register]
    dsimp only
    rw [if_neg hstatement]
    apply setUrl_of_le _ hroom
    apply register_mem
  · apply setUrl_of_le _ hroom
    apply login_mem

/-- A copy that does not fit writes past the end of its array. -/
theorem Sent.credentials_of_not_fits {c : HttpTask} {u q p : ℕ} {body : List UInt8}
    (h : Sent c.toParser u q body) (hp : strrchr c.readBuf readBuffSize u 47 = some p)
    (hcredentials : c.hasCredentials p = true) (hfits : ¬ Fits c.toParser u p body)
    (query : List UInt8 → ℤ) :
  c.credentials query u p = .error .outOfBounds
  := by
  have htext := h.length_text hp hcredentials
  have hslash : (ascii "/").length = 1 := by decide
  rw [credentials]
  dsimp only
  by_cases hreal : 200 < (ascii "/" ++ c.text (u + 2)).length + 1
  · rw [if_pos hreal]
  · rw [if_neg hreal]
    change (c.form >>= _) = Except.error Fault.outOfBounds
    rw [h.form_eq]
    split
    · next hshort =>
      rw [ok_bind]
      dsimp only
      have hlong : c.readBuf (p + 1) = 51 ∧
          152 < (upTo 0 (nameOf body)).length + (passwordOf body).length := by
        by_contra hnot
        apply hfits
        rw [List.length_append, hslash] at hreal
        refine ⟨by omega, Nat.le_of_lt_succ hshort.1, Nat.le_of_lt_succ hshort.2, ?_⟩
        intro hflag
        by_contra hlt
        apply hnot ⟨hflag, Nat.not_le.mp hlt⟩
      have hstatement : 200 < (sqlInsert (upTo 0 (nameOf body)) (passwordOf body)).length + 1 := by
        have hlt := hlong.2
        rw [length_sqlInsert]
        omega
      rw [if_pos hlong.1, register]
      dsimp only
      rw [if_pos hstatement]
    · rfl

/-! ### The file name -/

/-- `do_request` up to its call of `stat`, for a request with credentials. -/
theorem makePath_of_hasCredentials {c : HttpTask} {u p : ℕ} (hu : c.url = some u)
    (hp : strrchr c.readBuf readBuffSize u 47 = some p) (hcredentials : c.hasCredentials p = true)
    (query : List UInt8 → ℤ) :
  c.makePath query = c.rooted.credentials query u p >>= fun d => .ok (d.route u p)
  := by
  rw [makePath]
  dsimp only
  rw [hu]
  dsimp only
  rw [hp]
  dsimp only
  change (if c.rooted.hasCredentials p = true then
    c.rooted.credentials query u p >>= fun d => .ok (d.route u p) else _) = _
  apply if_pos hcredentials

/-- Without credentials nothing faults but a null pointer. -/
theorem makePath_of_not_hasCredentials {c : HttpTask}
    (h : ∀ u p, c.url = some u → strrchr c.readBuf readBuffSize u 47 = some p →
      c.hasCredentials p = false)
    (query : List UInt8 → ℤ) :
  c.makePath query ≠ .error .outOfBounds
  := by
  rw [makePath]
  dsimp only
  split
  · rintro ⟨⟩
  · next u hu =>
    split
    · rintro ⟨⟩
    · next p hp =>
      rw [if_neg (Bool.not_eq_true _ ▸ h u p hu hp)]
      rintro ⟨⟩

/-- The file name is not written past its last byte but one. -/
theorem route_realFile (c : HttpTask) (u p : ℕ) {i : ℕ} (hi : realFileSize - 1 ≤ i) :
  (c.route u p).realFile i = c.realFile i
  := by
  rw [route]
  split
  · next page hpage =>
    have hlen := length_pages page (digitPage_mem hpage)
    apply strncpy_of_ge
    omega
  · have hend : docRoot.length + (realFileSize - docRoot.length - 1) = realFileSize - 1 := rfl
    apply strncpy_of_ge
    rw [hend]
    exact hi

theorem rooted_realFile (c : HttpTask) {i : ℕ} (hi : realFileSize - 1 ≤ i) :
  c.rooted.realFile i = c.realFile i
  := by
  have hlen : 0 + (docRoot ++ [0]).length ≤ realFileSize - 1 := by decide
  apply writeAt_of_ge c.realFile (docRoot ++ [0]) (hlen.trans hi)

theorem makePath_realFile {c d : HttpTask} {query : List UInt8 → ℤ}
    (h : c.makePath query = .ok d) {i : ℕ} (hi : realFileSize - 1 ≤ i) :
  d.realFile i = c.realFile i
  := by
  obtain ⟨u, p, -, -, ⟨-, c', hc', rfl⟩ | ⟨-, rfl⟩⟩ := makePath_eq_ok h
  · obtain ⟨name, password, -, hpage⟩ := credentials_showPage hc'
    rw [route_realFile _ _ _ hi, hpage.realFile i (.inr hi), rooted_realFile _ hi]
  · rw [route_realFile _ _ _ hi, rooted_realFile _ hi]

/-- The file name of a request whose credentials do not fit is not made. -/
theorem Sent.makePath_of_not_fits {c : HttpTask} {u q p : ℕ} {body : List UInt8}
    (h : Sent c.toParser u q body) (hu : c.url = some u)
    (hp : strrchr c.readBuf readBuffSize u 47 = some p) (hcredentials : c.hasCredentials p = true)
    (hfits : ¬ Fits c.toParser u p body) (query : List UInt8 → ℤ) :
  c.makePath query = .error .outOfBounds
  := by
  have hfault : c.rooted.credentials query u p = .error .outOfBounds :=
    Sent.credentials_of_not_fits (c := c.rooted) h hp hcredentials hfits query
  rw [makePath_of_hasCredentials hu hp hcredentials, hfault]
  rfl

/-- The file name of a request whose credentials fit is made from the answer to them. -/
theorem Sent.makePath_of_fits {c : HttpTask} {u q p : ℕ} {body : List UInt8}
    (h : Sent c.toParser u q body) (hu : c.url = some u)
    (hp : strrchr c.readBuf readBuffSize u 47 = some p) (hcredentials : c.hasCredentials p = true)
    (hfits : Fits c.toParser u p body) (query : List UInt8 → ℤ) :
  ∃ d, c.rooted.credentials query u p = .ok d ∧ c.makePath query = .ok (d.route u p)
  := by
  obtain ⟨d, hd⟩ : ∃ d, c.rooted.credentials query u p = .ok d :=
    Sent.credentials_of_fits (c := c.rooted) h hp hcredentials hfits query
  refine ⟨d, hd, ?_⟩
  rw [makePath_of_hasCredentials hu hp hcredentials, hd]
  rfl

/-! ### Requests that were received -/

/-- What was received of a request whose body is a form. -/
theorem sent_of_exec {es : List ReadingEvent} {s : Reading}
    (h : Run.exec Reading.step Reading.start es = some s) {u : ℕ} (hu : s.parser.url = some u)
    {name password : List UInt8} (hbody : s.parser.body = some (formBody name password)) :
  ∃ q, Sent s.parser u q (formBody name password)
  := by
  obtain ⟨-, hplaced⟩ := Reading.exec_placed h
  obtain ⟨q, hq, hlen, hspells⟩ := body_eq_some hbody
  have hbodied := (hplaced.string q hq).2
  have hform := length_formBody name password
  have hname := length_nameOf_formBody name password
  have hlength : s.parser.contentLength = (formBody name password).length := by omega
  have hnul := hbodied.nul
  have hsize := hbodied.lt_size
  rw [hlength] at hnul hsize
  rw [← Nat.cast_add, Int.toNat_natCast] at hnul
  use q
  constructor
  · apply hbodied.url u hu
  · exact hq
  · exact hspells
  · exact hnul
  · exact_mod_cast hsize
  · omega

/-- A login is answered with the page of the account. -/
theorem answer_login {c : HttpTask} {p : ℕ} (h : c.readBuf (p + 1) = 50)
    (query : List UInt8 → ℤ) (name password : List UInt8) :
  c.answer query p name password
    = if c.users name = some password then "/welcome.html" else "/logError.html"
  := by
  rw [answer, h, if_neg (by decide), Users.login]

/-- A registration is answered with the page for a new account, when the name is new and the
database takes the statement. -/
theorem answer_register {c : HttpTask} {p : ℕ} (h : c.readBuf (p + 1) = 51)
    (query : List UInt8 → ℤ) (name password : List UInt8) :
  c.answer query p name password
    = if c.users name = none ∧ query (sqlInsert name password) = 0 then "/log.html"
      else "/registerError.html"
  := by
  rw [answer, if_pos h, Users.register]
  by_cases hnew : c.users name = none
  · rw [if_pos hnew, Users.commit]
    by_cases hres : query (sqlInsert name password) = 0
    · rw [if_pos hres, if_pos ⟨hnew, hres⟩]
    · rw [if_neg hres, if_neg (fun h => hres h.2)]
  · rw [if_neg hnew, if_neg (fun h => hnew h.1)]

/-- What `stat` says of the file changes nothing of its name. -/
theorem doRequest_of_makePath {c d : HttpTask} {query : List UInt8 → ℤ}
    (h : c.makePath query = .ok d) (stat : List UInt8 → Answer) :
  ∃ ret d', c.doRequest query stat = .ok (ret, d') ∧ d'.path = d.path
  := by
  rw [doRequest, h]
  exact ⟨_, _, rfl, rfl⟩

/-- The last slash of a URL, and the byte behind it. -/
theorem lastSegment {c : Parser} {u : ℕ} {dir rest : List UInt8} {flag : UInt8}
    (h : c.text u = dir ++ 47 :: flag :: rest) (hflag : flag ≠ 47) (hrest : 47 ∉ rest) :
  strrchr c.readBuf readBuffSize u 47 = some (u + dir.length) ∧
    c.readBuf (u + dir.length + 1) = flag
  := by
  constructor
  · apply strrchr_append h
    rw [List.mem_cons, not_or]
    exact ⟨Ne.symm hflag, hrest⟩
  · have hspells : Spells c.readBuf u (c.text u) := spells_stringAt _ _ _
    rw [h, spells_append] at hspells
    apply hspells.2.2.1

theorem fits_formBody {c : Parser} {u p : ℕ} {name password : List UInt8}
    (hname : 38 ∉ name ∧ 0 ∉ name) (hpassword : 0 ∉ password) (hurl : (c.text u).length ≤ 200)
    (hfits : name.length ≤ 99) (hfits' : password.length ≤ 99)
    (hboth : name.length + password.length ≤ 152) :
  Fits c u p (formBody name password)
  := by
  have hnameOf := nameOf_formBody hname.1 password
  have hpasswordOf := passwordOf_formBody hname.1 hpassword
  constructor
  · exact hurl
  · rw [hnameOf]
    exact hfits
  · rw [hpasswordOf]
    exact hfits'
  · intro _
    rw [hnameOf, hpasswordOf, upTo_eq_self hname.2]
    exact hboth

/-- The name and the password come out as they were sent. -/
theorem Sent.form_formBody {c : HttpTask} {u q : ℕ} {name password : List UInt8}
    (h : Sent c.toParser u q (formBody name password)) (hname : 38 ∉ name ∧ 0 ∉ name)
    (hpassword : 0 ∉ password) (hfits : name.length ≤ 99) (hfits' : password.length ≤ 99) :
  c.form = .ok (name, password)
  := by
  rw [h.form_eq, nameOf_formBody hname.1, passwordOf_formBody hname.1 hpassword,
    upTo_eq_self hname.2, if_pos ⟨Nat.lt_succ_of_le hfits, Nat.lt_succ_of_le hfits'⟩]

/-- The name and the password of a `POST` request with credentials come out as they were
sent, and the file is the page that answers them, wherever the last slash of the URL is. -/
theorem doRequest_credentials (c : HttpTask) {es : List ReadingEvent} {s : Reading}
    (h : Run.exec Reading.step Reading.start es = some s) (hleft : s.place = .left .doRequest)
    (hpost : s.parser.method = .post) {dir rest : List UInt8} {flag : UInt8}
    (hurl : s.parser.urlText = some (dir ++ 47 :: flag :: rest)) (hrest : 47 ∉ rest)
    (hflag : flag = 50 ∨ flag = 51) (hshort : (dir ++ 47 :: flag :: rest).length ≤ 199)
    {name password : List UInt8} (hbody : s.parser.body = some (formBody name password))
    (hname : 38 ∉ name ∧ 0 ∉ name) (hpassword : 0 ∉ password) (hfits : name.length ≤ 99)
    (hfits' : password.length ≤ 99) (hboth : name.length + password.length ≤ 152)
    (query : List UInt8 → ℤ) (stat : List UInt8 → Answer) :
  (c.handed s.parser).form = .ok (name, password) ∧
    ∃ ret d, (c.handed s.parser).doRequest query stat = .ok (ret, d) ∧
      d.path = docRoot ++ ascii
        (if flag = 50 then
          if c.users name = some password then "/welcome.html" else "/logError.html"
        else
          if c.users name = none ∧ query (sqlInsert name password) = 0 then "/log.html"
          else "/registerError.html")
  := by
  obtain ⟨u, hu, htext⟩ := Option.map_eq_some_iff.mp hurl
  obtain ⟨q, hsent⟩ := sent_of_exec h hu hbody
  have hne : flag ≠ 47 := by
    rcases hflag with rfl | rfl
    · decide
    · decide
  obtain ⟨hp, hdigit⟩ := lastSegment htext hne hrest
  have hcredentials := hasCredentials_of_exec c h hleft hpost (hdigit.symm ▸ hflag)
  have hurl : (s.parser.text u).length ≤ 200 := by
    rw [htext]
    omega
  obtain ⟨d, hd, hmake⟩ := Sent.makePath_of_fits (c := c.handed s.parser) hsent hu hp hcredentials
    (fits_formBody hname hpassword hurl hfits hfits' hboth) query
  have hform := Sent.form_formBody (c := c.handed s.parser) hsent hname hpassword hfits hfits'
  have hrooted : (c.handed s.parser).rooted.Rooted := rooted_rooted rfl
  obtain ⟨name', password', hform', hpage⟩ :=
    hrooted.credentials_page (Nat.le_add_right u dir.length) hcredentials hd
  obtain ⟨rfl, rfl⟩ := Prod.mk.inj (Except.ok.inj (hform.symm.trans hform'))
  obtain ⟨ret, d', hd', hpath⟩ := doRequest_of_makePath hmake stat
  refine ⟨hform, ret, d', hd', ?_⟩
  rw [hpath, hpage]
  rcases hflag with rfl | rfl
  · rw [answer_login hdigit, if_pos rfl]
    rfl
  · rw [answer_register hdigit, if_neg (show (51 : UInt8) ≠ 50 by decide)]
    rfl

set_option maxRecDepth 10000 in
theorem doRequest_credentials_login :
  ∃ s, Run.exec Reading.step Reading.start (arriving
      (ascii "POST /x/2 HTTP/1.1\r\nContent-Length:17\r\n\r\nuser=a&password=b") 4) = some s ∧
    (idle.handed s.parser).form = .ok (ascii "a", ascii "b") ∧
    ∃ ret d, (idle.handed s.parser).doRequest (fun _ => 0) filesOnly = .ok (ret, d) ∧
      d.path = docRoot ++ ascii "/logError.html"
  := by
  obtain ⟨s, hs, hleft, hpost, hurl, hbody⟩ := exists_of_arriving
    (ascii "POST /x/2 HTTP/1.1\r\nContent-Length:17\r\n\r\nuser=a&password=b") 4
    (fun s => s.place = .left .doRequest ∧ s.parser.method = .post ∧
      s.parser.urlText = some (ascii "/x" ++ 47 :: 50 :: []) ∧
      s.parser.body = some (formBody (ascii "a") (ascii "b"))) (by decide +kernel)
  exact ⟨s, hs, doRequest_credentials idle hs hleft hpost hurl (by decide) (.inl rfl) (by decide)
    hbody (by decide) (by decide) (by decide) (by decide) (by decide) (fun _ => 0) filesOnly⟩

/-! ### The sizes of the copies -/

/-- No copy of `do_request` ends behind its array: nothing behind `m_real_file` is written, and
a NUL is left in it. -/
structure CopiesFit (c : HttpTask) (query : List UInt8 → ℤ) : Prop where
  inside : c.makePath query ≠ .error .outOfBounds
  realFile : ∀ d, c.makePath query = .ok d →
    (∀ i, realFileSize ≤ i → d.realFile i = c.realFile i) ∧ ∃ i < realFileSize, d.realFile i = 0

/-- If the request is one with credentials, its body is a form. -/
def SendsForm (c : HttpTask) : Prop :=
  ∀ u p, c.url = some u → strrchr c.readBuf readBuffSize u 47 = some p →
    c.hasCredentials p = true → ∃ name password, c.body = some (formBody name password)

/-- If the request is one with credentials, what is copied of it is short enough. -/
def IsShort (c : HttpTask) : Prop :=
  ∀ u p body, c.url = some u → strrchr c.readBuf readBuffSize u 47 = some p →
    c.hasCredentials p = true → c.body = some body → Fits c.toParser u p body

/-- The copies to `m_real_file` always fit. -/
theorem copiesFit_of_inside {c : HttpTask} {query : List UInt8 → ℤ}
    (hfresh : c.realFile = fun _ => 0) (h : c.makePath query ≠ .error .outOfBounds) :
  c.CopiesFit query
  := by
  refine ⟨h, fun d hd => ⟨?_, realFileSize - 1, by decide, ?_⟩⟩
  · intro i hi
    apply makePath_realFile hd ((Nat.sub_le _ _).trans hi)
  · rw [makePath_realFile hd le_rfl, hfresh]

/-- The copies of a request whose body, if it is one with credentials, is a form
`user=N&password=P`, all fit exactly when the URL has at most 200 bytes, the name and the
password at most 99 each, and for a registration both together at most 152. -/
theorem copiesFit_iff (c : HttpTask) {es : List ReadingEvent} {s : Reading}
    (h : Run.exec Reading.step Reading.start es = some s)
    (hform : (c.handed s.parser).SendsForm) (query : List UInt8 → ℤ) :
  (c.handed s.parser).CopiesFit query ↔ (c.handed s.parser).IsShort
  := by
  constructor
  · intro hcopies u p body hu hp hcredentials hbody
    obtain ⟨name, password, hbody'⟩ := hform u p hu hp hcredentials
    obtain rfl := Option.some.inj (hbody'.symm.trans hbody)
    obtain ⟨q, hsent⟩ := sent_of_exec h hu hbody
    by_contra hfits
    apply hcopies.inside
    apply Sent.makePath_of_not_fits (c := c.handed s.parser) hsent hu hp hcredentials hfits query
  · intro hshort
    apply copiesFit_of_inside rfl
    by_cases hnone : ∀ u p, (c.handed s.parser).url = some u →
        strrchr (c.handed s.parser).readBuf readBuffSize u 47 = some p →
        (c.handed s.parser).hasCredentials p = false
    · apply makePath_of_not_hasCredentials hnone
    · push Not at hnone
      obtain ⟨u, p, hu, hp, hcredentials⟩ := hnone
      rw [Bool.ne_false_iff] at hcredentials
      obtain ⟨name, password, hbody⟩ := hform u p hu hp hcredentials
      obtain ⟨q, hsent⟩ := sent_of_exec h hu hbody
      obtain ⟨d, -, hd⟩ := Sent.makePath_of_fits (c := c.handed s.parser) hsent hu hp hcredentials
        (hshort u p _ hu hp hcredentials hbody) query
      rw [hd]
      rintro ⟨⟩

set_option maxRecDepth 10000 in
theorem copiesFit_iff_login :
  ∃ s, Run.exec Reading.step Reading.start (arriving
      (ascii "POST /2 HTTP/1.1\r\nContent-Length:17\r\n\r\nuser=a&password=b") 4) = some s ∧
    ((idle.handed s.parser).CopiesFit (fun _ => 0) ↔ (idle.handed s.parser).IsShort)
  := by
  obtain ⟨s, hs, hbody⟩ := exists_of_arriving
    (ascii "POST /2 HTTP/1.1\r\nContent-Length:17\r\n\r\nuser=a&password=b") 4
    (fun s => s.parser.body = some (formBody (ascii "a") (ascii "b"))) (by decide +kernel)
  have hform : (idle.handed s.parser).SendsForm := fun _ _ _ _ _ => ⟨_, _, hbody⟩
  exact ⟨s, hs, copiesFit_iff idle hs hform (fun _ => 0)⟩

set_option maxRecDepth 10000 in
/-- A login with a name of a hundred bytes. -/
theorem not_copiesFit :
  ¬ ∀ (c : HttpTask) (es : List ReadingEvent) (s : Reading) (query : List UInt8 → ℤ),
    Run.exec Reading.step Reading.start es = some s → s.place = .left .doRequest →
      (c.handed s.parser).SendsForm → (c.handed s.parser).CopiesFit query
  := by
  intro h
  obtain ⟨s, hs, ⟨hleft, hpost, hu, hp, hflag⟩, hbody⟩ := exists_of_arriving
    (ascii "POST /2 HTTP/1.1\r\nContent-Length:116\r\n\r\n" ++
      formBody (List.replicate 100 97) (ascii "b")) 4
    (fun s => Requests 50 s ∧
      s.parser.body = some (formBody (List.replicate 100 97) (ascii "b"))) (by decide +kernel)
  have hcredentials := hasCredentials_of_exec idle hs hleft hpost (.inl hflag)
  have hform : (idle.handed s.parser).SendsForm := fun _ _ _ _ _ => ⟨_, _, hbody⟩
  have hlong : ¬ Fits s.parser 5 5 (formBody (List.replicate 100 97) (ascii "b")) := by
    intro hfits
    apply absurd hfits.name (by decide)
  obtain ⟨q, hsent⟩ := sent_of_exec hs hu hbody
  apply (h idle _ s (fun _ => 0) hs hleft hform).inside
  apply Sent.makePath_of_not_fits (c := idle.handed s.parser) hsent hu hp hcredentials hlong _

end HttpTask

end WebServer
