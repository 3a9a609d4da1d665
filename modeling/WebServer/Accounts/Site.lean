import WebServer.Accounts.Registrations
import WebServer.Accounts.Statement
import WebServer.Accounts.Table
import WebServer.Http.Credentials

/-!
# Accounts outlive the server

The accounts are kept twice, in the map of the server and in the table of the database.  A
restart of the server ends what its workers do, and `initmysql_result` loads the map from the
table again, whose rows come in any order.

Whoever was answered with the page of a login behind a registration can log in at any later
time, with that password and no other, and nobody can register the name again
(`registered_survives`).  This holds over restarts, failing queries and the registrations of
all workers, as long as no worker takes the lock for a name that came into the accounts since
the worker looked it up, and MySQL has nothing to decode in the names and passwords of the
statements.
-/

open CString Fallible

namespace WebServer

universe u

/-! ### Answers to credentials -/

/-- How `do_request` answers a login, and a registration when `mysql_query` returns `res`: the
page and the accounts. -/
def Users.answer (users : Users) (flag : UInt8) (name password : List UInt8) (res : ℤ) :
    String × Users :=
  if flag = 51 then users.register name password res else (users.login name password, users)

namespace HttpTask

/-- What an answer to credentials makes of the accounts. -/
theorem credentials_accounts {c d : HttpTask} {query : List UInt8 → ℤ} {u p : ℕ}
    (h : c.credentials query u p = .ok d) :
  ∃ name password, c.form = .ok (name, password) ∧
    (d.users, d.queries) =
      if c.readBuf (p + 1) = 51 then
        ((c.users.register name password (query (sqlInsert name password))).2,
          if c.users name = none then c.queries ++ [sqlInsert name password] else c.queries)
      else (c.users, c.queries)
  := by
  have hsetUrl {c d : HttpTask} {page : String} (h : c.setUrl u page = .ok d) :
      (d.users, d.queries) = (c.users, c.queries) := by
    obtain ⟨q, -, h⟩ := bind_eq_ok.mp h
    cases h
    rfl
  rw [credentials] at h
  dsimp only at h
  split at h
  · cases h
  · obtain ⟨⟨name, password⟩, hform, h⟩ := bind_eq_ok.mp h
    refine ⟨name, password, hform, ?_⟩
    dsimp only at h
    split at h
    next hflag =>
      rw [if_pos hflag]
      rw [register] at h
      dsimp only at h
      split at h
      · cases h
      · rw [hsetUrl h]
    next hflag =>
      rw [if_neg hflag]
      apply hsetUrl h

theorem route_accounts (c : HttpTask) (u p : ℕ) :
  ((c.route u p).users, (c.route u p).queries) = (c.users, c.queries)
  := by
  rw [route]
  split
  · rfl
  · rfl

/-- What `stat` says of the file changes nothing of its name, nor of the accounts. -/
theorem doRequest_accounts {c d : HttpTask} {query : List UInt8 → ℤ}
    (h : c.makePath query = .ok d) (stat : List UInt8 → Answer) :
  ∃ ret d', c.doRequest query stat = .ok (ret, d') ∧ d'.path = d.path ∧
    (d'.users, d'.queries) = (d.users, d.queries)
  := by
  rw [doRequest, h]
  exact ⟨_, _, rfl, rfl, rfl⟩

/-- A `POST` request with a form for a name and a password is handed to `do_request`, and they
are short enough for its arrays.  The flag behind the last slash of its URL is that of a login
or of a registration. -/
structure Sends (r : Reading) (flag : UInt8) (name password : List UInt8) : Prop where
  left : r.place = .left .doRequest
  post : r.parser.method = .post
  url : ∃ dir rest, r.parser.urlText = some (dir ++ 47 :: flag :: rest) ∧ 47 ∉ rest ∧
    (dir ++ 47 :: flag :: rest).length ≤ 199
  flag : flag = 50 ∨ flag = 51
  body : r.parser.body = some (formBody name password)
  nameBytes : 38 ∉ name ∧ 0 ∉ name
  passwordBytes : 0 ∉ password
  short : name.length ≤ 99 ∧ password.length ≤ 99 ∧ name.length + password.length ≤ 152

/-- What `do_request` makes of the file name, the accounts and the statements, for a request
with credentials, however it was received. -/
theorem Sends.doRequest {r : Reading} {flag : UInt8} {name password : List UInt8}
    (h : Sends r flag name password) (c : HttpTask) {es : List ReadingEvent}
    (hr : Run.exec Reading.step Reading.start es = some r) (query : List UInt8 → ℤ)
    (stat : List UInt8 → Answer) :
  ∃ ret d, (c.handed r.parser).doRequest query stat = .ok (ret, d) ∧
    d.path =
      docRoot ++ ascii (c.users.answer flag name password (query (sqlInsert name password))).1 ∧
    d.users = (c.users.answer flag name password (query (sqlInsert name password))).2 ∧
    d.queries = if flag = 51 ∧ c.users name = none then c.queries ++ [sqlInsert name password]
      else c.queries
  := by
  obtain ⟨dir, rest, hurl, hrest, hlength⟩ := h.url
  obtain ⟨u, hu, htext⟩ := Option.map_eq_some_iff.mp hurl
  obtain ⟨q, hsent⟩ := sent_of_exec hr hu h.body
  have hslash : flag ≠ 47 := by
    rcases h.flag with rfl | rfl
    · decide
    · decide
  obtain ⟨hp, hdigit⟩ := lastSegment htext hslash hrest
  have hcredentials := hasCredentials_of_exec c hr h.left h.post (hdigit.symm ▸ h.flag)
  obtain ⟨hname, hpassword, hboth⟩ := h.short
  have hurl : (r.parser.text u).length ≤ 200 := by
    rw [htext]
    omega
  obtain ⟨d, hd, hmake⟩ := Sent.makePath_of_fits (c := c.handed r.parser) hsent hu hp hcredentials
    (fits_formBody h.nameBytes h.passwordBytes hurl hname hpassword hboth) query
  have hform := Sent.form_formBody (c := c.handed r.parser) hsent h.nameBytes
    h.passwordBytes hname hpassword
  -- what the answer is made from is what was sent
  have hrooted : (c.handed r.parser).rooted.Rooted := rooted_rooted rfl
  obtain ⟨name₁, password₁, hform₁, hpage⟩ :=
    hrooted.credentials_page (Nat.le_add_right u dir.length) hcredentials hd
  obtain ⟨rfl, rfl⟩ := Prod.mk.inj (Except.ok.inj (hform.symm.trans hform₁))
  obtain ⟨name₂, password₂, hform₂, haccounts⟩ := credentials_accounts hd
  obtain ⟨rfl, rfl⟩ := Prod.mk.inj (Except.ok.inj (hform.symm.trans hform₂))
  have hflag : (c.handed r.parser).rooted.readBuf (u + dir.length + 1) = flag := hdigit
  have haccounts' := route_accounts d u (u + dir.length)
  rw [haccounts, hflag] at haccounts'
  rw [answer, hflag] at hpage
  obtain ⟨ret, d', hd', hpath, hsame⟩ := doRequest_accounts hmake stat
  rw [← hpath] at hpage
  rw [← hsame] at haccounts'
  refine ⟨ret, d', hd', ?_⟩
  rcases h.flag with rfl | rfl
  · obtain ⟨husers, hqueries⟩ := Prod.mk.inj haccounts'
    exact ⟨hpage, husers, hqueries⟩
  · obtain ⟨husers, hqueries⟩ := Prod.mk.inj haccounts'
    refine ⟨hpage, husers, ?_⟩
    rw [hqueries]
    simp only [true_and]
    rfl

end HttpTask

/-! ### The server and its table -/

/-- The registrations of the workers, with the rows of the table `webdb`. -/
structure Site (ι : Type u) extends Registrations ι where
  rows : List (List UInt8 × List UInt8)

/-- A step of a worker in `do_request`, or a restart of the server. -/
inductive SiteEvent (ι : Type u) where
  /-- A registration up to its lookup, for the object of a connection. -/
  | find (worker : ι) (c : HttpTask)
  /-- The section with the lock, in which `mysql_query` returns `res` and leaves `rows` in the
  table, and the answer. -/
  | commit (worker : ι) (res : ℤ) (rows : List (List UInt8 × List UInt8))
  /-- The server ends, wherever its workers are, and is started again; the query of
  `initmysql_result` gives `rows`. -/
  | restart (rows : List (List UInt8 × List UInt8))

/-- What a statement with two literals makes of the table: a row, or nothing when it fails.
Nothing is known of a statement of another form. -/
def Executes (rows : List (List UInt8 × List UInt8)) (statement : List UInt8) (res : ℤ)
    (rows' : List (List UInt8 × List UInt8)) : Prop :=
  ∀ row ∈ readInsert statement, rows' = if res = 0 then rows ++ [row] else rows

instance (rows : List (List UInt8 × List UInt8)) (statement : List UInt8) (res : ℤ)
    (rows' : List (List UInt8 × List UInt8)) : Decidable (Executes rows statement res rows') :=
  inferInstanceAs (Decidable (∀ row ∈ readInsert statement, _))

namespace Site

variable {ι : Type u}

/-- The server is started on a table. -/
def start (rows : List (List UInt8 × List UInt8)) : Site ι where
  toRegistrations := Registrations.start (Accounts.load rows)
  rows := rows

section Step

variable [DecidableEq ι]

/-- A step of the server. -/
def step (s : Site ι) : SiteEvent ι → Option (Site ι)
  | .find i c =>
    match c.form with
    | .error _ => none
    | .ok (name, password) =>
      if 200 < (sqlInsert name password).length + 1 then
        none
      else
        (s.toRegistrations.step (.find i name password)).map fun r => ⟨r, s.rows⟩
  | .commit i res rows =>
    match s.workers i with
    | .outside => none
    | .passed name password =>
      if Executes s.rows (sqlInsert name password) res rows then
        (s.toRegistrations.step (.commit i res)).map fun r => ⟨r, rows⟩
      else
        none
  | .restart rows =>
    if rows.Perm s.rows then
      some { s with users := Accounts.load rows, workers := fun _ => .outside }
    else
      none

/-- What a step of the server does to the accounts and to the table. -/
inductive Change (s : Site ι) : SiteEvent ι → Site ι → Prop where
  | find {i : ι} {c : HttpTask} {workers : ι → Registrar} :
    Change s (.find i c) { s with workers := workers }
  | commit {i : ι} {res : ℤ} {rows : List (List UInt8 × List UInt8)} {name password : List UInt8}
      (hi : s.workers i = .passed name password)
      (hrows : Executes s.rows (sqlInsert name password) res rows) :
    Change s (.commit i res rows) {
      users := s.users.insert name password
      workers := Function.update s.workers i .outside
      inserts := s.inserts ++ [(name, password)]
      accepted := if res = 0 then s.accepted ++ [(name, password)] else s.accepted
      rows := rows }
  | restart {rows : List (List UInt8 × List UInt8)} (hrows : rows.Perm s.rows) :
    Change s (.restart rows) { s with users := Accounts.load rows, workers := fun _ => .outside }

theorem commit_page (users : Users) (name password : List UInt8) (res : ℤ) :
  (users.commit name password res).1 = "/log.html" ↔ res = 0
  := by
  rw [Users.commit]
  by_cases hres : res = 0
  · simp [hres]
  · simp [hres]

theorem change_of_step {s s' : Site ι} {e : SiteEvent ι} (h : s.step e = some s') :
  s.Change e s'
  := by
  cases e with
  | find i c =>
      rw [step] at h
      split at h
      next => cases h
      next name password hform =>
        split at h
        next => cases h
        next =>
          obtain ⟨r, hr, rfl⟩ := Option.map_eq_some_iff.mp h
          rw [Registrations.step] at hr
          split at hr
          next =>
            split at hr
            next => cases hr; exact .find
            next => cases hr; exact .find
          next => cases hr
  | commit i res rows =>
      rw [step] at h
      split at h
      next => cases h
      next name password hi =>
        split at h
        next hrows =>
          rw [Registrations.step, hi] at h
          have hchange := Change.commit hi hrows
          rw [← if_congr (commit_page s.users name password res)
            (Eq.refl (s.accepted ++ [(name, password)])) (Eq.refl s.accepted)] at hchange
          cases h
          exact hchange
        next => cases h
  | restart rows =>
      rw [step] at h
      split at h
      next hrows =>
        cases h
        exact .restart hrows
      next => cases h

/-- A worker takes the lock for a name that is not in the accounts, and MySQL reads its
statement as it was meant. -/
def Sound (s : Site ι) : SiteEvent ι → Prop
  | .commit i _ _ => ∀ name password, s.workers i = .passed name password →
      s.users name = none ∧ Sql.Verbatim name ∧ Sql.Verbatim password
  | .find _ _ | .restart _ => True

end Step

/-! ### What lasts -/

/-- The rows are those of names in the accounts, and whoever was accepted has a row, all the
rows of the name are for that password, and so are the accounts. -/
structure Lasting (s : Site ι) : Prop where
  known : ∀ name password, (name, password) ∈ s.rows → s.users name ≠ none
  present : ∀ name password, (name, password) ∈ s.accepted → (name, password) ∈ s.rows
  only : ∀ name password, (name, password) ∈ s.accepted →
    ∀ password', (name, password') ∈ s.rows → password' = password
  users : ∀ name password, (name, password) ∈ s.accepted → s.users name = some password

/-- A name is loaded with the password of one of its rows. -/
theorem mem_of_load {rows : List (List UInt8 × List UInt8)} {name password : List UInt8}
    (h : Accounts.load rows name = some password) :
  (name, password) ∈ rows
  := by
  induction rows using List.reverseRecOn with
  | nil => cases h
  | append_singleton rows row ih =>
      rw [Accounts.load_append] at h
      by_cases hname : name = row.1
      · subst hname
        rw [Function.update_self] at h
        obtain rfl := Option.some.inj h
        exact List.mem_append_right _ (List.mem_singleton_self _)
      · rw [Function.update_of_ne hname] at h
        exact List.mem_append_left _ (ih h)

/-- The name of a row is loaded. -/
theorem load_ne_none {rows : List (List UInt8 × List UInt8)} {name password : List UInt8}
    (h : (name, password) ∈ rows) :
  Accounts.load rows name ≠ none
  := by
  induction rows using List.reverseRecOn with
  | nil => cases h
  | append_singleton rows row ih =>
      rw [Accounts.load_append]
      by_cases hname : name = row.1
      · rw [hname, Function.update_self]
        exact Option.some_ne_none _
      · rw [Function.update_of_ne hname]
        rcases List.mem_append.mp h with hold | hnew
        · exact ih hold
        · rw [← List.mem_singleton.mp hnew] at hname
          exact absurd rfl hname

/-- MySQL reads a statement with nothing to decode as it was meant. -/
theorem readInsert_of_verbatim {name password : List UInt8} (hname : Sql.Verbatim name)
    (hpassword : Sql.Verbatim password) :
  readInsert (sqlInsert name password) = some (name, password)
  := by
  rw [readInsert_sqlInsert, readValues_eq_some]
  refine ⟨password ++ Sql.quote :: ascii ")", ?_, ?_⟩
  · apply hname.readString
    change some (44 : UInt8) ≠ some Sql.quote
    decide
  · apply hpassword.readString
    decide

theorem start_lasting (rows : List (List UInt8 × List UInt8)) :
  (start rows : Site ι).Lasting
  := by
  refine ⟨fun _ _ h => load_ne_none h, ?_, ?_, ?_⟩
  · intro name password h
    cases h
  · intro name password h
    cases h
  · intro name password h
    cases h

/-- The accounts are loaded again. -/
theorem Lasting.restart {s : Site ι} (h : s.Lasting) {rows : List (List UInt8 × List UInt8)}
    (hrows : rows.Perm s.rows) :
  Lasting ({ s with users := Accounts.load rows, workers := fun _ => .outside } : Site ι)
  := by
  refine ⟨?_, h.present, h.only, ?_⟩
  · intro name password hmem
    apply load_ne_none (hrows.mem_iff.mpr hmem)
  · intro name password hmem
    have hrow := h.present name password hmem
    obtain ⟨password', hload⟩ :=
      Option.ne_none_iff_exists'.mp (load_ne_none (hrows.mem_iff.mpr hrow))
    obtain rfl := h.only name password hmem password' (hrows.mem_iff.mp (mem_of_load hload))
    exact hload

/-- A name that is not in the accounts gets there, whether its query fails or not. -/
theorem Lasting.commit {s : Site ι} (h : s.Lasting) {name password : List UInt8}
    (hname : s.users name = none) (workers : ι → Registrar)
    (inserts : List (List UInt8 × List UInt8)) (res : ℤ) :
  Lasting {
    users := Function.update s.users name (some password)
    workers := workers
    inserts := inserts
    accepted := if res = 0 then s.accepted ++ [(name, password)] else s.accepted
    rows := if res = 0 then s.rows ++ [(name, password)] else s.rows }
  := by
  have hother {n p : List UInt8} (hmem : (n, p) ∈ s.rows) : n ≠ name := by
    rintro rfl
    exact h.known n p hmem hname
  have hcases (l : List (List UInt8 × List UInt8)) {n p : List UInt8}
      (hmem : (n, p) ∈ if res = 0 then l ++ [(name, password)] else l) :
      (n, p) ∈ l ∨ res = 0 ∧ n = name ∧ p = password := by
    split at hmem
    next hres =>
      refine (List.mem_append.mp hmem).imp_right fun hnew => ⟨hres, ?_⟩
      exact Prod.mk.inj (List.mem_singleton.mp hnew)
    next => exact .inl hmem
  refine ⟨?_, ?_, ?_, ?_⟩
  · intro n p hmem
    rcases hcases s.rows hmem with hold | ⟨-, rfl, rfl⟩
    · change Function.update s.users name (some password) n ≠ none
      rw [Function.update_of_ne (hother hold)]
      exact h.known n p hold
    · change Function.update s.users n (some p) n ≠ none
      rw [Function.update_self]
      exact Option.some_ne_none p
  · intro n p hmem
    rcases hcases s.accepted hmem with hold | ⟨hres, rfl, rfl⟩
    · have hrow := h.present n p hold
      change _ ∈ ite _ _ _
      split
      · exact List.mem_append_left _ hrow
      · exact hrow
    · change _ ∈ ite _ _ _
      rw [if_pos hres]
      exact List.mem_append_right _ (List.mem_singleton_self _)
  · intro n p hmem p' hmem'
    rcases hcases s.accepted hmem with hold | ⟨-, rfl, rfl⟩
    · rcases hcases s.rows hmem' with hold' | ⟨-, rfl, rfl⟩
      · exact h.only n p hold p' hold'
      · exact absurd rfl (hother (h.present n p hold))
    · rcases hcases s.rows hmem' with hold' | ⟨-, -, rfl⟩
      · exact absurd rfl (hother hold')
      · rfl
  · intro n p hmem
    rcases hcases s.accepted hmem with hold | ⟨-, rfl, rfl⟩
    · change Function.update s.users name (some password) n = some p
      rw [Function.update_of_ne (hother (h.present n p hold))]
      exact h.users n p hold
    · apply Function.update_self

variable [DecidableEq ι]

theorem Lasting.step {s s' : Site ι} (h : s.Lasting) {e : SiteEvent ι} (he : s.Sound e)
    (hs' : s.step e = some s') :
  s'.Lasting
  := by
  cases change_of_step hs' with
  | find => exact ⟨h.known, h.present, h.only, h.users⟩
  | @commit i res rows name password hi hrows =>
      obtain ⟨hname, hverbatim, hverbatim'⟩ := he name password hi
      have hread := readInsert_of_verbatim hverbatim hverbatim'
      obtain rfl := hrows (name, password) hread
      have hinsert : s.users.insert name password
          = Function.update s.users name (some password) := by
        rw [Users.insert, hname]
        rfl
      rw [hinsert]
      exact h.commit hname _ _ res
  | restart hrows => exact h.restart hrows

/-- Who was accepted stays accepted. -/
theorem accepted_step {s s' : Site ι} {e : SiteEvent ι} (hs' : s.step e = some s')
    {account : List UInt8 × List UInt8} (h : account ∈ s.accepted) :
  account ∈ s'.accepted
  := by
  cases change_of_step hs' with
  | find | restart => exact h
  | commit hi hrows =>
      change _ ∈ ite _ _ _
      split
      · exact List.mem_append_left _ h
      · exact h

/-- The section with the lock. -/
theorem step_commit {s : Site ι} {i : ι} {res : ℤ} {rows : List (List UInt8 × List UInt8)}
    {name password : List UInt8} (hi : s.workers i = .passed name password)
    (hrows : Executes s.rows (sqlInsert name password) res rows) :
  ∃ s', s.step (.commit i res rows) = some s' ∧
    s'.users = (s.users.commit name password res).2
  := by
  rw [step, hi]
  dsimp only
  rw [if_pos hrows, Registrations.step, hi]
  exact ⟨_, rfl, rfl⟩

/-- The registration of `do_request`, when no other worker comes in between, is a run of the
server: the lookup, and the section with the lock when the name is not there. -/
theorem register_exec {s : Site ι} {i : ι} (hi : s.workers i = .outside) {c d : HttpTask}
    (hc : c.users = s.users) {query : List UInt8 → ℤ} {u : ℕ} {name password : List UInt8}
    (hform : c.form = .ok (name, password)) (hd : c.register query u name password = .ok d)
    {rows : List (List UInt8 × List UInt8)}
    (hrows : Executes s.rows (sqlInsert name password) (query (sqlInsert name password)) rows) :
  ∃ s', Run.exec step s (if s.users name = none then
        [.find i c, .commit i (query (sqlInsert name password)) rows] else [.find i c]) = some s' ∧
    s'.users = d.users
  := by
  rw [HttpTask.register] at hd
  dsimp only at hd
  split at hd
  next => cases hd
  next hfits =>
    have hfind : s.step (.find i c) = (s.toRegistrations.step (.find i name password)).map
        fun r => ⟨r, s.rows⟩ := by
      rw [step, hform]
      exact if_neg hfits
    rw [Registrations.step, hi] at hfind
    dsimp only at hfind
    have husers : d.users =
        (s.users.register name password (query (sqlInsert name password))).2 := by
      obtain ⟨q, -, hd⟩ := bind_eq_ok.mp hd
      cases hd
      rw [← hc]
    rw [husers, Users.register]
    split
    next hname =>
      rw [if_pos hname] at hfind
      obtain ⟨s', hs', husers'⟩ := step_commit (s := { s with
        workers := Function.update s.workers i (.passed name password) })
        (Function.update_self ..) hrows
      exact ⟨s', Run.exec_cons.mpr ⟨_, hfind, Run.exec_cons.mpr ⟨s', hs', rfl⟩⟩, husers'⟩
    next hname =>
      rw [if_neg hname] at hfind
      exact ⟨s, Run.exec_cons.mpr ⟨s, hfind, rfl⟩, rfl⟩

/-- Whoever was answered with the page of a login behind a registration can log in with that
password and no other, at any later time and however the request is received; and a
registration of the name is refused, with no statement and no change of the accounts. -/
theorem registered_survives {rows : List (List UInt8 × List UInt8)} {es es' : List (SiteEvent ι)}
    {s t : Site ι} (hsound : Run.Along step Sound (start rows) (es ++ es'))
    (hs : Run.exec step (start rows) es = some s) (ht : Run.exec step s es' = some t)
    {name password attempt : List UInt8} (haccepted : (name, password) ∈ s.accepted)
    {c : HttpTask} (hc : c.users = t.users) {arrived : List ReadingEvent} {r : Reading}
    (hr : Run.exec Reading.step Reading.start arrived = some r) {flag : UInt8}
    (hsends : HttpTask.Sends r flag name attempt) (query : List UInt8 → ℤ)
    (stat : List UInt8 → Answer) :
  ∃ ret d, (c.handed r.parser).doRequest query stat = .ok (ret, d) ∧
    d.users = t.users ∧ d.queries = c.queries ∧
    d.path = docRoot ++ ascii
      (if flag = 51 then "/registerError.html"
        else if attempt = password then "/welcome.html" else "/logError.html")
  := by
  have hlasting : t.Lasting := Run.exec_invariant (fun _ _ _ h he hs' => h.step he hs')
    (start_lasting rows) hsound (Run.exec_append hs ht)
  have hmem : (name, password) ∈ t.accepted := Run.exec_preserves
    (I := fun s => (name, password) ∈ s.accepted) (fun _ _ _ h hs' => accepted_step hs' h)
    haccepted ht
  have husers := hlasting.users name password hmem
  obtain ⟨ret, d, hd, hpath, husers', hqueries⟩ := hsends.doRequest c hr query stat
  rw [hc] at hpath husers' hqueries
  refine ⟨ret, d, hd, ?_⟩
  rcases hsends.flag with rfl | rfl
  · have hlogin : t.users name = some attempt ↔ attempt = password := by
      rw [husers, Option.some_inj, eq_comm]
    rw [Users.answer, if_neg (by decide), Users.login, if_congr hlogin rfl rfl] at hpath
    exact ⟨husers', hqueries, hpath⟩
  · have hname : t.users name ≠ none := by
      rw [husers]
      exact Option.some_ne_none password
    rw [Users.answer, if_pos rfl, Users.register, if_neg hname] at hpath husers'
    rw [if_neg fun h => hname h.2] at hqueries
    exact ⟨husers', hqueries, hpath⟩

set_option maxRecDepth 10000 in
/-- A user registers, the server is started again, and the user logs in. -/
theorem registered_survives_login :
  ∃ r, Run.exec Reading.step Reading.start (HttpTask.arriving
      (ascii "POST /x/2 HTTP/1.1\r\nContent-Length:17\r\n\r\nuser=a&password=b") 4) = some r ∧
    ∃ ret d, (({ HttpTask.idle with users := Accounts.load [(ascii "a", ascii "b")] } :
        HttpTask).handed r.parser).doRequest (fun _ => 0) HttpTask.filesOnly = .ok (ret, d) ∧
      d.path = docRoot ++ ascii "/welcome.html"
  := by
  obtain ⟨q, -, hform⟩ := HttpTask.exists_of_arriving
    (ascii "POST /3 HTTP/1.1\r\nContent-Length:17\r\n\r\nuser=a&password=b") 4
    (fun r => (HttpTask.idle.handed r.parser).form.toOption = some (ascii "a", ascii "b"))
    (by decide +kernel)
  rw [toOption_eq_some] at hform
  obtain ⟨r, hr, hleft, hpost, hurl, hbody⟩ := HttpTask.exists_of_arriving
    (ascii "POST /x/2 HTTP/1.1\r\nContent-Length:17\r\n\r\nuser=a&password=b") 4
    (fun s => s.place = .left .doRequest ∧ s.parser.method = .post ∧
      s.parser.urlText = some (ascii "/x" ++ 47 :: 50 :: []) ∧
      s.parser.body = some (HttpTask.formBody (ascii "a") (ascii "b"))) (by decide +kernel)
  have hsends : HttpTask.Sends r 50 (ascii "a") (ascii "b") :=
    ⟨hleft, hpost, ⟨_, [], hurl, by decide, by decide⟩, .inl rfl, hbody, by decide, by decide,
      by decide⟩
  -- the registration, and the restart behind it
  have hfind : (start [] : Site Unit).step (.find () (HttpTask.idle.handed q.parser))
      = some ⟨⟨fun _ => none, fun _ => .passed (ascii "a") (ascii "b"), [], []⟩, []⟩ := by
    rw [step, hform]
    rfl
  have hs : Run.exec step (start [] : Site Unit)
      [.find () (HttpTask.idle.handed q.parser), .commit () 0 [(ascii "a", ascii "b")]] = some
        ⟨⟨Function.update (fun _ => none) (ascii "a") (some (ascii "b")), fun _ => .outside,
          [(ascii "a", ascii "b")], [(ascii "a", ascii "b")]⟩, [(ascii "a", ascii "b")]⟩ := by
    rw [Run.exec, hfind]
    rfl
  have hverbatim : Sql.Verbatim (ascii "a") ∧ Sql.Verbatim (ascii "b") :=
    ⟨.plain (by decide) (by decide) .nil, .plain (by decide) (by decide) .nil⟩
  have hsound : Run.Along step Sound (start [] : Site Unit)
      ([.find () (HttpTask.idle.handed q.parser), .commit () 0 [(ascii "a", ascii "b")]] ++
        [.restart [(ascii "a", ascii "b")]]) := by
    refine ⟨trivial, fun s hs => ⟨?_, fun _ _ => ⟨trivial, fun _ _ => trivial⟩⟩⟩
    obtain rfl := Option.some.inj (hfind.symm.trans hs)
    intro name password hpassed
    cases hpassed
    exact ⟨rfl, hverbatim⟩
  obtain ⟨ret, d, hd, -, -, hpath⟩ := registered_survives hsound hs rfl
    (List.mem_singleton_self _) (c := { HttpTask.idle with
      users := Accounts.load [(ascii "a", ascii "b")] }) rfl hr hsends (fun _ => 0)
    HttpTask.filesOnly
  exact ⟨r, hr, ret, d, hd, hpath⟩

end Site

end WebServer
