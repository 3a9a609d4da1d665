import WebServer.Http.Process

/-!
# `do_request`

What `do_request` makes of a request that is parsed: the name of the file in
`m_real_file`, and for a request with credentials the answer to a login or a registration,
whose page takes the place of the URL.  The map of the accounts is global to the program
and goes through `do_request` with the object, and so do the statements that were passed
to `mysql_query`.

The buffers on the stack and on the heap are given by their sizes: a string that does not
fit is a fault.  The result of `mysql_query` is a function of the statement, and what the
file system has at a path is a function of the path.
-/

open CString Fallible

namespace WebServer

/-- `http_conn::REAL_FILE_SIZE`. -/
def realFileSize : ℕ := 200

/-- `doc_root`. -/
def docRoot : List UInt8 := ascii "/home/zy/WebServerCmake/root"

/-- `users`, the map from names to passwords. -/
abbrev Users : Type := List UInt8 → Option (List UInt8)

/-- `users.insert`, which leaves a name alone that is there. -/
def Users.insert (users : Users) (name password : List UInt8) : Users :=
  if (users name).isSome then users else Function.update users name (some password)

/-- `sql_insert`. -/
def sqlInsert (name password : List UInt8) : List UInt8 :=
  ascii "INSERT INTO webdb(name,password) VALUES(" ++ ascii "'" ++ name ++ ascii "', '"
    ++ password ++ ascii "')"

/-- The locked section of a registration and what follows it: the page for the result of
`mysql_query`, and the accounts. -/
def Users.commit (users : Users) (name password : List UInt8) (res : ℤ) : String × Users :=
  (if res = 0 then "/log.html" else "/registerError.html", users.insert name password)

/-- A registration, when `mysql_query` returns `res`. -/
def Users.register (users : Users) (name password : List UInt8) (res : ℤ) : String × Users :=
  if users name = none then
    users.commit name password res
  else
    ("/registerError.html", users)

/-- A login. -/
def Users.login (users : Users) (name password : List UInt8) : String :=
  if users name = some password then "/welcome.html" else "/logError.html"

/-- The object of a connection with the file name that `do_request` makes, the accounts,
and the statements that were passed to `mysql_query`. -/
structure HttpTask extends HttpConn where
  realFile : Memory
  users : Users
  queries : List (List UInt8)

namespace HttpTask

/-- `init()`, which clears `m_real_file` too. -/
def init (c : HttpTask) : HttpTask :=
  { c with toHttpConn := c.toHttpConn.init, realFile := fun _ => 0 }

/-- The object of a connection whose request is parsed: since `init()` only the fields of
the parser changed. -/
def handed (c : HttpTask) (p : Parser) : HttpTask := { c.init with toParser := p }

/-- The loops of `do_request` that copy from `m_string` into an array of `room` bytes: the
bytes up to the first one that is `stop`, for which the array has room as well. -/
def copyUntil (m : Memory) (stop : UInt8) : (room p : ℕ) → Except Fault (List UInt8)
  | 0, _ => .error .outOfBounds
  | room + 1, p =>
    if readBuffSize ≤ p then
      .error .outOfBounds
    else if m p = stop then
      .ok []
    else do
      let rest ← copyUntil m stop room (p + 1)
      .ok (m p :: rest)

/-- `name` and `password`, taken out of a body of the form `user=123&password=123`.  What
is copied into `name` may have a NUL in it, which ends the string. -/
def form (c : HttpTask) : Except Fault (List UInt8 × List UInt8) :=
  match c.string with
  | none => .error .nullPointer
  | some s => do
    let name ← copyUntil c.readBuf 38 100 (s + 5)
    let password ← copyUntil c.readBuf 0 100 (s + 5 + name.length + 10)
    .ok (name.takeWhile (· != 0), password)

/-- `strcpy(m_url, page)`. -/
def setUrl (c : HttpTask) (u : ℕ) (page : String) : Except Fault HttpTask := do
  let p ← c.toParser.storeAll u (ascii page ++ [0])
  .ok { c with toParser := p }

/-- A registration of `do_request`. -/
def register (c : HttpTask) (query : List UInt8 → ℤ) (u : ℕ) (name password : List UInt8) :
    Except Fault HttpTask :=
  let statement := sqlInsert name password
  if 200 < statement.length + 1 then
    .error .outOfBounds
  else
    let (page, users) := c.users.register name password (query statement)
    let queries := if c.users name = none then c.queries ++ [statement] else c.queries
    { c with users := users, queries := queries }.setUrl u page

/-- The part of `do_request` for a request with credentials, where `p` is the address of
the last slash of the URL. -/
def credentials (c : HttpTask) (query : List UInt8 → ℤ) (u p : ℕ) : Except Fault HttpTask :=
  let urlReal := ascii "/" ++ c.text (u + 2)
  if 200 < urlReal.length + 1 then
    .error .outOfBounds
  else do
    let len := docRoot.length
    let c := { c with realFile := strncpy c.realFile len urlReal (realFileSize - len - 1) }
    let (name, password) ← c.form
    if c.readBuf (p + 1) = 51 then
      c.register query u name password
    else
      c.setUrl u (c.users.login name password)

/-- The page of a digit behind the last slash of the URL. -/
def digitPage (b : UInt8) : Option String :=
  if b = 48 then some "/register.html"
  else if b = 49 then some "/log.html"
  else if b = 53 then some "/picture.html"
  else if b = 54 then some "/video.html"
  else if b = 55 then some "/fans.html"
  else none

/-- The end of the file name: the page of a digit, which is copied without its NUL, or the
URL, as much of it as there is room for. -/
def route (c : HttpTask) (u p : ℕ) : HttpTask :=
  let len := docRoot.length
  match digitPage (c.readBuf (p + 1)) with
  | some page =>
    { c with realFile := strncpy c.realFile len (ascii page) (ascii page).length }
  | none =>
    { c with realFile := strncpy c.realFile len (c.text u) (realFileSize - len - 1) }

/-- Whether the request is one with credentials, where `p` is the address of the last
slash of the URL. -/
def hasCredentials (c : HttpTask) (p : ℕ) : Bool :=
  c.cgi == 1 && (c.readBuf (p + 1) == 50 || c.readBuf (p + 1) == 51)

/-- `do_request` up to its call of `stat`. -/
def makePath (c : HttpTask) (query : List UInt8 → ℤ) : Except Fault HttpTask :=
  let c := { c with realFile := strcpy c.realFile 0 docRoot }
  match c.url with
  | none => .error .nullPointer
  | some u =>
    match strrchr c.readBuf readBuffSize u 47 with
    | none => .error .nullPointer
    | some p => do
      let c ← if c.hasCredentials p then c.credentials query u p else .ok c
      .ok (c.route u p)

/-- The string in `m_real_file`. -/
def path (c : HttpTask) : List UInt8 := stringAt c.realFile realFileSize 0

/-- `http_conn::do_request`, where `stat` is what the file system has at a path. -/
def doRequest (c : HttpTask) (query : List UInt8 → ℤ) (stat : List UInt8 → Answer) :
    Except Fault (HttpCode × HttpTask) := do
  let c ← c.makePath query
  let (ret, conn) := c.toHttpConn.doRequest (stat c.path)
  .ok (ret, { c with toHttpConn := conn })

/-- `http_conn::process_read`, with the call of `do_request` it may end with. -/
def processRead (c : HttpTask) (query : List UInt8 → ℤ) (stat : List UInt8 → Answer) :
    Except Fault (HttpCode × HttpTask) := do
  let (e, p) ← c.toParser.processRead
  let c := { c with toParser := p }
  match e with
  | .returned ret => .ok (ret, c)
  | .doRequest => c.doRequest query stat

/-- `http_conn::process`. -/
def process (c : HttpTask) (query : List UInt8 → ℤ) (stat : List UInt8 → Answer) :
    Except Fault (ProcessEnd × HttpTask) := do
  let (ret, c) ← c.processRead query stat
  let (e, conn) ← c.toHttpConn.respond ret
  .ok (e, { c with toHttpConn := conn })

/-! ### What `do_request` does up to its call of `stat` -/

/-- The pages of the digits and of the credentials. -/
def pages : List String :=
  ["/register.html", "/log.html", "/picture.html", "/video.html", "/fans.html",
    "/registerError.html", "/welcome.html", "/logError.html"]

theorem register_mem (users : Users) (name password : List UInt8) (res : ℤ) :
  (users.register name password res).1 ∈ pages
  := by
  rw [Users.register]
  split
  · rw [Users.commit]
    dsimp only
    split
    · decide
    · decide
  · change "/registerError.html" ∈ pages
    decide

theorem login_mem (users : Users) (name password : List UInt8) :
  users.login name password ∈ pages
  := by
  rw [Users.login]
  split
  · decide
  · decide

/-- The page that answers credentials. -/
def answer (c : HttpTask) (query : List UInt8 → ℤ) (p : ℕ) (name password : List UInt8) :
    String :=
  if c.readBuf (p + 1) = 51 then
    (c.users.register name password (query (sqlInsert name password))).1
  else
    c.users.login name password

theorem answer_mem (c : HttpTask) (query : List UInt8 → ℤ) (p : ℕ) (name password : List UInt8) :
  c.answer query p name password ∈ pages
  := by
  rw [answer]
  split
  · apply register_mem
  · apply login_mem

/-- An answer to credentials ends with the page in place of the URL. -/
theorem credentials_eq_ok {c d : HttpTask} {query : List UInt8 → ℤ} {u p : ℕ}
    (h : c.credentials query u p = .ok d) :
  ∃ name password users queries, c.form = .ok (name, password) ∧
    { c with
      realFile := strncpy c.realFile docRoot.length (ascii "/" ++ c.text (u + 2))
        (realFileSize - docRoot.length - 1)
      users := users
      queries := queries }.setUrl u (c.answer query p name password) = .ok d
  := by
  rw [credentials] at h
  dsimp only at h
  split at h
  · cases h
  · obtain ⟨⟨name, password⟩, hform, h⟩ := bind_eq_ok.mp h
    dsimp only at h
    split at h
    · next hflag =>
      rw [register] at h
      dsimp only at h
      split at h
      · cases h
      · have hanswer : c.answer query p name password
            = (c.users.register name password (query (sqlInsert name password))).1 :=
          if_pos hflag
        refine ⟨name, password,
          (c.users.register name password (query (sqlInsert name password))).2,
          if c.users name = none then c.queries ++ [sqlInsert name password] else c.queries,
          hform, ?_⟩
        rw [hanswer]
        exact h
    · next hflag =>
      have hanswer : c.answer query p name password = c.users.login name password :=
        if_neg hflag
      refine ⟨name, password, c.users, c.queries, hform, ?_⟩
      rw [hanswer]
      exact h

/-- The object behind `strcpy(m_real_file, doc_root)`. -/
def rooted (c : HttpTask) : HttpTask := { c with realFile := strcpy c.realFile 0 docRoot }

/-- What `do_request` does up to its call of `stat`. -/
theorem makePath_eq_ok {c d : HttpTask} {query : List UInt8 → ℤ} (h : c.makePath query = .ok d) :
  ∃ u p, c.url = some u ∧ strrchr c.readBuf readBuffSize u 47 = some p ∧
    ((c.hasCredentials p = true ∧
        ∃ c', c.rooted.credentials query u p = .ok c' ∧ d = c'.route u p) ∨
      (c.hasCredentials p = false ∧ d = c.rooted.route u p))
  := by
  rw [makePath] at h
  dsimp only at h
  split at h
  · cases h
  · next u hu =>
    split at h
    · cases h
    · next p hp =>
      refine ⟨u, p, hu, hp, ?_⟩
      split at h
      · next hcredentials =>
        obtain ⟨c', hc', h⟩ := bind_eq_ok.mp h
        exact .inl ⟨hcredentials, c', hc', (Except.ok.inj h).symm⟩
      · next hcredentials =>
        exact .inr ⟨Bool.eq_false_of_not_eq_true hcredentials, (Except.ok.inj h).symm⟩

/-- Only the parser's fields of the connection change. -/
theorem makePath_toHttpConn {c d : HttpTask} {query : List UInt8 → ℤ}
    (h : c.makePath query = .ok d) :
  d.toHttpConn = { c.toHttpConn with toParser := d.toParser }
  := by
  have hroute (c : HttpTask) (u p : ℕ) : (c.route u p).toHttpConn = c.toHttpConn := by
    rw [route]
    split
    · rfl
    · rfl
  obtain ⟨u, p, -, -, ⟨-, c', hc', rfl⟩ | ⟨-, rfl⟩⟩ := makePath_eq_ok h
  · obtain ⟨name, password, users, queries, -, hurl⟩ := credentials_eq_ok hc'
    obtain ⟨q, -, hurl⟩ := bind_eq_ok.mp hurl
    rw [hroute]
    cases hurl
    rfl
  · rw [hroute]
    rfl

/-- Nothing but the buffer of the parser changes. -/
theorem makePath_sameHeaders {c d : HttpTask} {query : List UInt8 → ℤ}
    (h : c.makePath query = .ok d) :
  Parser.SameHeaders c.toParser d.toParser
  := by
  have hroute (c : HttpTask) (u p : ℕ) : (c.route u p).toParser = c.toParser := by
    rw [route]
    split
    · rfl
    · rfl
  obtain ⟨u, p, -, -, ⟨-, c', hc', rfl⟩ | ⟨-, rfl⟩⟩ := makePath_eq_ok h
  · obtain ⟨name, password, users, queries, -, hurl⟩ := credentials_eq_ok hc'
    obtain ⟨q, hq, hurl⟩ := bind_eq_ok.mp hurl
    rw [hroute]
    cases hurl
    exact Parser.storeAll_sameHeaders hq
  · rw [hroute]
    apply Parser.SameHeaders.refl

end HttpTask

/-! ### `process` without the file name -/

/-- What a call of `do_request` finds: the accounts, the results of `mysql_query`, and what
the file system has at the path that it makes. -/
structure Found where
  users : Users
  query : List UInt8 → ℤ
  answer : Answer

/-- What is found where there are no accounts, and every query succeeds. -/
def Found.plain (answer : Answer) : Found where
  users := fun _ => none
  query := fun _ => 0
  answer := answer

namespace HttpConn

/-- The object, as `do_request` has it.  Of what `m_real_file` holds only the path depends. -/
def task (c : HttpConn) (users : Users) : HttpTask where
  toHttpConn := c
  realFile := fun _ => 0
  users := users
  queries := []

/-- `http_conn::process`, for what `do_request` finds. -/
def process (c : HttpConn) (found : Found) : Except Fault (ProcessEnd × HttpConn) := do
  let (exit, p) ← c.processRead
  let c := { c with toParser := p }
  match exit with
  | .returned ret => c.respond ret
  | .doRequest =>
    let d ← (c.task found.users).makePath found.query
    let (ret, c) := d.toHttpConn.doRequest found.answer
    c.respond ret

/-- `process` leaves the descriptor to `close_conn`. -/
theorem process_sockfd {c c' : HttpConn} {found : Found} {e : ProcessEnd}
    (h : c.process found = .ok (e, c')) :
  c'.sockfd = c.sockfd
  := by
  obtain ⟨⟨exit, p⟩, -, h⟩ := bind_eq_ok.mp h
  cases exit with
  | returned ret =>
      have hsock := respond_sockfd h
      exact hsock
  | doRequest =>
      obtain ⟨d, hd, h⟩ := bind_eq_ok.mp h
      have hsock := (respond_sockfd h).trans (doRequest_sockfd _ found.answer)
      rw [HttpTask.makePath_toHttpConn hd] at hsock
      exact hsock

end HttpConn

namespace HttpTask

/-! ### The two levels of `process` -/

/-- Two tasks with the same object and the same accounts. -/
def SameConn (c d : HttpTask) : Prop := d.toHttpConn = c.toHttpConn ∧ d.users = c.users

section SameConn

variable {c d : HttpTask}

theorem setUrl_sameConn (h : SameConn c d) (u : ℕ) (page : String) :
  Related SameConn (c.setUrl u page) (d.setUrl u page)
  := by
  rw [setUrl, setUrl, h.1]
  cases c.toParser.storeAll u (ascii page ++ [0]) with
  | error f => exact .error f
  | ok p => exact .ok ⟨rfl, h.2⟩

theorem register_sameConn (h : SameConn c d) (query : List UInt8 → ℤ) (u : ℕ)
    (name password : List UInt8) :
  Related SameConn (c.register query u name password) (d.register query u name password)
  := by
  obtain ⟨conn, realFile, users, queries⟩ := d
  obtain ⟨rfl, rfl⟩ := h
  rw [register, register]
  dsimp only
  split
  · exact .error _
  · refine setUrl_sameConn ?_ u _
    exact ⟨rfl, rfl⟩

theorem credentials_sameConn (h : SameConn c d) (query : List UInt8 → ℤ) (u p : ℕ) :
  Related SameConn (c.credentials query u p) (d.credentials query u p)
  := by
  obtain ⟨conn, realFile, users, queries⟩ := d
  obtain ⟨rfl, rfl⟩ := h
  rw [credentials, credentials]
  dsimp only
  split
  · exact .error _
  · refine Related.bind (R := Eq) ?_ fun r r' hr => ?_
    · change Related Eq c.form c.form
      cases c.form with
      | error f => exact .error f
      | ok r => exact .ok rfl
    · subst hr
      split
      · refine register_sameConn ?_ query u r.1 r.2
        exact ⟨rfl, rfl⟩
      · refine setUrl_sameConn ?_ u _
        exact ⟨rfl, rfl⟩

theorem route_sameConn (h : SameConn c d) (u p : ℕ) :
  SameConn (c.route u p) (d.route u p)
  := by
  rw [route, route, h.1]
  split
  · exact ⟨rfl, h.2⟩
  · exact ⟨rfl, h.2⟩

/-- Whether `do_request` comes to its call of `stat`, and with which object, does not depend on
what `m_real_file` held before. -/
theorem makePath_sameConn (h : SameConn c d) (query : List UInt8 → ℤ) :
  Related SameConn (c.makePath query) (d.makePath query)
  := by
  obtain ⟨conn, realFile, users, queries⟩ := d
  obtain ⟨rfl, rfl⟩ := h
  rw [makePath, makePath]
  dsimp only
  cases c.url with
  | none => exact .error _
  | some u =>
      dsimp only
      cases strrchr c.readBuf readBuffSize u 47 with
      | none => exact .error _
      | some p =>
          dsimp only
          change Related SameConn (if c.hasCredentials p = true then _ else _)
            (if c.hasCredentials p = true then _ else _)
          split
          · refine Related.bind (R := SameConn) ?_ fun a b hab => .ok (route_sameConn hab u p)
            refine credentials_sameConn ?_ query u p
            exact ⟨rfl, rfl⟩
          · refine .ok (route_sameConn ?_ u p)
            exact ⟨rfl, rfl⟩

end SameConn

/-- The object behind `process` is the one of the connection alone, for what the file system has
at the path. -/
theorem process_toHttpConn (c : HttpTask) (query : List UInt8 → ℤ) (stat : List UInt8 → Answer) :
  ∃ answer, (c.process query stat).map (fun r => (r.1, r.2.toHttpConn)) =
    c.toHttpConn.process ⟨c.users, query, answer⟩
  := by
  have hrespond (d : HttpTask) (ret : HttpCode) :
      (d.toHttpConn.respond ret >>= fun r => Except.ok (r.1, { d with toHttpConn := r.2 })).map
        (fun r : ProcessEnd × HttpTask => (r.1, r.2.toHttpConn)) = d.toHttpConn.respond ret := by
    cases d.toHttpConn.respond ret with
    | error f => rfl
    | ok r => rfl
  rw [process, processRead]
  unfold HttpConn.process
  cases c.toParser.processRead with
  | error f => exact ⟨.missing, rfl⟩
  | ok r =>
      obtain ⟨exit, p⟩ := r
      cases exit with
      | returned ret => exact ⟨.missing, hrespond { c with toParser := p } ret⟩
      | doRequest =>
          have hsame : SameConn { c with toParser := p }
            (({ c.toHttpConn with toParser := p } : HttpConn).task c.users) := ⟨rfl, rfl⟩
          have hpath := makePath_sameConn hsame query
          simp only [ok_bind, doRequest]
          generalize ({ c with toParser := p } : HttpTask).makePath query = x,
            (({ c.toHttpConn with toParser := p } : HttpConn).task c.users).makePath query = y
            at hpath
          cases hpath with
          | error f => exact ⟨.missing, rfl⟩
          | @ok a b hab =>
              refine ⟨stat a.path, ?_⟩
              simp only [ok_bind, hab.1]
              exact hrespond { a with toHttpConn := (a.toHttpConn.doRequest (stat a.path)).2 } _

end HttpTask

namespace HttpTask

/-! ### A connection at the beginning -/

/-- The object of a connection to which nothing was sent yet. -/
def idle : HttpTask where
  toHttpConn := Sending.forFile 0
  realFile := fun _ => 0
  users := fun _ => none
  queries := []

/-- A file system that has a file of five bytes at every path. -/
def filesOnly (_ : List UInt8) : Answer := .file 5 fun _ => 0

end HttpTask

end WebServer
