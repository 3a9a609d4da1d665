import WebServer.Http.Answered

/-!
# What `init()` leaves behind

`init()` leaves the socket, the `iovec`s and the file status as an earlier connection or
request left them.  The `iovec`s are written by `process_write` before `write` uses them,
the second one only for a response with a file, and the file status is written by
`do_request` before `process_write` looks at it.

So two objects that are `Alike`, which is to be the same but for those fields as long as
there is nothing to send, read, answer and write alike.  After `init()`, what is seen of an
object does not depend on what was in it before (`observe_eq`).

The call of `munmap` in `unmap` is not among what is seen: it is made for the null pointer only,
with the size in the file status, which is that of an earlier file when the response has none.
-/

open CString Fallible

namespace WebServer

/-- What happens to the object of a connection.  The accounts, the results of
`mysql_query` and the file system are those that `process` meets. -/
inductive ConnEvent where
  | read (rs : List Recv)
  | process (users : Users) (query : List UInt8 → ℤ) (stat : List UInt8 → Answer)
  | write (os : List Outcome)

/-- What is seen of the object of a connection. -/
inductive Observation where
  /-- What `read` returns, if it does. -/
  | read (ok : Option Bool)
  /-- The code of `process_read`, the path that `do_request` looks up, the statements
  passed to `mysql_query`, and how `process` ends. -/
  | processed (ret : HttpCode) (path : Option (List UInt8)) (queries : List (List UInt8))
      (e : ProcessEnd)
  /-- The bytes that the calls of `writev` are offered, and how `write` ends. -/
  | wrote (offers : List (List UInt8)) (e : Option WriteEnd)
  /-- The program has no behaviour from there on. -/
  | fault (f : Fault)

namespace HttpConn

/-- The bytes that the calls of `writev` in the loop of `write` are offered. -/
def offers (c : HttpConn) : List Outcome → List (List UInt8)
  | [] => []
  | o :: os =>
    c.offered.map c.byteAt ::
      match c.writeRound o with
      | (c, none) => c.offers os
      | (_, some _) => []

end HttpConn

namespace HttpTask

/-- `http_conn::write`. -/
def write (c : HttpTask) (os : List Outcome) : HttpTask × Option WriteEnd :=
  match c.toHttpConn.write os with
  | (conn, some .idle) => ({ c with toHttpConn := conn }.init, some .idle)
  | (conn, some .kept) => ({ c with toHttpConn := conn }.init, some .kept)
  | (conn, e) => ({ c with toHttpConn := conn }, e)

/-- The path that `do_request` passes to `stat` and `open`, if `process_read` comes to
it. -/
def opened (c : HttpTask) (query : List UInt8 → ℤ) : Option (List UInt8) :=
  match c.toParser.processRead with
  | .ok (.doRequest, p) =>
    ({ c with toParser := p }.makePath query).toOption.map HttpTask.path
  | .ok (.returned _, _) | .error _ => none

/-- What happens to an object, and what is seen of it. -/
def handle (c : HttpTask) : ConnEvent → Except Fault (Observation × HttpTask)
  | .read rs =>
    match c.toHttpConn.read rs with
    | some (ok, conn) => .ok (.read (some ok), { c with toHttpConn := conn })
    | none => .ok (.read none, c)
  | .process users query stat => do
    let c := { c with users := users, queries := [] }
    let (ret, d) ← c.processRead query stat
    let (e, conn) ← d.toHttpConn.respond ret
    .ok (.processed ret (c.opened query) d.queries e, { d with toHttpConn := conn })
  | .write os =>
    let (d, e) := c.write os
    .ok (.wrote (if c.bytesToSend = 0 then [] else c.toHttpConn.offers os) e, d)

/-- What is seen of an object along a run. -/
def observe (c : HttpTask) : List ConnEvent → List Observation
  | [] => []
  | e :: es =>
    match c.handle e with
    | .error f => [.fault f]
    | .ok (o, d) => o :: d.observe es

/-- An object behind `init(fd, address)`, or behind the `init()` that `write` calls. -/
inductive Begins : HttpTask → Prop
  | accepted (c : HttpTask) (fd : ℕ) : Begins { c.init with sockfd := some fd }
  | kept {c d : HttpTask} {os : List Outcome} {e : WriteEnd} : c.write os = (d, some e) →
      e = .kept ∨ e = .idle → Begins d

end HttpTask

namespace HttpConn

/-! ### Objects that are alike -/

/-- Two objects are the same but for the socket, the `iovec`s that are not in use, and the
file status unless `sized` says so. -/
structure Alike (sized : Prop) (c d : HttpConn) : Prop where
  toParser : d.toParser = c.toParser
  writeBuff : d.writeBuff = c.writeBuff
  writeIndex : d.writeIndex = c.writeIndex
  bytesToSend : d.bytesToSend = c.bytesToSend
  bytesHaveSend : d.bytesHaveSend = c.bytesHaveSend
  fileAddress : d.fileAddress = c.fileAddress
  fileSize : sized → d.fileSize = c.fileSize
  vectors : c.bytesToSend ≠ 0 →
    d.iv₀ = c.iv₀ ∧ d.ivCount = c.ivCount ∧ (c.ivCount ≠ 1 → d.iv₁ = c.iv₁)

theorem Alike.imp {sized sized' : Prop} {c d : HttpConn} (h : Alike sized c d)
    (hsized : sized' → sized) :
  Alike sized' c d
  := { h with fileSize := fun hs => h.fileSize (hsized hs) }

/-- `init()` makes any two objects alike. -/
theorem init_alike (c d : HttpConn) :
  Alike False c.init d.init
  where
  toParser := rfl
  writeBuff := rfl
  writeIndex := rfl
  bytesToSend := rfl
  bytesHaveSend := rfl
  fileAddress := rfl
  fileSize := False.elim
  vectors := fun h => absurd rfl h

section Responses

variable {sized : Prop} {c d : HttpConn}

/-- Two calls that return the same and leave objects that are alike. -/
def Answers (sized : Prop) {β : Type} (r r' : β × HttpConn) : Prop :=
  r.1 = r'.1 ∧ Alike sized r.2 r'.2

theorem addResponse_alike (h : Alike sized c d) (text : List UInt8) :
  Related (Answers sized) (c.addResponse text) (d.addResponse text)
  := by
  rw [addResponse, addResponse, h.writeIndex, h.writeBuff]
  split
  · exact .ok ⟨rfl, h⟩
  · split
    · exact .error _
    · dsimp only
      split
      · exact .ok ⟨rfl, { h with writeBuff := rfl, writeIndex := rfl }⟩
      · exact .ok ⟨rfl, { h with writeBuff := rfl, writeIndex := rfl }⟩

theorem addHeaders_alike (h : Alike sized c d) (contentLen : ℤ) :
  Related (Answers sized) (c.addHeaders contentLen) (d.addHeaders contentLen)
  := by
  apply (addResponse_alike h _).bind
  rintro ⟨ok₁, c₁⟩ ⟨_, d₁⟩ ⟨rfl, h₁⟩
  cases ok₁ with
  | false => exact .ok ⟨rfl, h₁⟩
  | true =>
      have hlinger := addResponse_alike h₁
        (ascii ("Connection:" ++ (if c₁.linger then "keep-alive" else "close") ++ "\r\n"))
      have hd₁ : d₁.addLinger = d₁.addResponse
          (ascii ("Connection:" ++ (if c₁.linger then "keep-alive" else "close") ++ "\r\n")) := by
        rw [addLinger, h₁.toParser]
      change Related _ (c₁.addLinger >>= _) (d₁.addLinger >>= _)
      rw [hd₁]
      apply hlinger.bind
      rintro ⟨ok₂, c₂⟩ ⟨_, d₂⟩ ⟨rfl, h₂⟩
      cases ok₂ with
      | false => exact .ok ⟨rfl, h₂⟩
      | true => exact addResponse_alike h₂ _

theorem useWriteBuff_alike (h : Alike sized c d) :
  Alike sized c.useWriteBuff d.useWriteBuff
  where
  toParser := h.toParser
  writeBuff := h.writeBuff
  writeIndex := h.writeIndex
  bytesToSend := congrArg Nat.cast h.writeIndex
  bytesHaveSend := h.bytesHaveSend
  fileAddress := h.fileAddress
  fileSize := h.fileSize
  vectors := by
    intro _
    refine ⟨?_, rfl, fun hone => absurd rfl hone⟩
    rw [useWriteBuff, h.writeIndex]
    rfl

theorem useFile_alike (h : Alike sized c d) (hsized : sized) :
  Alike sized c.useFile d.useFile
  where
  toParser := h.toParser
  writeBuff := h.writeBuff
  writeIndex := h.writeIndex
  bytesToSend := by
    rw [useFile_bytesToSend, useFile_bytesToSend, h.writeIndex, h.fileSize hsized]
  bytesHaveSend := h.bytesHaveSend
  fileAddress := h.fileAddress
  fileSize := h.fileSize
  vectors := by
    intro _
    rw [useFile, useFile, h.writeIndex, h.fileSize hsized]
    exact ⟨rfl, rfl, fun _ => rfl⟩

theorem respondError_alike (h : Alike sized c d) (status : ℕ) (title form : String) :
  Related (Answers sized) (c.respondError status title form) (d.respondError status title form)
  := by
  have herror : Related (Answers sized) (c.addError status title form)
      (d.addError status title form) := by
    apply (addResponse_alike h _).bind
    rintro ⟨ok₁, c₁⟩ ⟨_, d₁⟩ ⟨rfl, h₁⟩
    apply (addHeaders_alike h₁ _).bind
    rintro ⟨ok₂, c₂⟩ ⟨_, d₂⟩ ⟨rfl, h₂⟩
    apply addResponse_alike h₂
  apply herror.bind
  rintro ⟨ok, c'⟩ ⟨_, d'⟩ ⟨rfl, h'⟩
  cases ok with
  | false => exact .ok ⟨rfl, h'⟩
  | true => exact .ok ⟨rfl, useWriteBuff_alike h'⟩

/-- `process_write` looks at the file status only for `FILE_REQUEST`. -/
theorem processWrite_alike {ret : HttpCode} (h : Alike (ret = .fileRequest) c d) :
  Related (Answers (ret = .fileRequest)) (c.processWrite ret) (d.processWrite ret)
  := by
  cases ret with
  | internalError => exact respondError_alike h _ _ _
  | badRequest => exact respondError_alike h _ _ _
  | forbiddenRequest => exact respondError_alike h _ _ _
  | fileRequest =>
      apply (addResponse_alike h _).bind
      rintro ⟨ok₁, c₁⟩ ⟨_, d₁⟩ ⟨rfl, h₁⟩
      dsimp only at h₁ ⊢
      rw [h₁.fileSize rfl]
      split
      · apply (addHeaders_alike h₁ _).bind
        rintro ⟨ok₂, c₂⟩ ⟨_, d₂⟩ ⟨rfl, h₂⟩
        exact .ok ⟨rfl, useFile_alike h₂ rfl⟩
      · apply (addHeaders_alike h₁ _).bind
        rintro ⟨ok₂, c₂⟩ ⟨_, d₂⟩ ⟨rfl, h₂⟩
        apply (addResponse_alike h₂ _).bind
        rintro ⟨ok₃, c₃⟩ ⟨_, d₃⟩ ⟨rfl, h₃⟩
        exact .ok ⟨rfl, h₃⟩
  | noRequest | getRequest | noResource | closedConnection => exact .ok ⟨rfl, h⟩

theorem respond_alike {ret : HttpCode} (h : Alike (ret = .fileRequest) c d) :
  Related (Answers False) (c.respond ret) (d.respond ret)
  := by
  rw [respond, respond]
  split
  · exact .ok ⟨rfl, h.imp False.elim⟩
  · apply (processWrite_alike h).bind
    rintro ⟨ok, c'⟩ ⟨_, d'⟩ ⟨rfl, h'⟩
    exact .ok ⟨rfl, h'.imp False.elim⟩

/-- `do_request` writes the file status that `process_write` looks at. -/
theorem doRequest_alike (h : Alike False c d) (answer : Answer) :
  (c.doRequest answer).1 = (d.doRequest answer).1 ∧
    Alike ((c.doRequest answer).1 = .fileRequest) (c.doRequest answer).2 (d.doRequest answer).2
  := by
  cases answer with
  | missing => exact ⟨rfl, h.imp nofun⟩
  | unreadable size => exact ⟨rfl, { h with fileSize := fun _ => rfl }⟩
  | directory size => exact ⟨rfl, { h with fileSize := fun _ => rfl }⟩
  | file size content => exact ⟨rfl, { h with fileSize := fun _ => rfl, fileAddress := rfl }⟩

end Responses

/-! ### `read` and `write` -/

section Transfers

variable {c d : HttpConn}

/-- What is offered are the same bytes, as long as there is something to send. -/
theorem Alike.offered (h : Alike False c d) (hsend : c.bytesToSend ≠ 0) :
  d.offered.map d.byteAt = c.offered.map c.byteAt
  := by
  obtain ⟨hiv₀, hcount, hiv₁⟩ := h.vectors hsend
  have hoffered : d.offered = c.offered := by
    rw [HttpConn.offered, HttpConn.offered, hiv₀, hcount]
    by_cases hone : c.ivCount = 1
    · rw [hone]
      rfl
    · rw [hiv₁ hone]
  have hbyte : d.byteAt = c.byteAt := by
    funext a
    cases a with
    | writeBuff offset => exact congrFun h.writeBuff offset
    | file offset => rw [byteAt, byteAt, h.fileAddress]
  rw [hoffered, hbyte]

theorem Alike.unmap (h : Alike False c d) :
  Alike False c.unmap d.unmap
  := by
  rw [HttpConn.unmap, HttpConn.unmap, h.fileAddress]
  split
  · exact { h with fileAddress := rfl }
  · exact h

/-- The bytes that are taken move the `iovec`s alike. -/
theorem Alike.adjust (h : Alike False c d) (hsend : c.bytesToSend ≠ 0) (k : ℕ) :
  Alike False (c.count k).adjust (d.count k).adjust
  := by
  obtain ⟨hiv₀, hcount, hiv₁⟩ := h.vectors hsend
  have hsent : (d.count k).bytesHaveSend = (c.count k).bytesHaveSend :=
    congrArg (· + k) h.bytesHaveSend
  have hto : (d.count k).bytesToSend = (c.count k).bytesToSend :=
    congrArg (· - (k : ℤ)) h.bytesToSend
  have hlen : (d.count k).iv₀ = (c.count k).iv₀ := hiv₀
  have hindex : (d.count k).writeIndex = (c.count k).writeIndex := h.writeIndex
  rw [HttpConn.adjust, HttpConn.adjust, hsent, hto, hlen, hindex]
  split
  · exact { h with
      bytesToSend := rfl
      bytesHaveSend := rfl
      writeIndex := rfl
      vectors := fun _ => ⟨rfl, hcount, fun _ => rfl⟩ }
  · exact { h with
      bytesToSend := rfl
      bytesHaveSend := rfl
      writeIndex := rfl
      vectors := fun _ => ⟨rfl, hcount, hiv₁⟩ }

theorem Alike.writeRound (h : Alike False c d) (hsend : c.bytesToSend ≠ 0) (o : Outcome) :
  (d.writeRound o).2 = (c.writeRound o).2 ∧ Alike False (c.writeRound o).1 (d.writeRound o).1
  := by
  cases o with
  | again => exact ⟨rfl, h⟩
  | error => exact ⟨rfl, h.unmap⟩
  | accepted k =>
      have hadjust := h.adjust hsend k
      have hunmap := hadjust.unmap
      rw [HttpConn.writeRound, HttpConn.writeRound]
      dsimp only
      rw [hadjust.bytesToSend, hunmap.toParser]
      split
      · split
        · exact ⟨rfl, init_alike _ _⟩
        · exact ⟨rfl, hunmap⟩
      · exact ⟨rfl, hadjust⟩

theorem Alike.writeLoop (h : Alike False c d) (hsend : c.bytesToSend ≠ 0) (os : List Outcome) :
  d.offers os = c.offers os ∧ (d.writeLoop os).2 = (c.writeLoop os).2 ∧
    Alike False (c.writeLoop os).1 (d.writeLoop os).1
  := by
  induction os generalizing c d with
  | nil => exact ⟨rfl, rfl, h⟩
  | cons o os ih =>
      obtain ⟨hend, hround⟩ := h.writeRound hsend o
      rw [offers, offers, h.offered hsend, HttpConn.writeLoop, HttpConn.writeLoop]
      rcases hc : c.writeRound o with ⟨c', e⟩
      rcases hd : d.writeRound o with ⟨d', e'⟩
      rw [hc, hd] at hend hround
      obtain rfl : e' = e := hend
      cases e' with
      | none =>
          obtain ⟨k, -, hlt, rfl⟩ := writeRound_eq_none hc
          have hmore : (c.count k).adjust.bytesToSend ≠ 0 := by
            rw [(adjust_frame (c.count k)).2.2.2]
            change c.bytesToSend - k ≠ 0
            omega
          obtain ⟨hoffers, hrest⟩ := ih hround hmore
          dsimp only
          rw [hoffers]
          exact ⟨rfl, hrest⟩
      | some e => exact ⟨rfl, rfl, hround⟩

theorem Alike.write (h : Alike False c d) (os : List Outcome) :
  (d.write os).2 = (c.write os).2 ∧ Alike False (c.write os).1 (d.write os).1
  := by
  rw [HttpConn.write, HttpConn.write, h.bytesToSend]
  split
  · exact ⟨rfl, init_alike _ _⟩
  next hsend => exact (h.writeLoop hsend os).2

theorem Alike.readLoop (h : Alike False c d) (rs : List Recv) :
  (c.readLoop rs = none ∧ d.readLoop rs = none) ∨
    ∃ ok c' d', c.readLoop rs = some (ok, c') ∧ d.readLoop rs = some (ok, d') ∧
      Alike False c' d'
  := by
  induction rs generalizing c d with
  | nil => exact .inl ⟨rfl, rfl⟩
  | cons r rs ih =>
      cases r with
      | bytes bs =>
          rw [HttpConn.readLoop, HttpConn.readLoop, h.toParser]
          split
          · apply ih
            exact { h with toParser := rfl }
          · exact .inl ⟨rfl, rfl⟩
      | again => exact .inr ⟨true, c, d, rfl, rfl, h⟩
      | error => exact .inr ⟨false, c, d, rfl, rfl, h⟩
      | closed => exact .inr ⟨false, c, d, rfl, rfl, h⟩

theorem Alike.read (h : Alike False c d) (rs : List Recv) :
  (c.read rs = none ∧ d.read rs = none) ∨
    ∃ ok c' d', c.read rs = some (ok, c') ∧ d.read rs = some (ok, d') ∧ Alike False c' d'
  := by
  rw [HttpConn.read, HttpConn.read, h.toParser]
  split
  · exact .inr ⟨false, c, d, rfl, rfl, h⟩
  · apply h.readLoop

end Transfers

end HttpConn

namespace HttpTask

/-! ### `do_request` -/

/-- The object with the fields of another one that are not the parser's. -/
def onto (k : HttpConn) (c : HttpTask) : HttpTask :=
  { c with toHttpConn := { k with toParser := c.toParser } }

section Onto

variable (k : HttpConn) (c : HttpTask)

theorem setUrl_onto (u : ℕ) (page : String) :
  (c.onto k).setUrl u page = (c.setUrl u page).map (onto k)
  := by
  rw [setUrl, setUrl]
  dsimp only [onto]
  cases c.toParser.storeAll u (ascii page ++ [0]) with
  | error f => rfl
  | ok p => rfl

theorem register_onto (query : List UInt8 → ℤ) (u : ℕ) (name password : List UInt8) :
  (c.onto k).register query u name password = (c.register query u name password).map (onto k)
  := by
  rw [register, register]
  dsimp only
  split
  · rfl
  · have hsetUrl (queries : List (List UInt8)) :=
      let r := c.users.register name password (query (sqlInsert name password))
      setUrl_onto k { c with users := r.2, queries := queries } u r.1
    by_cases hname : c.users name = none
    · have hname' : (c.onto k).users name = none := hname
      rw [if_pos hname, if_pos hname']
      apply hsetUrl
    · have hname' : (c.onto k).users name ≠ none := hname
      rw [if_neg hname, if_neg hname']
      apply hsetUrl

theorem form_onto :
  (c.onto k).form = c.form
  := rfl

theorem credentials_onto (query : List UInt8 → ℤ) (u p : ℕ) :
  (c.onto k).credentials query u p = (c.credentials query u p).map (onto k)
  := by
  rw [credentials, credentials]
  dsimp only
  by_cases hurl : 200 < (ascii "/" ++ c.text (u + 2)).length + 1
  · have hurl' : 200 < (ascii "/" ++ (c.onto k).text (u + 2)).length + 1 := hurl
    rw [if_pos hurl, if_pos hurl']
    rfl
  · have hurl' : ¬ 200 < (ascii "/" ++ (c.onto k).text (u + 2)).length + 1 := hurl
    rw [if_neg hurl, if_neg hurl']
    dsimp only [onto]
    generalize strncpy c.realFile docRoot.length (ascii "/" ++ c.text (u + 2))
      (realFileSize - docRoot.length - 1) = m
    have hform := form_onto k { c with realFile := m }
    change (onto k { c with realFile := m }).form >>= _ = _
    rw [hform]
    cases ({ c with realFile := m } : HttpTask).form with
    | error f => rfl
    | ok r =>
        obtain ⟨name, password⟩ := r
        rw [ok_bind, ok_bind]
        dsimp only
        by_cases hflag : c.readBuf (p + 1) = 51
        · rw [if_pos hflag]
          refine (if_pos hflag).trans ?_
          exact register_onto k { c with realFile := m } query u name password
        · rw [if_neg hflag]
          refine (if_neg hflag).trans ?_
          exact setUrl_onto k { c with realFile := m } u _

theorem route_onto (u p : ℕ) :
  (c.onto k).route u p = (c.route u p).onto k
  := by
  rw [route, route]
  dsimp only [onto]
  cases digitPage (c.readBuf (p + 1)) with
  | none => rfl
  | some page => rfl

/-- The path that `do_request` makes is one of the request, the accounts and the result of
`mysql_query`. -/
theorem makePath_onto (query : List UInt8 → ℤ) :
  (c.onto k).makePath query = (c.makePath query).map (onto k)
  := by
  rw [makePath, makePath]
  dsimp only [onto]
  cases c.url with
  | none => rfl
  | some u =>
      dsimp only
      cases strrchr c.readBuf readBuffSize u 47 with
      | none => rfl
      | some p =>
          dsimp only
          by_cases hcredentials : c.rooted.hasCredentials p = true
          · refine (if_pos hcredentials).trans ?_
            refine Eq.trans ?_ (congrArg (Except.map (onto k)) (if_pos hcredentials).symm)
            change ((c.rooted.onto k).credentials query u p >>= fun d => .ok (d.route u p)) =
              (c.rooted.credentials query u p >>= fun d => .ok (d.route u p)).map (onto k)
            rw [credentials_onto]
            cases c.rooted.credentials query u p with
            | error f => rfl
            | ok d => exact congrArg Except.ok (route_onto k d u p)
          · refine (if_neg hcredentials).trans ?_
            refine Eq.trans ?_ (congrArg (Except.map (onto k)) (if_neg hcredentials).symm)
            exact congrArg Except.ok (route_onto k c.rooted u p)

end Onto

/-- Two objects with connections that are alike, and otherwise the same. -/
structure Twin (sized : Prop) (c d : HttpTask) : Prop where
  conn : HttpConn.Alike sized c.toHttpConn d.toHttpConn
  realFile : d.realFile = c.realFile
  users : d.users = c.users
  queries : d.queries = c.queries

theorem Twin.eq_onto {sized : Prop} {c d : HttpTask} (h : Twin sized c d) :
  d = c.onto d.toHttpConn
  := by
  obtain ⟨k, realFile, users, queries⟩ := d
  obtain ⟨hconn, rfl, rfl, rfl⟩ := h
  rw [onto, ← hconn.toParser]

/-- Two calls that return the same and leave objects that are twins. -/
def Agrees (r r' : HttpCode × HttpTask) : Prop :=
  r.1 = r'.1 ∧ Twin (r.1 = .fileRequest) r.2 r'.2

theorem Twin.makePath {c d : HttpTask} (h : Twin False c d) (query : List UInt8 → ℤ) :
  Related (Twin False) (c.makePath query) (d.makePath query)
  := by
  have hleft := makePath_onto d.toHttpConn c query
  rw [← h.eq_onto] at hleft
  rw [hleft]
  cases hpath : c.makePath query with
  | error f => exact .error f
  | ok c' =>
      refine .ok ⟨?_, rfl, rfl, rfl⟩
      rw [makePath_toHttpConn hpath]
      exact { h.conn with toParser := rfl }

theorem Twin.path {sized : Prop} {c d : HttpTask} (h : Twin sized c d) :
  d.path = c.path
  := by
  rw [HttpTask.path, HttpTask.path, h.realFile]

theorem Twin.doRequest {c d : HttpTask} (h : Twin False c d) (query : List UInt8 → ℤ)
    (stat : List UInt8 → Answer) :
  Related Agrees (c.doRequest query stat) (d.doRequest query stat)
  := by
  refine Related.bind (h.makePath query) fun a b hab => ?_
  obtain ⟨hret, hfile⟩ := HttpConn.doRequest_alike hab.conn (stat a.path)
  rw [hab.path]
  exact .ok ⟨hret, hfile, hab.realFile, hab.users, hab.queries⟩

theorem Twin.processRead {c d : HttpTask} (h : Twin False c d) (query : List UInt8 → ℤ)
    (stat : List UInt8 → Answer) :
  Related Agrees (c.processRead query stat) (d.processRead query stat)
  := by
  rw [HttpTask.processRead, HttpTask.processRead, h.conn.toParser]
  cases hread : c.toParser.processRead with
  | error f => exact .error f
  | ok r =>
      obtain ⟨e, p⟩ := r
      have htwin : Twin False { c with toParser := p } { d with toParser := p } :=
        { h with conn := { h.conn with toParser := rfl } }
      cases e with
      | returned ret =>
          have hret : ret ≠ .fileRequest := by
            rintro rfl
            rcases Parser.processRead_exit hread with hexit | hexit | hexit
            · cases hexit
            · cases hexit
            · cases hexit
          exact .ok ⟨rfl, { htwin with conn := htwin.conn.imp hret }⟩
      | doRequest => exact htwin.doRequest query stat

theorem Twin.opened {c d : HttpTask} (h : Twin False c d) (query : List UInt8 → ℤ) :
  d.opened query = c.opened query
  := by
  rw [HttpTask.opened, HttpTask.opened, h.conn.toParser]
  split
  next p _ =>
    have htwin : Twin False { c with toParser := p } { d with toParser := p } :=
      { h with conn := { h.conn with toParser := rfl } }
    rw [htwin.eq_onto, makePath_onto]
    cases ({ c with toParser := p } : HttpTask).makePath query with
    | error f => rfl
    | ok c' => rfl
  next => rfl
  next => rfl

/-! ### Runs -/

/-- Two objects that are handled alike, whatever the accounts are. -/
structure Matched (c d : HttpTask) : Prop where
  conn : HttpConn.Alike False c.toHttpConn d.toHttpConn
  realFile : d.realFile = c.realFile

theorem Matched.write {c d : HttpTask} (h : Matched c d) (os : List Outcome) :
  (d.write os).2 = (c.write os).2 ∧ Matched (c.write os).1 (d.write os).1
  := by
  obtain ⟨hend, hconn⟩ := h.conn.write os
  rw [HttpTask.write, HttpTask.write]
  rcases hc : c.toHttpConn.write os with ⟨c', e⟩
  rcases hd : d.toHttpConn.write os with ⟨d', e'⟩
  rw [hc, hd] at hend hconn
  obtain rfl : e' = e := hend
  rcases e' with _ | e
  · exact ⟨rfl, hconn, h.realFile⟩
  · cases e with
    | idle => exact ⟨rfl, HttpConn.init_alike _ _, rfl⟩
    | kept => exact ⟨rfl, HttpConn.init_alike _ _, rfl⟩
    | again => exact ⟨rfl, hconn, h.realFile⟩
    | failed => exact ⟨rfl, hconn, h.realFile⟩
    | closing => exact ⟨rfl, hconn, h.realFile⟩

theorem Matched.handle {c d : HttpTask} (h : Matched c d) (e : ConnEvent) :
  Related (fun r r' => r.1 = r'.1 ∧ Matched r.2 r'.2) (c.handle e) (d.handle e)
  := by
  cases e with
  | read rs =>
      rw [HttpTask.handle, HttpTask.handle]
      rcases h.conn.read rs with ⟨hc, hd⟩ | ⟨ok, c', d', hc, hd, hconn⟩
      · rw [hc, hd]
        exact .ok ⟨rfl, h⟩
      · rw [hc, hd]
        exact .ok ⟨rfl, hconn, h.realFile⟩
  | process users query stat =>
      have htwin : Twin False { c with users := users, queries := [] }
          { d with users := users, queries := [] } := ⟨h.conn, h.realFile, rfl, rfl⟩
      rw [HttpTask.handle, HttpTask.handle]
      dsimp only
      rw [htwin.opened query]
      apply (htwin.processRead query stat).bind
      rintro ⟨ret, c'⟩ ⟨_, d'⟩ ⟨rfl, hread⟩
      apply (HttpConn.respond_alike hread.conn).bind
      rintro ⟨e, c''⟩ ⟨_, d''⟩ ⟨rfl, hconn⟩
      have hqueries : d'.queries = c'.queries := hread.queries
      dsimp only
      rw [hqueries]
      exact .ok ⟨rfl, hconn, hread.realFile⟩
  | write os =>
      obtain ⟨hend, hmatched⟩ := h.write os
      rw [HttpTask.handle, HttpTask.handle]
      dsimp only
      rw [hend, h.conn.bytesToSend]
      by_cases hidle : c.bytesToSend = 0
      · rw [if_pos hidle, if_pos hidle]
        exact .ok ⟨rfl, hmatched⟩
      · rw [if_neg hidle, if_neg hidle, (h.conn.writeLoop hidle os).1]
        exact .ok ⟨rfl, hmatched⟩

theorem observe_cons {c d : HttpTask} {e : ConnEvent} {o : Observation}
    (h : c.handle e = .ok (o, d)) (es : List ConnEvent) :
  c.observe (e :: es) = o :: d.observe es
  := by
  rw [HttpTask.observe, h]

theorem observe_cons_error {c : HttpTask} {e : ConnEvent} {f : Fault} (h : c.handle e = .error f)
    (es : List ConnEvent) :
  c.observe (e :: es) = [.fault f]
  := by
  rw [HttpTask.observe, h]

/-- What is seen of two objects that match is the same along every run. -/
theorem Matched.observe {c d : HttpTask} (h : Matched c d) (es : List ConnEvent) :
  c.observe es = d.observe es
  := by
  induction es generalizing c d with
  | nil => rfl
  | cons e es ih =>
      have hhandle := h.handle e
      rw [HttpTask.observe, HttpTask.observe]
      generalize c.handle e = x at hhandle ⊢
      generalize d.handle e = y at hhandle ⊢
      cases hhandle with
      | error f => rfl
      | @ok r r' hr =>
          obtain ⟨hsame, hmatched⟩ := hr
          dsimp only
          rw [hsame, ih hmatched]

/-- An object behind `init()` is as `init()` makes it. -/
theorem Begins.init_eq {c : HttpTask} (h : Begins c) :
  c.init = c
  := by
  cases h with
  | accepted c fd => rfl
  | kept hwrite hend =>
      rw [write] at hwrite
      split at hwrite
      · cases hwrite
        rfl
      · cases hwrite
        rfl
      next hidle hkept _ =>
        cases hwrite
        rcases hend with rfl | rfl
        · exact (hkept rfl).elim
        · exact (hidle rfl).elim

/-- After `init()`, what is seen of an object does not depend on what was in it before. -/
theorem observe_eq {c d : HttpTask} (hc : Begins c) (hd : Begins d) (es : List ConnEvent) :
  c.observe es = d.observe es
  := by
  have hmatched : Matched c.init d.init := ⟨HttpConn.init_alike _ _, rfl⟩
  rw [hc.init_eq, hd.init_eq] at hmatched
  apply hmatched.observe

/-- The object of a kept-alive connection with the response for a file prepared. -/
def answering : HttpTask :=
  { idle with toHttpConn := { Sending.prepared 3 with linger := true } }

/-- A connection that was kept alive is handled as a new one. -/
theorem observe_eq_answering :
  ({ idle.init with sockfd := some 5 } : HttpTask).observe
      [.read [.bytes (ascii "GET /x HTTP/1.1\r\n\r\n"), .again],
        .process (fun _ => none) (fun _ => 0) filesOnly, .write [.accepted 60]] =
    (answering.write [.accepted 58]).1.observe
      [.read [.bytes (ascii "GET /x HTTP/1.1\r\n\r\n"), .again],
        .process (fun _ => none) (fun _ => 0) filesOnly, .write [.accepted 60]]
  := by
  have hend : (answering.write [.accepted 58]).2 = some .kept := by
    decide +kernel
  apply observe_eq (.accepted idle 5) (.kept (c := answering) (Prod.ext rfl hend) (.inl rfl))

end HttpTask

end WebServer
