import WebServer.Http.DoRequest

/-!
# Requests that are answered

A request that is complete is answered when `process` arms the descriptor for writing with
a response that is prepared.  The texts of `process_write` fit into the write buffer, so it
prepares a response for every file that is not empty and for every error it has a case for.
It has none for `NO_RESOURCE`, and the case of the empty file runs on into the `default`:
a request is answered exactly when the file it names is there and is not an empty file
(`answered_iff`).
-/

open CString Fallible

namespace WebServer

namespace HttpConn

/-! ### The texts of `process_write` -/

/-- The connection `c'` is `c` with at most `n` bytes added to the write buffer. -/
structure Wrote (c : HttpConn) (n : ℕ) (c' : HttpConn) : Prop where
  filled : Filled c c'
  le : c.writeIndex ≤ c'.writeIndex
  room : c'.writeIndex ≤ c.writeIndex + n

theorem Wrote.trans {c c' c'' : HttpConn} {n n' : ℕ} (h : Wrote c n c') (h' : Wrote c' n' c'') :
  Wrote c (n + n') c''
  := by
  have hroom := h.room
  have hroom' := h'.room
  exact ⟨h.filled.trans h'.filled, h.le.trans h'.le, by omega⟩

theorem Wrote.fileSize {c c' : HttpConn} {n : ℕ} (h : Wrote c n c') :
  c'.fileSize = c.fileSize
  := by
  have hfield := congrArg HttpConn.fileSize h.filled
  exact hfield

/-- A text that fits is added. -/
theorem addResponse_eq_ok (c : HttpConn) {text : List UInt8} {n : ℕ} (hn : text.length ≤ n)
    (hroom : c.writeIndex + n < writeBuffSize) :
  ∃ c', c.addResponse text = .ok (true, c') ∧ Wrote c n c' ∧
    c'.writeIndex = c.writeIndex + text.length
  := by
  rw [addResponse, if_neg (by omega), if_neg (by omega)]
  dsimp only
  rw [if_neg (by omega)]
  exact ⟨_, rfl, ⟨rfl, Nat.le_add_right _ _, Nat.add_le_add_left hn _⟩, rfl⟩

theorem length_ascii (s : String) :
  (ascii s).length = s.length
  := by
  rw [ascii, List.length_map, String.length_toList]

/-- The decimal digits of a length that is an `int`. -/
theorem length_toString {n : ℕ} (h : n < 2 ^ 31) :
  (toString (n : ℤ)).length ≤ 10
  := by
  change (Nat.repr n).length ≤ 10
  apply Nat.repr_length n 10 (by decide)
  omega

/-- The headers of a response fit. -/
theorem addHeaders_eq_ok (c : HttpConn) {n : ℕ} (hn : n < 2 ^ 31)
    (hroom : c.writeIndex + 52 < writeBuffSize) :
  ∃ c', c.addHeaders n = .ok (true, c') ∧ Wrote c 52 c'
  := by
  have hlength : (ascii ("Content-Length:" ++ toString (n : ℤ) ++ "\r\n")).length ≤ 27 := by
    have hdigits := length_toString hn
    have hname : ("Content-Length:" : String).length = 15 := rfl
    have hend : ("\r\n" : String).length = 2 := rfl
    rw [length_ascii, String.length_append, String.length_append]
    omega
  have hlinger (linger : Bool) :
      (ascii ("Connection:" ++ (if linger then "keep-alive" else "close") ++ "\r\n")).length
        ≤ 23 := by
    cases linger with
    | false => decide
    | true => decide
  have hblank : (ascii "\r\n").length ≤ 2 := by decide
  obtain ⟨c₁, h₁, hw₁, -⟩ := c.addResponse_eq_ok hlength (by omega)
  have hroom₁ := hw₁.room
  obtain ⟨c₂, h₂, hw₂, -⟩ := c₁.addResponse_eq_ok (hlinger c₁.linger) (by omega)
  have hroom₂ := hw₂.room
  obtain ⟨c₃, h₃, hw₃, -⟩ := c₂.addResponse_eq_ok hblank (by omega)
  refine ⟨c₃, ?_, (hw₁.trans hw₂).trans hw₃⟩
  rw [addHeaders, addContentLength, h₁, ok_bind]
  change (c₁.addLinger >>= _) = _
  rw [addLinger, h₂, ok_bind]
  exact h₃

/-- The text of a status line. -/
theorem length_statusLine_pos (status : ℕ) (title : String) :
  0 < (ascii ("HTTP/1.1 " ++ toString status ++ " " ++ title ++ "\r\n")).length
  := by
  have hend : ("\r\n" : String).length = 2 := rfl
  rw [length_ascii, String.length_append]
  omega

/-- The status line and the headers of a response fit. -/
theorem head_eq_ok {c : HttpConn} (hc : c.writeIndex = 0) {status : ℕ} {title : String}
    (hstatus : (ascii ("HTTP/1.1 " ++ toString status ++ " " ++ title ++ "\r\n")).length ≤ 64)
    {n : ℕ} (hn : n < 2 ^ 31) :
  ∃ c₁ c₂, c.addStatusLine status title = .ok (true, c₁) ∧ c₁.addHeaders n = .ok (true, c₂) ∧
    Wrote c 64 c₁ ∧ Wrote c 116 c₂ ∧ 0 < c₂.writeIndex
  := by
  have hsize : writeBuffSize = 1024 := rfl
  have hpos := length_statusLine_pos status title
  obtain ⟨c₁, h₁, hw₁, hindex⟩ := c.addResponse_eq_ok hstatus (by omega)
  have hroom₁ := hw₁.room
  obtain ⟨c₂, h₂, hw₂⟩ := c₁.addHeaders_eq_ok hn (by omega)
  have hle := hw₂.le
  exact ⟨c₁, c₂, h₁, h₂, hw₁, hw₁.trans hw₂, by omega⟩

/-- A response that is not empty is prepared, and the `iovec`s hold it. -/
structure Ready (c : HttpConn) : Prop where
  prepared : Prepared c
  pos : 0 < c.bytesToSend
  sum : c.bytesToSend = (([c.iv₀, c.iv₁].take c.ivCount).map Iovec.len).sum

/-- An error response is prepared. -/
theorem respondError_ready {c : HttpConn} (hc : c.writeIndex = 0) (hsent : c.bytesHaveSend = 0)
    {status : ℕ} {title form : String}
    (hstatus : (ascii ("HTTP/1.1 " ++ toString status ++ " " ++ title ++ "\r\n")).length ≤ 64)
    (hform : (ascii form).length ≤ 64) :
  ∃ c', c.respondError status title form = .ok (true, c') ∧ Ready c'
  := by
  have hsize : writeBuffSize = 1024 := rfl
  have hlen : form.length ≤ 64 := by
    rwa [length_ascii] at hform
  obtain ⟨c₁, c₂, h₁, h₂, -, hw₂, hpos⟩ :=
    head_eq_ok hc hstatus (n := form.length) (by omega)
  have hroom₂ := hw₂.room
  obtain ⟨c₃, h₃, hw₃, -⟩ := c₂.addResponse_eq_ok hform (by omega)
  have hle := hw₃.le
  have herror : c.addError status title form = .ok (true, c₃) := by
    rw [addError, h₁, ok_bind]
    dsimp only
    rw [h₂, ok_bind]
    exact h₃
  have hrespond : c.respondError status title form = .ok (true, c₃.useWriteBuff) := by
    rw [respondError, herror, ok_bind]
    rfl
  have hprepared : Prepared c₃.useWriteBuff := by
    have hreplied : Replied c c₃.useWriteBuff .badRequest true :=
      respondError_replied hrespond (by decide) (by decide)
    cases hreplied with
    | text hfilled hc' _ _ =>
        rw [hc']
        apply useWriteBuff_prepared (hfilled.bytesHaveSend.trans hsent)
    | file _ _ hret _ => cases hret
  refine ⟨_, hrespond, hprepared, ?_, rfl⟩
  change (0 : ℤ) < c₃.writeIndex
  omega

/-- A response for a file that is not empty is prepared. -/
theorem processWrite_file_ready {c : HttpConn} (hc : c.writeIndex = 0)
    (hsent : c.bytesHaveSend = 0) (hzero : c.fileSize ≠ 0)
    (hfile : c.fileSize < 2 ^ 31 - writeBuffSize) :
  ∃ c', c.processWrite .fileRequest = .ok (true, c') ∧ Ready c'
  := by
  have hsize : writeBuffSize = 1024 := rfl
  have hstatus : (ascii ("HTTP/1.1 " ++ toString 200 ++ " " ++ "OK" ++ "\r\n")).length ≤ 64 := by
    decide
  obtain ⟨c₁, c₂, h₁, h₂, hw₁, hw₂, hpos⟩ := head_eq_ok hc hstatus (n := c.fileSize) (by omega)
  have hroom := hw₂.room
  have hkept := hw₂.fileSize
  have hwrite : c.processWrite .fileRequest = .ok (true, c₂.useFile) := by
    have hint : toInt32 c₁.fileSize = c.fileSize := by
      rw [hw₁.fileSize]
      apply toInt32_of_lt (by omega)
    rw [processWrite, h₁, ok_bind]
    dsimp only
    rw [if_pos (hw₁.fileSize ▸ hzero), hint, h₂, ok_bind]
  have hlen : c₂.useFile.response.length < 2 ^ 31 := by
    rw [← length_addresses, length_addresses_eq]
    change c₂.writeIndex + c₂.fileSize < 2 ^ 31
    omega
  have hsend : c₂.useFile.bytesToSend = (c₂.writeIndex + c₂.fileSize : ℕ) := by
    rw [useFile_bytesToSend, ← Nat.cast_add]
    apply toInt32_of_lt (by omega)
  refine ⟨_, hwrite, processWrite_prepared hsent hwrite hlen, ?_, ?_⟩
  · rw [hsend]
    omega
  · rw [hsend]
    rfl

/-- A connection behind `init()` prepares a response for every code but those without a
case, and but for the empty file. -/
theorem processWrite_ready {c : HttpConn} (hc : c.writeIndex = 0) (hsent : c.bytesHaveSend = 0)
    {ret : HttpCode} (hret : ret = .internalError ∨ ret = .badRequest ∨ ret = .forbiddenRequest ∨
      ret = .fileRequest ∧ c.fileSize ≠ 0 ∧ c.fileSize < 2 ^ 31 - writeBuffSize) :
  ∃ c', c.processWrite ret = .ok (true, c') ∧ Ready c'
  := by
  rcases hret with rfl | rfl | rfl | ⟨rfl, hzero, hfile⟩
  · apply respondError_ready hc hsent (by decide) (by decide)
  · apply respondError_ready hc hsent (by decide) (by decide)
  · apply respondError_ready hc hsent (by decide) (by decide)
  · apply processWrite_file_ready hc hsent hzero hfile

/-- `process_write` has no case for `NO_RESOURCE`, and fails for the empty file. -/
theorem processWrite_eq_true {c c' : HttpConn} {ret : HttpCode}
    (h : c.processWrite ret = .ok (true, c')) :
  ret ≠ .noResource ∧ (ret = .fileRequest → c.fileSize ≠ 0)
  := by
  cases processWrite_replied h with
  | text _ _ hfile hmissing => exact ⟨hmissing, fun hret => absurd hret hfile⟩
  | file _ _ hret hsize =>
      subst hret
      exact ⟨nofun, fun _ => hsize⟩

/-- `do_request` is followed by a response unless the file is missing or empty. -/
theorem doRequest_ready_iff {c : HttpConn} (hindex : c.writeIndex = 0) (hsent : c.bytesHaveSend = 0)
    {answer : Answer}
    (hsize : ∀ size content, answer = .file size content → size < 2 ^ 31 - writeBuffSize) :
  (∃ conn, (c.doRequest answer).2.processWrite (c.doRequest answer).1 = .ok (true, conn) ∧
      Ready conn) ↔
    answer ≠ .missing ∧ ∀ content, answer ≠ .file 0 content
  := by
  cases answer with
  | missing =>
      refine iff_of_false ?_ (fun h => h.1 rfl)
      rintro ⟨conn, hwrite, -⟩
      exact (processWrite_eq_true hwrite).1 rfl
  | unreadable size =>
      refine iff_of_true ?_ ⟨Answer.noConfusion, fun _ => Answer.noConfusion⟩
      apply processWrite_ready (c := { c with fileSize := size }) hindex hsent
        (.inr (.inr (.inl rfl)))
  | directory size =>
      refine iff_of_true ?_ ⟨Answer.noConfusion, fun _ => Answer.noConfusion⟩
      apply processWrite_ready (c := { c with fileSize := size }) hindex hsent (.inr (.inl rfl))
  | file size content =>
      by_cases hzero : size = 0
      · subst hzero
        refine iff_of_false ?_ (fun h => h.2 content rfl)
        rintro ⟨conn, hwrite, -⟩
        exact (processWrite_eq_true hwrite).2 rfl rfl
      · refine iff_of_true ?_ ⟨Answer.noConfusion, ?_⟩
        · apply processWrite_ready (c := { c with fileSize := size, fileAddress := some content })
            hindex hsent (.inr (.inr (.inr ⟨rfl, hzero, hsize _ _ rfl⟩)))
        · rintro content' ⟨⟩
          apply hzero rfl

end HttpConn

/-! ### How `process_read` ends -/

namespace Parser

theorem passOf_eq_exit {state : CheckState} {ret : HttpCode} {e : ReadExit}
    (h : passOf state ret = .exit e) :
  e = .returned .badRequest ∨ e = .doRequest
  := by
  rw [passOf.eq_def] at h
  split at h
  · split at h
    · exact .inl (Pass.exit.inj h).symm
    · cases h
  · split at h
    · exact .inl (Pass.exit.inj h).symm
    · split at h
      · exact .inr (Pass.exit.inj h).symm
      · cases h
  · split at h
    · exact .inr (Pass.exit.inj h).symm
    · cases h

theorem afterPass_exit {c d : Parser} {e : ReadExit}
    (h : afterPass c.readPass = .inr (.ok (e, d))) :
  e = .returned .badRequest ∨ e = .doRequest
  := by
  rw [afterPass.eq_def] at h
  split at h
  · cases h
  · cases h
  · next e' d' hp =>
      cases h
      obtain ⟨⟨ret, c'⟩, -, hp⟩ := bind_eq_ok.mp hp
      apply passOf_eq_exit (Prod.mk.inj (Except.ok.inj hp)).1

/-- A request that is not complete is waited for, and any other one is rejected or handed
to `do_request`. -/
theorem processRead_exit {c d : Parser} {e : ReadExit} (h : c.processRead = .ok (e, d)) :
  e = .returned .noRequest ∨ e = .returned .badRequest ∨ e = .doRequest
  := by
  revert h
  refine Loop.whileLoop_rule readLine_decreases (P := fun _ r => r = .ok (e, d) →
    e = .returned .noRequest ∨ e = .returned .badRequest ∨ e = .doRequest) ?_ ?_ (c, .lineOk)
  · intro s s' r _ hr
    exact hr
  · rintro ⟨c, status⟩ r hr rfl
    rw [readLine] at hr
    split at hr
    · exact .inr (afterPass_exit hr)
    · split at hr
      · cases hr
      · exact .inr (afterPass_exit hr)
      · cases hr
        exact .inl rfl

end Parser

/-! ### What is answered -/

namespace HttpTask

/-- `process` arms the descriptor for writing with a response that is ready. -/
def Answered (c : HttpTask) (query : List UInt8 → ℤ) (stat : List UInt8 → Answer) : Prop :=
  ∃ d, c.process query stat = .ok (.rearm .epollOut, d) ∧ HttpConn.Ready d.toHttpConn

/-- The file that a complete request names is there, and is not an empty file. -/
def Answerable (c : HttpTask) (query : List UInt8 → ℤ) (stat : List UInt8 → Answer) : Prop :=
  ∀ p d, c.toParser.processRead = .ok (.doRequest, p) →
    { c with toParser := p }.makePath query = .ok d →
    stat d.path ≠ .missing ∧ ∀ content, stat d.path ≠ .file 0 content

/-- A request is answered when a response is prepared for it. -/
theorem answered_iff_processWrite {c d : HttpTask} {query : List UInt8 → ℤ}
    {stat : List UInt8 → Answer} {ret : HttpCode} (h : c.processRead query stat = .ok (ret, d))
    (hret : ret ≠ .noRequest) :
  c.Answered query stat ↔
    ∃ conn, d.toHttpConn.processWrite ret = .ok (true, conn) ∧ HttpConn.Ready conn
  := by
  rw [Answered, process, h, ok_bind]
  dsimp only
  rw [HttpConn.respond, if_neg hret]
  constructor
  · rintro ⟨d', hprocess, hready⟩
    obtain ⟨⟨e, conn⟩, hrespond, hprocess⟩ := bind_eq_ok.mp hprocess
    obtain ⟨⟨ok, conn'⟩, hwrite, hrespond⟩ := bind_eq_ok.mp hrespond
    cases ok with
    | false =>
        cases hrespond
        cases hprocess
    | true =>
        cases hrespond
        cases hprocess
        exact ⟨_, hwrite, hready⟩
  · rintro ⟨conn, hwrite, hready⟩
    refine ⟨{ d with toHttpConn := conn }, ?_, hready⟩
    rw [hwrite, ok_bind, ok_bind]
    rfl

theorem answerable_iff {c d : HttpTask} {q : Parser} {query : List UInt8 → ℤ}
    {stat : List UInt8 → Answer} (hq : c.toParser.processRead = .ok (.doRequest, q))
    (hd : { c with toParser := q }.makePath query = .ok d) :
  c.Answerable query stat ↔ stat d.path ≠ .missing ∧ ∀ content, stat d.path ≠ .file 0 content
  := by
  constructor
  · intro h
    apply h q d hq hd
  · intro h q' d' hq' hd'
    obtain rfl := (Prod.mk.inj (Except.ok.inj (hq.symm.trans hq'))).2
    obtain rfl := Except.ok.inj (hd.symm.trans hd')
    exact h

/-- A request that is complete is answered exactly when it is rejected, or the file that
it names is there and is not an empty file. -/
theorem answered_iff (c : HttpTask) (p : Parser) {query : List UInt8 → ℤ}
    {stat : List UInt8 → Answer}
    (hsize : ∀ path size content, stat path = .file size content → size < 2 ^ 31 - writeBuffSize)
    {ret : HttpCode} {d : HttpTask}
    (h : (c.handed p).processRead query stat = .ok (ret, d)) (hret : ret ≠ .noRequest) :
  (c.handed p).Answered query stat ↔ (c.handed p).Answerable query stat
  := by
  rw [answered_iff_processWrite h hret]
  obtain ⟨⟨e, q⟩, he, hrest⟩ := bind_eq_ok.mp h
  rcases Parser.processRead_exit he with rfl | rfl | rfl
  · cases hrest
    apply absurd rfl hret
  · cases hrest
    refine iff_of_true (HttpConn.processWrite_ready rfl rfl (.inr (.inl rfl))) ?_
    intro q' d' hq'
    cases he.symm.trans hq'
  · obtain ⟨d', hd', hrest⟩ := bind_eq_ok.mp hrest
    cases hrest
    rw [answerable_iff he hd']
    have hconn := makePath_toHttpConn hd'
    apply HttpConn.doRequest_ready_iff
    · rw [hconn]
      rfl
    · rw [hconn]
      rfl
    · apply hsize d'.path

/-- A `GET` request was received. -/
def gotten : Parser := Parser.init.receive (ascii "GET /x HTTP/1.1\r\n\r\n")

set_option maxRecDepth 10000 in
theorem answered_iff_gotten :
  (idle.handed gotten).Answered (fun _ => 0) filesOnly
    ↔ (idle.handed gotten).Answerable (fun _ => 0) filesOnly
  := by
  have hret : ((idle.handed gotten).processRead (fun _ => 0) filesOnly).map Prod.fst
      = .ok .fileRequest := by
    decide +kernel
  obtain ⟨d, hd⟩ := exists_of_map_fst hret
  have hsize : ∀ path size content, filesOnly path = .file size content →
      size < 2 ^ 31 - writeBuffSize := by
    rintro path size content ⟨⟩
    decide
  apply answered_iff idle gotten hsize hd (by decide)

set_option maxRecDepth 10000 in
/-- A request for a file that is missing is not answered. -/
theorem not_answered :
  ¬ ∀ (c : HttpTask) (p : Parser) (query : List UInt8 → ℤ) (stat : List UInt8 → Answer)
    (ret : HttpCode) (d : HttpTask),
    (∀ path size content, stat path = .file size content → size < 2 ^ 31 - writeBuffSize) →
      (c.handed p).processRead query stat = .ok (ret, d) → ret ≠ .noRequest →
        (c.handed p).Answered query stat
  := by
  intro h
  have hret : ((idle.handed gotten).processRead (fun _ => 0) fun _ => .missing).map Prod.fst
      = .ok .noResource := by
    decide +kernel
  obtain ⟨d, hd⟩ := exists_of_map_fst hret
  have hanswered := h idle gotten (fun _ => 0) (fun _ => .missing) _ d
    (fun _ _ _ hstat => by cases hstat) hd (by decide)
  obtain ⟨conn, hwrite, -⟩ := (answered_iff_processWrite hd (by decide)).mp hanswered
  exact (HttpConn.processWrite_eq_true hwrite).1 rfl

end HttpTask

end WebServer
