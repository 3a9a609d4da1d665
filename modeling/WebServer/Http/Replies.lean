import WebServer.Lib.Framing
import WebServer.Http.Length

/-!
# Replies

What a client reads of the server are responses one behind the other, and it tells them
apart by their heads: the lines up to the empty one, of which the header `Content-Length`
says how long the body is.  `replies` is that code, and what `process` prepares is a word of
it (`process_replies`): the error for a request that is rejected, and else what the file of
the request makes it say.
-/

open CString Fallible

namespace WebServer

namespace HttpConn

/-- The length that the lines of a head announce. -/
def announcedLength (lines : List (List UInt8)) : Option ℕ :=
  (lines.find? lengthName.isPrefixOf).map fun line => digitsValue (line.drop lengthName.length)

/-- Responses one behind the other. -/
def replies : Framing (Framing.Message UInt8) UInt8 := Framing.message 13 10 announcedLength

/-- A response with a status line, the length of its body and the header `Connection`. -/
def replyOf (status : ℕ) (title : String) (linger : Bool) (body : List UInt8) :
    Framing.Message UInt8 where
  lines := [statusLine status title, lengthName ++ Printf.digits body.length, connection linger]
  body := body

/-- The response to a request that is rejected, or whose file is a directory. -/
def notFound (linger : Bool) : Framing.Message UInt8 :=
  replyOf 404 "Not Found" linger (ascii "The requested file was not found on this server.\n")

/-- The response to a request whose file is not for everybody to read. -/
def forbidden (linger : Bool) : Framing.Message UInt8 :=
  replyOf 403 "Forbidden" linger
    (ascii "You do not have permission to get file form this server.\n")

/-- The response to a request for what `stat` finds.  There is none for a file that is
missing, and none for the empty one. -/
def answerReply (linger : Bool) : Answer → Option (Framing.Message UInt8)
  | .missing => none
  | .unreadable _ => some (forbidden linger)
  | .directory _ => some (notFound linger)
  | .file size content =>
    if size = 0 then none
    else some (replyOf 200 "OK" linger ((List.range size).map fun i : ℕ => content i))

/-- The response that `process` prepares, if it does. -/
def reply (c : HttpConn) (answer : Answer) : Option (Framing.Message UInt8) :=
  match c.processRead with
  | .ok (.returned .badRequest, p) => some (notFound p.linger)
  | .ok (.doRequest, p) => answerReply p.linger answer
  | _ => none

/-! ### The words -/

theorem encode_replyOf (status : ℕ) (title : String) (linger : Bool) (body : List UInt8) :
  replies.encode (replyOf status title linger body) =
    headOf (statusLine status title) [lengthName ++ Printf.digits body.length, connection linger] ++
      body
  := rfl

/-- The length that a response announces is the one of its body. -/
theorem announcedLength_replyOf (status : ℕ) (title : String) (linger : Bool) (body : List UInt8) :
  announcedLength (replyOf status title linger body).lines = some body.length
  := by
  have hstatus : lengthName.isPrefixOf (statusLine status title) = false := by
    rw [statusLine, ascii_append, ascii_append, ascii_append]
    rfl
  have hlength : lengthName.isPrefixOf (lengthName ++ Printf.digits body.length) = true :=
    List.isPrefixOf_iff_prefix.mpr (List.prefix_append _ _)
  rw [announcedLength, replyOf, List.find?_cons_of_neg (by rw [hstatus]; exact Bool.false_ne_true),
    List.find?_cons_of_pos hlength, Option.map_some, List.drop_left, Printf.digitsValue_digits]

/-- A response whose status line is a line is a word. -/
theorem replyOf_valid {status : ℕ} {title : String}
    (hstatus : 13 ∉ statusLine status title) (linger : Bool) (body : List UInt8) :
  replies.Valid (replyOf status title linger body)
  := by
  have hne : statusLine status title ≠ [] := by
    intro hnil
    have hversion := version_prefix status title
    rw [hnil, List.prefix_nil] at hversion
    cases hversion
  refine ⟨?_, announcedLength_replyOf status title linger body⟩
  rw [replyOf, List.forall_mem_cons, List.forall_mem_cons, List.forall_mem_singleton]
  have hlength := lengthName_digits body.length
  have hconnection := (connection_line linger).1
  exact ⟨⟨hne, hstatus⟩, ⟨hlength.1, hlength.2.1⟩, hconnection.1, hconnection.2.1⟩

theorem answerReply_valid {linger : Bool} {answer : Answer} {m : Framing.Message UInt8}
    (h : answerReply linger answer = some m) :
  replies.Valid m
  := by
  cases answer with
  | missing => cases h
  | unreadable size =>
      cases h
      apply replyOf_valid (by decide)
  | directory size =>
      cases h
      apply replyOf_valid (by decide)
  | file size content =>
      rw [answerReply] at h
      split at h
      · cases h
      · cases h
        apply replyOf_valid (by decide)

/-- What `process` prepares is a word. -/
theorem reply_valid {c : HttpConn} {answer : Answer} {m : Framing.Message UInt8}
    (h : c.reply answer = some m) :
  replies.Valid m
  := by
  rw [reply] at h
  split at h
  · cases h
    apply replyOf_valid (by decide)
  · apply answerReply_valid h
  · cases h

/-! ### What `process` prepares -/

/-- Nothing is to be sent, and nothing was sent since `init()`. -/
structure Fresh (c : HttpConn) : Prop where
  writeIndex : c.writeIndex = 0
  bytesHaveSend : c.bytesHaveSend = 0
  bytesToSend : c.bytesToSend = 0

theorem init_fresh (c : HttpConn) :
  Fresh c.init
  := ⟨rfl, rfl, rfl⟩

/-- A response is prepared that is the word `m`. -/
structure Prepares (m : Framing.Message UInt8) (c : HttpConn) : Prop where
  rest : Rest c c
  bytesHaveSend : c.bytesHaveSend = 0
  response : c.response = replies.encode m

/-- What is offered at first is the response. -/
theorem Replied.response {c c' : HttpConn} {ret : HttpCode} (h : Replied c c' ret true) :
  c'.response = c'.offeredBytes
  := by
  cases h with
  | @text d _ hc' _ _ =>
      subst hc'
      rw [useWriteBuff_offered]
      exact List.append_nil d.header
  | @file d _ hc' _ _ =>
      subst hc'
      rw [useFile_offered]
      rfl

/-- A response that is ready is one that can be sent. -/
theorem Ready.prepares {c : HttpConn} (h : Ready c) {m : Framing.Message UInt8}
    (hresponse : c.response = replies.encode m) (hhead : 0 < c.writeIndex)
    (hsize : c.response.length < 2 ^ 31) :
  Prepares m c
  := ⟨h.prepared.rest hhead hsize, h.prepared.bytesHaveSend, hresponse⟩

/-- An error is offered behind the header block with its length. -/
theorem respondError_header {c : HttpConn} (hc : c.writeIndex = 0) {status : ℕ}
    {title form : String} (hstatus : (statusLine status title ++ crlf).length ≤ 64)
    (hform : (ascii form).length ≤ 64) :
  ∃ d : HttpConn, c.respondError status title form = .ok (true, d.useWriteBuff) ∧
    d.header = replies.encode (replyOf status title c.linger (ascii form)) ∧
    d.writeIndex < writeBuffSize
  := by
  have hsize : writeBuffSize = 1024 := rfl
  have hlen : form.length = (ascii form).length := (length_ascii form).symm
  have hline : ascii ("HTTP/1.1 " ++ toString status ++ " " ++ title ++ "\r\n")
      = statusLine status title ++ crlf := ascii_append _ _
  obtain ⟨c₁, c₂, h₁, h₂, -, hw₂, -⟩ :=
    head_eq_ok hc (hline ▸ hstatus) (n := form.length) (by omega)
  have hroom := hw₂.room
  obtain ⟨c₃, h₃, hw₃, -⟩ := c₂.addResponse_eq_ok hform (by omega)
  have hroom₃ := hw₃.room
  have hheader := head_header hc hstatus (by omega) h₁ h₂
  rw [hlen] at hheader
  refine ⟨c₃, ?_, ?_, by omega⟩
  · rw [respondError, addError, h₁, ok_bind]
    dsimp only
    rw [h₂, ok_bind, addContent, h₃]
    rfl
  · rw [addResponse_header (by omega) h₃, hheader, encode_replyOf]

/-- An error response is prepared. -/
theorem respondError_prepares {c : HttpConn} (hc : Fresh c) {status : ℕ} {title form : String}
    (hstatus : (statusLine status title ++ crlf).length ≤ 64) (hform : (ascii form).length ≤ 64) :
  ∃ d, c.respondError status title form = .ok (true, d) ∧
    Prepares (replyOf status title c.linger (ascii form)) d
  := by
  have hsize : writeBuffSize = 1024 := rfl
  obtain ⟨d, hd, hheader, hroom⟩ := respondError_header hc.writeIndex hstatus hform
  have hline : ascii ("HTTP/1.1 " ++ toString status ++ " " ++ title ++ "\r\n")
      = statusLine status title ++ crlf := ascii_append _ _
  obtain ⟨d', hd', hready⟩ :=
    respondError_ready hc.writeIndex hc.bytesHaveSend (hline ▸ hstatus) hform
  obtain rfl : d.useWriteBuff = d' := (Prod.mk.inj (Except.ok.inj (hd.symm.trans hd'))).2
  have hresponse : d.useWriteBuff.response = d.header := List.append_nil d.header
  have hindex := length_header d
  have hsend : 0 < (d.writeIndex : ℤ) := hready.pos
  refine ⟨_, hd', hready.prepares (hresponse.trans hheader) ?_ ?_⟩
  · change 0 < d.writeIndex
    omega
  · rw [hresponse, hindex]
    omega

theorem Filled.fileAddress {c c' : HttpConn} (h : Filled c c') :
  c'.fileAddress = c.fileAddress
  := by
  have hfield := congrArg HttpConn.fileAddress h
  exact hfield

/-- A response for a file that is not empty is prepared. -/
theorem fileRequest_prepares {c : HttpConn} (hc : Fresh c) {size : ℕ} (content : ℤ → UInt8)
    (hzero : size ≠ 0) (hsize : size < 2 ^ 31 - writeBuffSize) :
  ∃ d, { c with fileSize := size, fileAddress := some content }.processWrite .fileRequest =
      .ok (true, d) ∧
    Prepares (replyOf 200 "OK" c.linger ((List.range size).map fun i : ℕ => content i)) d
  := by
  have hbuff : writeBuffSize = 1024 := rfl
  generalize hfound : { c with fileSize := size, fileAddress := some content } = c₀
  have hindex : c₀.writeIndex = 0 := hfound ▸ hc.writeIndex
  have hsent : c₀.bytesHaveSend = 0 := hfound ▸ hc.bytesHaveSend
  have hfileSize : c₀.fileSize = size := hfound ▸ rfl
  have haddress : c₀.fileAddress = some content := hfound ▸ rfl
  have hlinger : c₀.linger = c.linger := hfound ▸ rfl
  obtain ⟨d, hd, hoffered, hlength, hsend⟩ :=
    processWrite_file_offered hindex (hfileSize.symm ▸ hzero) (by omega)
  obtain ⟨d', hd', hready⟩ :=
    processWrite_file_ready hindex hsent (hfileSize.symm ▸ hzero) (by omega)
  obtain rfl : d = d' := (Prod.mk.inj (Except.ok.inj (hd.symm.trans hd'))).2
  have hreplied := processWrite_replied hd
  have hresponse := hreplied.response.trans hoffered
  have hfile : d.file = (List.range size).map fun i : ℕ => content i := by
    cases hreplied with
    | text _ _ hret _ => exact absurd rfl hret
    | @file d₁ hfilled hc' _ _ =>
        subst hc'
        have haddress₁ : d₁.useFile.fileAddress = some content :=
          hfilled.fileAddress.trans haddress
        have hsize₁ : d₁.useFile.fileSize = size := hfilled.fileSize.trans hfileSize
        rw [file, hsize₁]
        apply List.map_congr_left
        intro i _
        rw [byteAt, haddress₁]
        rfl
  have hhead : 0 < d.writeIndex := by
    cases hreplied with
    | text _ _ hret _ => exact absurd rfl hret
    | @file d₁ _ hc' _ _ =>
        subst hc'
        have hsum := congrArg List.length ((useFile_offered d₁).symm.trans hoffered)
        have hsame : d₁.file.length = d₁.useFile.file.length := rfl
        have hpos := length_headOf_file d₁.useFile.file.length c₀.linger
        have hlongest : 64 ≤ longestHead c₀.linger := by
          rw [longestHead]
          split
          · decide
          · decide
        rw [List.length_append, List.length_append, length_header] at hsum
        change 0 < d₁.writeIndex
        omega
  rw [hlinger, hfile] at hresponse
  have hlt := toInt32_lt d.offeredBytes.length
  rw [← hsend, hready.prepared.bytesToSend, length_addresses] at hlt
  exact ⟨d, hd, hready.prepares hresponse hhead (by exact_mod_cast hlt)⟩

/-- What `process` does when the response is to be `r`: it waits for more of the request, or
closes the connection, or prepares the response. -/
inductive Outgoing (r : Option (Framing.Message UInt8)) : ProcessEnd → HttpConn → Prop where
  | waits {d : HttpConn} (hnone : r = none) (hfresh : Fresh d) : Outgoing r (.rearm .epollIn) d
  | closes {d : HttpConn} (hnone : r = none) : Outgoing r .close d
  | prepares {m : Framing.Message UInt8} {d : HttpConn} (hsome : r = some m)
      (hprepares : Prepares m d) : Outgoing r (.rearm .epollOut) d

theorem respond_prepares {c d d' : HttpConn} {ret : HttpCode} {e : ProcessEnd}
    {m : Framing.Message UInt8} (h : c.respond ret = .ok (e, d)) (hret : ret ≠ .noRequest)
    (hwrite : c.processWrite ret = .ok (true, d')) (hprepares : Prepares m d') :
  Outgoing (some m) e d
  := by
  rcases respond_cases h with ⟨hno, -, -⟩ | ⟨ok, hok, rfl⟩
  · exact absurd hno hret
  · rw [hwrite] at hok
    cases hok
    exact .prepares rfl hprepares

/-- A request that is rejected, or whose file is a directory, is answered alike. -/
theorem badRequest_replies {c d : HttpConn} (hc : Fresh c) {e : ProcessEnd}
    (h : c.respond .badRequest = .ok (e, d)) :
  Outgoing (some (notFound c.linger)) e d
  := by
  obtain ⟨d', hd', hprepares⟩ :=
    @respondError_prepares c hc 404 "Not Found" "The requested file was not found on this server.\n"
      (by decide) (by decide)
  exact respond_prepares h (by decide) hd' hprepares

/-- A request for a file that is not for everybody to read is answered. -/
theorem forbiddenRequest_replies {c d : HttpConn} (hc : Fresh c) {e : ProcessEnd}
    (h : c.respond .forbiddenRequest = .ok (e, d)) :
  Outgoing (some (forbidden c.linger)) e d
  := by
  obtain ⟨d', hd', hprepares⟩ := @respondError_prepares c hc 403 "Forbidden"
    "You do not have permission to get file form this server.\n" (by decide) (by decide)
  exact respond_prepares h (by decide) hd' hprepares

/-- `do_request` is followed by the response for what `stat` finds, or by none. -/
theorem doRequest_replies {c d : HttpConn} (hc : Fresh c) {answer : Answer}
    (hsize : ∀ size content, answer = .file size content → size < 2 ^ 31 - writeBuffSize)
    {e : ProcessEnd} (h : (c.doRequest answer).2.respond (c.doRequest answer).1 = .ok (e, d)) :
  Outgoing (answerReply c.linger answer) e d
  := by
  cases answer with
  | missing =>
      cases h
      exact .closes rfl
  | unreadable size =>
      exact forbiddenRequest_replies (c := { c with fileSize := size })
        ⟨hc.writeIndex, hc.bytesHaveSend, hc.bytesToSend⟩ h
  | directory size =>
      exact badRequest_replies (c := { c with fileSize := size })
        ⟨hc.writeIndex, hc.bytesHaveSend, hc.bytesToSend⟩ h
  | file size content =>
      by_cases hzero : size = 0
      · subst hzero
        rcases respond_cases h with ⟨hno, -, -⟩ | ⟨ok, hok, rfl⟩
        · cases hno
        · cases ok with
          | true => exact absurd rfl ((processWrite_eq_true hok).2 rfl)
          | false =>
              have hnone : answerReply c.linger (.file 0 content) = none := by
                rw [answerReply, if_pos rfl]
              exact .closes hnone
      · obtain ⟨d', hd', hprepares⟩ := fileRequest_prepares hc content hzero
          (hsize size content rfl)
        have hreply : answerReply c.linger (.file size content) = some (replyOf 200 "OK" c.linger
            ((List.range size).map fun i : ℕ => content i)) := if_neg hzero
        have hret : HttpCode.fileRequest ≠ .noRequest := by decide
        rw [hreply]
        exact respond_prepares h hret hd' hprepares

/-- What `process` prepares is the response to the request, or there is none. -/
theorem process_replies {c d : HttpConn} (hc : Fresh c) {found : Found}
    (hsize : ∀ size content, found.answer = .file size content → size < 2 ^ 31 - writeBuffSize)
    {e : ProcessEnd} (h : c.process found = .ok (e, d)) :
  Outgoing (c.reply found.answer) e d
  := by
  obtain ⟨⟨exit, p⟩, hread, h⟩ := bind_eq_ok.mp h
  have hfresh (p : Parser) : Fresh { c with toParser := p } :=
    ⟨hc.writeIndex, hc.bytesHaveSend, hc.bytesToSend⟩
  rw [reply, hread]
  rcases Parser.processRead_exit hread with rfl | rfl | rfl
  · cases h
    exact .waits rfl (hfresh p)
  · exact badRequest_replies (hfresh p) h
  · obtain ⟨task, htask, h⟩ := bind_eq_ok.mp h
    have hconn := HttpTask.makePath_toHttpConn htask
    have hlinger : task.linger = p.linger := (HttpTask.makePath_sameHeaders htask).linger
    have hreplies := doRequest_replies (c := task.toHttpConn)
      (by rw [hconn]; exact hfresh task.toParser) hsize h
    rwa [hlinger] at hreplies

end HttpConn

end WebServer
