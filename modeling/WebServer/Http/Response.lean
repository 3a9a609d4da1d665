import WebServer.Http.Parser

/-!
# Responses of `http_conn`

The fields of `http_conn` that preparing and writing a response use, the functions that
fill the write buffer, and `process_write`, which sets up the two `iovec`s for `write`.

A pointer into the write buffer or into the mapped file is an `Address`, an offset into
one of the two.  The mapped file is a memory in which the file lies at the offsets from
`0` to its size; what lies around it is not known.
-/

open CString Fallible

namespace WebServer

/-- `http_conn::WRITE_BUFF_SIZE`. -/
def writeBuffSize : ℕ := 1024

/-- The address of a byte to send: an offset into `m_write_buff`, or from
`m_file_address`. -/
inductive Address where
  | writeBuff (offset : ℕ)
  | file (offset : ℤ)
  deriving DecidableEq

/-- The address `n` bytes behind another one. -/
def Address.add : Address → ℕ → Address
  | .writeBuff offset, n => .writeBuff (offset + n)
  | .file offset, n => .file (offset + n)

/-- `struct iovec`. -/
structure Iovec where
  base : Address
  len : ℕ
  deriving DecidableEq

/-- The addresses of the bytes of an `iovec`. -/
def Iovec.addresses (iov : Iovec) : List Address := (List.range iov.len).map iov.base.add

/-- The fields of `http_conn`. -/
structure HttpConn extends Parser where
  sockfd : Option ℕ
  writeBuff : Memory
  writeIndex : ℕ
  iv₀ : Iovec
  iv₁ : Iovec
  ivCount : ℕ
  bytesToSend : ℤ
  bytesHaveSend : ℕ
  fileAddress : Option (ℤ → UInt8)
  fileSize : ℕ

namespace HttpConn

/-- `http_conn::init()`.  It leaves the socket, the `iovec`s and the file status. -/
def init (c : HttpConn) : HttpConn :=
  { c with
    toParser := Parser.init
    writeBuff := fun _ => 0
    writeIndex := 0
    bytesToSend := 0
    bytesHaveSend := 0
    fileAddress := none }

/-- What `vsnprintf` writes of a text into a buffer of `n` bytes. -/
def vsnprintf (n : ℕ) (text : List UInt8) : List UInt8 :=
  if n = 0 then [] else text.take (n - 1) ++ [0]

/-- `http_conn::add_response` for the text that the format and its arguments make.  With
the buffer full to the last byte the room passed to `vsnprintf` is `-1`, which is no
bound. -/
def addResponse (c : HttpConn) (text : List UInt8) : Except Fault (Bool × HttpConn) :=
  if writeBuffSize < c.writeIndex then
    .ok (false, c)
  else if c.writeIndex = writeBuffSize then
    .error .outOfBounds
  else
    let written := vsnprintf (writeBuffSize - c.writeIndex - 1) text
    let c := { c with writeBuff := writeAt c.writeBuff c.writeIndex written }
    if writeBuffSize - c.writeIndex < text.length then
      .ok (false, c)
    else
      .ok (true, { c with writeIndex := c.writeIndex + text.length })

/-- `http_conn::add_status_line`. -/
def addStatusLine (c : HttpConn) (status : ℕ) (title : String) :
    Except Fault (Bool × HttpConn) :=
  c.addResponse (ascii ("HTTP/1.1 " ++ toString status ++ " " ++ title ++ "\r\n"))

/-- `http_conn::add_content_length`. -/
def addContentLength (c : HttpConn) (contentLen : ℤ) : Except Fault (Bool × HttpConn) :=
  c.addResponse (ascii ("Content-Length:" ++ toString contentLen ++ "\r\n"))

/-- `http_conn::add_linger`. -/
def addLinger (c : HttpConn) : Except Fault (Bool × HttpConn) :=
  c.addResponse
    (ascii ("Connection:" ++ (if c.linger then "keep-alive" else "close") ++ "\r\n"))

/-- `http_conn::add_blank_line`. -/
def addBlankLine (c : HttpConn) : Except Fault (Bool × HttpConn) :=
  c.addResponse (ascii "\r\n")

/-- `http_conn::add_headers`. -/
def addHeaders (c : HttpConn) (contentLen : ℤ) : Except Fault (Bool × HttpConn) := do
  let (ok, c) ← c.addContentLength contentLen
  if !ok then return (false, c)
  let (ok, c) ← c.addLinger
  if !ok then return (false, c)
  c.addBlankLine

/-- `http_conn::add_content`. -/
def addContent (c : HttpConn) (content : String) : Except Fault (Bool × HttpConn) :=
  c.addResponse (ascii content)

/-- An error response: a status line, headers and the text of the error. -/
def addError (c : HttpConn) (status : ℕ) (title form : String) :
    Except Fault (Bool × HttpConn) := do
  let (_, c) ← c.addStatusLine status title
  let (_, c) ← c.addHeaders form.length
  c.addContent form

/-- The end of `process_write`: a single `iovec`, for the write buffer. -/
def useWriteBuff (c : HttpConn) : HttpConn :=
  { c with
    iv₀ := ⟨.writeBuff 0, c.writeIndex⟩
    ivCount := 1
    bytesToSend := c.writeIndex }

/-- `process_write` for a file that is not empty: the second `iovec` is the file. -/
def useFile (c : HttpConn) : HttpConn :=
  { c with
    ivCount := 2
    iv₀ := ⟨.writeBuff 0, c.writeIndex⟩
    iv₁ := ⟨.file 0, c.fileSize⟩
    bytesToSend := toInt32 (c.writeIndex + c.fileSize) }

/-- An error response of `process_write`, which fails when its text does not fit. -/
def respondError (c : HttpConn) (status : ℕ) (title form : String) :
    Except Fault (Bool × HttpConn) := do
  let (ok, c) ← c.addError status title form
  if ok then .ok (true, c.useWriteBuff) else .ok (false, c)

/-- `http_conn::process_write`.  The empty file gets the text of an empty page, but the
case runs on into the `default`, which fails. -/
def processWrite (c : HttpConn) (ret : HttpCode) : Except Fault (Bool × HttpConn) :=
  match ret with
  | .internalError =>
    c.respondError 500 "Internal Error"
      "There was an unusual problem serving the request file.\n"
  | .badRequest =>
    c.respondError 404 "Not Found" "The requested file was not found on this server.\n"
  | .forbiddenRequest =>
    c.respondError 403 "Forbidden"
      "You do not have permission to get file form this server.\n"
  | .fileRequest => do
    let (_, c) ← c.addStatusLine 200 "OK"
    if c.fileSize ≠ 0 then
      let (_, c) ← c.addHeaders (toInt32 c.fileSize)
      .ok (true, c.useFile)
    else
      let (_, c) ← c.addHeaders "<html><body></body></html>".length
      let (_, c) ← c.addContent "<html><body></body></html>"
      .ok (false, c)
  | .noRequest | .getRequest | .noResource | .closedConnection => .ok (false, c)

end HttpConn

end WebServer
