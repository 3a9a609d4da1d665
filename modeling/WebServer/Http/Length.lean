import WebServer.Lib.Printf
import WebServer.Http.Answered
import WebServer.Http.Reference

/-!
# The announced length

`process_write` announces the length of what follows the empty line in the header
`Content-Length` and counts all bytes in `bytes_to_send`.  Both are `int`, while the size of
a file is an `off_t`: the length is announced as the parameter of `add_headers`, and the sum
of it and of the length of the header block is converted once more.  So a response keeps its
word as long as that sum is an `int` (`announces_iff`).
-/

open CString Fallible

namespace WebServer

namespace HttpConn

/-! ### Responses -/

/-- The bytes that `writev` is offered. -/
def offeredBytes (c : HttpConn) : List UInt8 := c.offered.map c.byteAt

/-- A status line and header lines, and the empty line that ends them. -/
def headOf (statusLine : List UInt8) (headers : List (List UInt8)) : List UInt8 :=
  (statusLine :: headers).flatMap (· ++ crlf) ++ crlf

/-- The name of the header that announces the length. -/
def lengthName : List UInt8 := ascii "Content-Length:"

/-- What is offered is a status line and header lines ending in an empty line, then `body`,
and the one `Content-Length` has the decimal digits `value`. -/
structure Announced (c : HttpConn) (statusLine : List UInt8) (headers : List (List UInt8))
    (value body : List UInt8) : Prop where
  offered : c.offeredBytes = headOf statusLine headers ++ body
  version : ascii "HTTP/1.1 " <+: statusLine
  lines : ∀ line ∈ statusLine :: headers, line ≠ [] ∧ 13 ∉ line ∧ 10 ∉ line
  named : headers.filter lengthName.isPrefixOf = [lengthName ++ value]
  digits : value ≠ [] ∧ ∀ b ∈ value, isDigit b = true
  length : digitsValue value = body.length
  bytesToSend : c.bytesToSend = (headOf statusLine headers).length + digitsValue value

/-- The announced length is the length sent. -/
def Announces (c : HttpConn) : Prop :=
  ∃ statusLine headers value body, Announced c statusLine headers value body

/-- What is announced is what is offered, so `bytes_to_send` is its length. -/
theorem Announces.bytesToSend_eq {c : HttpConn} (h : c.Announces) :
  c.bytesToSend = c.offeredBytes.length
  := by
  obtain ⟨statusLine, headers, value, body, h⟩ := h
  rw [h.bytesToSend, h.length, h.offered, List.length_append, Nat.cast_add]

/-! ### The write buffer -/

/-- A text that fits is written behind what the write buffer holds. -/
theorem addResponse_header {c c' : HttpConn} {text : List UInt8}
    (hroom : c.writeIndex + text.length + 1 < writeBuffSize)
    (h : c.addResponse text = .ok (true, c')) :
  c'.header = c.header ++ text
  := by
  rw [addResponse, if_neg (by omega), if_neg (by omega)] at h
  dsimp only at h
  rw [if_neg (by omega)] at h
  cases h
  have hwritten : vsnprintf (writeBuffSize - c.writeIndex - 1) text = text ++ [0] := by
    rw [vsnprintf, if_neg (by omega), List.take_of_length_le (by omega)]
  rw [hwritten]
  apply map_range_writeAt

theorem length_header (c : HttpConn) :
  c.header.length = c.writeIndex
  := by
  rw [header, List.length_map, List.length_range]

theorem useWriteBuff_offered (c : HttpConn) :
  c.useWriteBuff.offeredBytes = c.header
  := by
  have hoffered : c.useWriteBuff.offered = (List.range c.writeIndex).map .writeBuff := by
    change (List.range c.writeIndex).map (Address.writeBuff 0).add ++ [] = _
    rw [List.append_nil]
    apply List.map_congr_left
    intro i _
    rw [Address.add, Nat.zero_add]
  rw [offeredBytes, hoffered, List.map_map]
  rfl

theorem useFile_offered (c : HttpConn) :
  c.useFile.offeredBytes = c.header ++ c.file
  := by
  have hheader : (List.range c.writeIndex).map (Address.writeBuff 0).add
      = (List.range c.writeIndex).map .writeBuff := by
    apply List.map_congr_left
    intro i _
    rw [Address.add, Nat.zero_add]
  have hfile : (List.range c.fileSize).map (Address.file 0).add
      = (List.range c.fileSize).map fun i : ℕ => .file i := by
    apply List.map_congr_left
    intro i _
    rw [Address.add, zero_add]
  have hoffered : c.useFile.offered = (List.range c.writeIndex).map .writeBuff ++
      (List.range c.fileSize).map fun i : ℕ => .file i := by
    rw [← hheader, ← hfile]
    change _ ++ (_ ++ []) = _
    rw [List.append_nil]
    rfl
  rw [offeredBytes, hoffered, List.map_append, List.map_map, List.map_map]
  rfl

/-! ### The header block -/

/-- The header `Connection`. -/
def connection (linger : Bool) : List UInt8 :=
  ascii (if linger then "Connection:keep-alive" else "Connection:close")

/-- The status line. -/
def statusLine (status : ℕ) (title : String) : List UInt8 :=
  ascii ("HTTP/1.1 " ++ toString status ++ " " ++ title)

theorem ascii_append (s t : String) :
  ascii (s ++ t) = ascii s ++ ascii t
  := by
  rw [ascii, String.toList_append, List.map_append]
  rfl

theorem ascii_contentLength (n : ℕ) :
  ascii ("Content-Length:" ++ toString (n : ℤ) ++ "\r\n") = lengthName ++ Printf.digits n ++ crlf
  := by
  have hdigits : ascii (toString (n : ℤ)) = Printf.digits n := by
    change (Nat.repr n).toList.map _ = _
    rw [Nat.toList_repr]
    rfl
  rw [ascii_append, ascii_append, hdigits]
  rfl

theorem ascii_connection (linger : Bool) :
  ascii ("Connection:" ++ (if linger then "keep-alive" else "close") ++ "\r\n")
    = connection linger ++ crlf
  := by
  cases linger with
  | false => decide
  | true => decide

theorem Filled.linger {c c' : HttpConn} (h : Filled c c') :
  c'.linger = c.linger
  := by
  have hfield := congrArg (fun d : HttpConn => d.linger) h
  exact hfield

/-- The headers are written behind what the write buffer holds. -/
theorem addHeaders_header {c c' : HttpConn} {n : ℕ} (hn : n < 2 ^ 31)
    (hroom : c.writeIndex + 53 < writeBuffSize) (h : c.addHeaders n = .ok (true, c')) :
  c'.header = c.header ++ ((lengthName ++ Printf.digits n ++ crlf) ++
    ((connection c.linger ++ crlf) ++ crlf))
  := by
  have hdigits : (Printf.digits n).length ≤ 10 := Printf.length_digits_le (by decide) (by omega)
  have hname : (lengthName ++ Printf.digits n ++ crlf).length ≤ 27 := by
    have hlength : lengthName.length = 15 := rfl
    have hend : crlf.length = 2 := rfl
    rw [List.length_append, List.length_append]
    omega
  have hlinger (linger : Bool) : (connection linger ++ crlf).length ≤ 23 := by
    cases linger with
    | false => decide
    | true => decide
  obtain ⟨⟨ok₁, c₁⟩, h₁, h⟩ := bind_eq_ok.mp h
  cases ok₁ with
  | false => cases h
  | true =>
      obtain ⟨⟨ok₂, c₂⟩, h₂, h⟩ := bind_eq_ok.mp h
      cases ok₂ with
      | false => cases h
      | true =>
          rw [addContentLength, ascii_contentLength] at h₁
          have hkept := (addResponse_filled h₁).linger
          have hheader₁ := addResponse_header (by omega) h₁
          have hindex₁ := congrArg List.length hheader₁
          rw [length_header, List.length_append, length_header] at hindex₁
          rw [addLinger, ascii_connection, hkept] at h₂
          have hlength₂ := hlinger c.linger
          have hheader₂ := addResponse_header (by omega) h₂
          have hindex₂ := congrArg List.length hheader₂
          rw [length_header, List.length_append, length_header] at hindex₂
          have hblank : (ascii "\r\n").length = 2 := rfl
          have hheader₃ := addResponse_header (by omega) h
          rw [hheader₃, hheader₂, hheader₁, List.append_assoc, List.append_assoc]
          rfl

/-- The status line and the headers of a response. -/
theorem head_header {c c₁ c₂ : HttpConn} (hc : c.writeIndex = 0) {status : ℕ} {title : String}
    (hstatus : (statusLine status title ++ crlf).length ≤ 64) {n : ℕ} (hn : n < 2 ^ 31)
    (h₁ : c.addStatusLine status title = .ok (true, c₁))
    (h₂ : c₁.addHeaders n = .ok (true, c₂)) :
  c₂.header
    = headOf (statusLine status title) [lengthName ++ Printf.digits n, connection c.linger]
  := by
  have hsize : writeBuffSize = 1024 := rfl
  have hkept := (addResponse_filled h₁).linger
  have hempty : c.header = [] := by
    rw [header, hc]
    rfl
  rw [addStatusLine, ascii_append] at h₁
  change c.addResponse (statusLine status title ++ crlf) = _ at h₁
  have hheader₁ := addResponse_header (by omega) h₁
  have hindex₁ := congrArg List.length hheader₁
  rw [length_header, List.length_append, length_header] at hindex₁
  have hheader₂ := addHeaders_header hn (by omega) h₂
  rw [hheader₂, hheader₁, hempty, hkept, List.nil_append]
  simp only [headOf, List.flatMap_cons, List.flatMap_nil, List.append_nil, List.append_assoc]

/-! ### What is announced -/

theorem not_isEol_of_isDigit {b : UInt8} (h : isDigit b = true) :
  b ≠ 13 ∧ b ≠ 10
  := by
  constructor
  · rintro rfl
    cases h
  · rintro rfl
    cases h

/-- The header with the length is a line. -/
theorem lengthName_digits (n : ℕ) :
  lengthName ++ Printf.digits n ≠ [] ∧ 13 ∉ lengthName ++ Printf.digits n ∧
    10 ∉ lengthName ++ Printf.digits n
  := by
  have hname : 13 ∉ lengthName ∧ 10 ∉ lengthName := by decide
  have hdigit : ∀ b ∈ Printf.digits n, b ≠ 13 ∧ b ≠ 10 := by
    intro b hb
    apply not_isEol_of_isDigit (Printf.isDigit_of_mem_digits hb)
  rw [List.mem_append, List.mem_append, not_or, not_or]
  exact ⟨List.append_ne_nil_of_left_ne_nil (by decide) _,
    ⟨hname.1, fun hmem => (hdigit _ hmem).1 rfl⟩, hname.2, fun hmem => (hdigit _ hmem).2 rfl⟩

/-- The other header is a line, and has another name. -/
theorem connection_line (linger : Bool) :
  (connection linger ≠ [] ∧ 13 ∉ connection linger ∧ 10 ∉ connection linger) ∧
    lengthName.isPrefixOf (connection linger) = false
  := by
  cases linger with
  | false => decide
  | true => decide

/-- The one header with the name is the one that has the length. -/
theorem filter_lengthName (n : ℕ) (linger : Bool) :
  [lengthName ++ Printf.digits n, connection linger].filter lengthName.isPrefixOf
    = [lengthName ++ Printf.digits n]
  := by
  rw [List.filter_cons_of_pos (List.isPrefixOf_iff_prefix.mpr (List.prefix_append _ _)),
    List.filter_cons_of_neg (by rw [(connection_line linger).2]; decide), List.filter_nil]

theorem version_prefix (status : ℕ) (title : String) :
  ascii "HTTP/1.1 " <+: statusLine status title
  := by
  rw [statusLine, ascii_append, ascii_append, ascii_append, List.append_assoc, List.append_assoc]
  apply List.prefix_append

/-- A header block with the length of the body in it announces the body. -/
theorem announces_of_head {c : HttpConn} {status : ℕ} {title : String} {linger : Bool}
    {body : List UInt8}
    (hstatus : 13 ∉ statusLine status title ∧ 10 ∉ statusLine status title)
    (h : c.offeredBytes = headOf (statusLine status title)
      [lengthName ++ Printf.digits body.length, connection linger] ++ body)
    (hsend : c.bytesToSend = c.offeredBytes.length) :
  c.Announces
  := by
  have hversion := version_prefix status title
  have hne : statusLine status title ≠ [] := by
    intro hnil
    rw [hnil, List.prefix_nil] at hversion
    cases hversion
  refine ⟨_, _, Printf.digits body.length, body, h, hversion, ?_, filter_lengthName _ _, ?_,
    Printf.digitsValue_digits _, ?_⟩
  · rw [List.forall_mem_cons, List.forall_mem_cons, List.forall_mem_singleton]
    exact ⟨⟨hne, hstatus⟩, lengthName_digits _, (connection_line linger).1⟩
  · constructor
    · apply List.ne_nil_of_length_pos (Printf.length_digits_pos _)
    · intro b hb
      apply Printf.isDigit_of_mem_digits hb
  · rw [hsend, h, List.length_append, Printf.digitsValue_digits, Nat.cast_add]

/-- An error is announced. -/
theorem respondError_announces {c : HttpConn} (hc : c.writeIndex = 0) {status : ℕ}
    {title form : String} (hstatus : (statusLine status title ++ crlf).length ≤ 64)
    (hplain : 13 ∉ statusLine status title ∧ 10 ∉ statusLine status title)
    (hform : (ascii form).length ≤ 64) :
  ∃ c', c.respondError status title form = .ok (true, c') ∧ c'.Announces
  := by
  have hsize : writeBuffSize = 1024 := rfl
  have hlen : form.length = (ascii form).length := (length_ascii form).symm
  have hline : ascii ("HTTP/1.1 " ++ toString status ++ " " ++ title ++ "\r\n")
      = statusLine status title ++ crlf := ascii_append _ _
  obtain ⟨c₁, c₂, h₁, h₂, -, hw₂, -⟩ :=
    head_eq_ok hc (hline ▸ hstatus) (n := form.length) (by omega)
  have hroom := hw₂.room
  obtain ⟨c₃, h₃, -, -⟩ := c₂.addResponse_eq_ok hform (by omega)
  have hheader := head_header hc hstatus (by omega) h₁ h₂
  rw [hlen] at hheader
  have hbody := addResponse_header (by omega) h₃
  rw [hheader] at hbody
  have hrespond : c.respondError status title form = .ok (true, c₃.useWriteBuff) := by
    rw [respondError, addError, h₁, ok_bind]
    dsimp only
    rw [h₂, ok_bind, addContent, h₃]
    rfl
  refine ⟨_, hrespond, announces_of_head hplain ((useWriteBuff_offered c₃).trans hbody) ?_⟩
  rw [useWriteBuff_offered, length_header]
  rfl

/-- A file is offered behind the header block with its size. -/
theorem processWrite_file_offered {c : HttpConn} (hc : c.writeIndex = 0) (hzero : c.fileSize ≠ 0)
    (hsize : c.fileSize < 2 ^ 31) :
  ∃ c', c.processWrite .fileRequest = .ok (true, c') ∧
    c'.offeredBytes = headOf (statusLine 200 "OK")
      [lengthName ++ Printf.digits c'.file.length, connection c.linger] ++ c'.file ∧
    c'.file.length = c.fileSize ∧ c'.bytesToSend = toInt32 c'.offeredBytes.length
  := by
  have hstatus : (ascii ("HTTP/1.1 " ++ toString 200 ++ " " ++ "OK" ++ "\r\n")).length ≤ 64 := by
    decide
  obtain ⟨c₁, c₂, h₁, h₂, hw₁, hw₂, -⟩ := head_eq_ok hc hstatus hsize
  have hheader := head_header hc (by decide) hsize h₁ h₂
  have hwrite : c.processWrite .fileRequest = .ok (true, c₂.useFile) := by
    have hint : toInt32 c₁.fileSize = c.fileSize := by
      rw [hw₁.fileSize]
      apply toInt32_of_lt hsize
    rw [processWrite, h₁, ok_bind]
    dsimp only
    rw [if_pos (hw₁.fileSize ▸ hzero), hint, h₂, ok_bind]
  have hfile : c₂.useFile.file.length = c.fileSize := by
    rw [file, List.length_map, List.length_range]
    apply hw₂.fileSize
  have hlength : c₂.file.length = c₂.fileSize := by
    rw [file, List.length_map, List.length_range]
  refine ⟨_, hwrite, ?_, hfile, ?_⟩
  · rw [useFile_offered, hheader, hfile]
    rfl
  · rw [useFile_bytesToSend, useFile_offered, List.length_append, length_header, hlength,
      Nat.cast_add]

/-! ### The size of a file -/

/-- The length of the header block of a file whose size has ten digits. -/
def longestHead (linger : Bool) : ℕ := if linger then 69 else 64

theorem length_headOf_file (n : ℕ) (linger : Bool) :
  (headOf (statusLine 200 "OK") [lengthName ++ Printf.digits n, connection linger]).length + 10
    = longestHead linger + (Printf.digits n).length
  := by
  have hstatus : (statusLine 200 "OK").length = 15 := by decide
  have hname : lengthName.length = 15 := rfl
  have hend : crlf.length = 2 := rfl
  have hconnection : (connection linger).length + 48 = longestHead linger := by
    cases linger with
    | false => decide
    | true => decide
  simp only [headOf, List.flatMap_cons, List.flatMap_nil, List.length_append, List.length_nil]
  omega

/-- The sum of the lengths is an `int` exactly when it is one with the longest header
block: a smaller size than one with ten digits is far from the bound. -/
theorem length_lt_iff {n : ℕ} (hn : n < 2 ^ 31) (linger : Bool) :
  (headOf (statusLine 200 "OK") [lengthName ++ Printf.digits n, connection linger]).length + n
      < 2 ^ 31 ↔
    n + longestHead linger < 2 ^ 31
  := by
  have hlength := length_headOf_file n linger
  have hle : (Printf.digits n).length ≤ 10 := Printf.length_digits_le (by decide) (by omega)
  have hlongest : longestHead linger ≤ 69 := by
    cases linger with
    | false => decide
    | true => decide
  rcases Nat.lt_or_ge n (10 ^ 9) with hlt | hge
  · omega
  · have hten : 9 < (Printf.digits n).length := by
      rw [Printf.digits, List.length_map, ← not_le,
        Nat.length_toDigits_le_iff (by decide) (by decide)]
      omega
    omega

/-- Bytes that are more than an `int` counts are not announced. -/
theorem not_announces_of_length {c : HttpConn} {n : ℤ} (hsend : c.bytesToSend = toInt32 n)
    (hlength : 2 ^ 31 ≤ c.offeredBytes.length) :
  ¬ c.Announces
  := by
  intro h
  have hlt := toInt32_lt n
  have heq := h.bytesToSend_eq
  omega

/-- A file is announced as long as the bytes of its response are an `int`. -/
theorem file_announces_iff {c c' : HttpConn} (hc : c.writeIndex = 0)
    (h : c.processWrite .fileRequest = .ok (true, c')) :
  c'.Announces ↔ c.fileSize + longestHead c.linger < 2 ^ 31
  := by
  have hzero := (processWrite_eq_true h).2 rfl
  rcases Nat.lt_or_ge c.fileSize (2 ^ 31) with hlt | hge
  · obtain ⟨c'', hwrite, hoffered, hfile, hsend⟩ := processWrite_file_offered hc hzero hlt
    rw [h] at hwrite
    cases hwrite
    have hlength := congrArg List.length hoffered
    rw [List.length_append, hfile] at hlength
    rw [← length_lt_iff hlt, ← hlength]
    constructor
    · intro hannounces
      by_contra hge
      apply not_announces_of_length hsend (not_lt.mp hge) hannounces
    · intro hsum
      apply announces_of_head (by decide) hoffered
      rw [hsend, toInt32_of_lt hsum]
  · refine iff_of_false ?_ (by omega)
    cases processWrite_replied h with
    | text _ _ hret _ => apply absurd rfl hret
    | @file d hfilled hc' _ _ =>
        subst hc'
        apply not_announces_of_length (useFile_bytesToSend d)
        have hsize := hfilled.fileSize
        rw [useFile_offered, List.length_append, file, List.length_map, List.length_range]
        omega

/-- An error is announced whatever its code is. -/
theorem error_announces {c c' : HttpConn} (hc : c.writeIndex = 0) {ret : HttpCode}
    (hret : ret ≠ .fileRequest) (h : c.processWrite ret = .ok (true, c')) :
  c'.Announces
  := by
  have hexists : ∃ c', c.processWrite ret = .ok (true, c') ∧ c'.Announces := by
    cases ret with
    | internalError => apply respondError_announces hc (by decide) (by decide) (by decide)
    | badRequest => apply respondError_announces hc (by decide) (by decide) (by decide)
    | forbiddenRequest => apply respondError_announces hc (by decide) (by decide) (by decide)
    | fileRequest => apply absurd rfl hret
    | noRequest | getRequest | noResource | closedConnection => cases h
  obtain ⟨c'', hwrite, hannounces⟩ := hexists
  rw [h] at hwrite
  cases hwrite
  exact hannounces

/-- Behind `init()`, the length that a response announces is the length sent exactly when
it is an error, or the bytes of a file and of the longest header block are an `int`. -/
theorem announces_iff {c c' : HttpConn} (hc : c.writeIndex = 0) {ret : HttpCode}
    (h : c.processWrite ret = .ok (true, c')) :
  c'.Announces ↔ (ret = .fileRequest → c.fileSize + longestHead c.linger < 2 ^ 31)
  := by
  by_cases hret : ret = .fileRequest
  · subst hret
    rw [file_announces_iff hc h]
    constructor
    · intro hsum _
      exact hsum
    · intro hsum
      apply hsum rfl
  · refine iff_of_true (error_announces hc hret h) ?_
    intro hfile
    apply absurd hfile hret

set_option maxRecDepth 10000 in
theorem announces_iff_forFile :
  (Sending.prepared 5).Announces
  := by
  have hwrite := Sending.processWrite_forFile 5 (by decide +kernel)
  apply (announces_iff rfl hwrite).mpr
  intro _
  decide

set_option maxRecDepth 10000 in
/-- A file of two gibibytes is announced with a negative length. -/
theorem not_announces :
  ¬ ∀ (c c' : HttpConn) (ret : HttpCode), c.writeIndex = 0 → c.fileSize < 2 ^ 63 →
    c.processWrite ret = .ok (true, c') → c'.Announces
  := by
  intro h
  have hwrite := Sending.processWrite_forFile (2 ^ 31) (by decide +kernel)
  have hannounces := h _ _ _ rfl (by decide) hwrite
  rw [file_announces_iff rfl hwrite] at hannounces
  revert hannounces
  decide

end HttpConn

end WebServer
