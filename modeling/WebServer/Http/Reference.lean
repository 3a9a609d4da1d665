import WebServer.Http.Parser

/-!
# What a client sends

The parts of a request as lists of bytes, and what they say: the page that a URL asks for,
the values of the header lines, and with them the request as a whole (`Parsed`).  Nothing
here depends on how the server parses a request; the parser is compared with it.
-/

open CString

namespace WebServer

/-- A carriage return and a line feed. -/
def crlf : List UInt8 := [13, 10]

/-- A byte that may occur in a line. -/
def isLineByte (b : UInt8) : Bool := Parser.isPlain b && b != 0

/-- A byte that may occur in a word of the request line. -/
def isWordByte (b : UInt8) : Bool := isLineByte b && !isBlank b

/-- A URL with a path: it is a path, or has one behind the scheme and the authority. -/
def hasPath (url : List UInt8) : Bool :=
  if hasPrefixIgnoreCase url (ascii "http://") then (url.drop 7).contains 47
  else if hasPrefixIgnoreCase url (ascii "https://") then (url.drop 8).contains 47
  else url.head? == some 47

/-- The path of a URL. -/
def pathOf (url : List UInt8) : List UInt8 :=
  if hasPrefixIgnoreCase url (ascii "http://") then (url.drop 7).dropWhile (· != 47)
  else if hasPrefixIgnoreCase url (ascii "https://") then (url.drop 8).dropWhile (· != 47)
  else url

/-- The page at a path: `/` is the page `/judge.html`. -/
def pageOf (path : List UInt8) : List UInt8 :=
  if path = [47] then ascii "/judge.html" else path

/-- A request line. -/
structure RequestLine where
  method : List UInt8
  blank : UInt8
  url : List UInt8
  blank' : UInt8
  version : List UInt8
  method_implemented : (Parser.methodOf method).isSome = true
  blank_isBlank : isBlank blank = true
  url_word : ∀ b ∈ url, isWordByte b = true
  url_path : hasPath url = true
  blank'_isBlank : isBlank blank' = true
  version_http : eqIgnoreCase version (ascii "HTTP/1.1") = true

/-- The request line without its end. -/
def RequestLine.line (q : RequestLine) : List UInt8 :=
  q.method ++ q.blank :: (q.url ++ q.blank' :: q.version)

/-! ### Words -/

theorem isWordByte_of_toLower {b : UInt8} (h : isWordByte (toLower b) = true) :
  isWordByte b = true
  := by
  rw [toLower] at h
  split at h
  · next hb =>
      have h₀ : b ≠ 0 := by rintro rfl; exact absurd hb.1 (by decide)
      have h₁ : b ≠ 13 := by rintro rfl; exact absurd hb.1 (by decide)
      have h₂ : b ≠ 10 := by rintro rfl; exact absurd hb.1 (by decide)
      have h₃ : b ≠ 32 := by rintro rfl; exact absurd hb.1 (by decide)
      have h₄ : b ≠ 9 := by rintro rfl; exact absurd hb.1 (by decide)
      simp [isWordByte, isLineByte, Parser.isPlain, isBlank, h₀, h₁, h₂, h₃, h₄]
  · exact h

/-- A word that is one up to the case of its letters is one. -/
theorem isWordByte_of_eqIgnoreCase {s t : List UInt8} (h : eqIgnoreCase s t = true)
    (ht : (t.map toLower).all isWordByte = true) :
  ∀ b ∈ s, isWordByte b = true
  := by
  intro b hb
  apply isWordByte_of_toLower
  apply List.all_eq_true.mp ht
  rw [← eq_of_beq h]
  apply List.mem_map_of_mem hb

theorem isWordByte_method {s : List UInt8} (h : (Parser.methodOf s).isSome = true) :
  ∀ b ∈ s, isWordByte b = true
  := by
  rw [Parser.methodOf] at h
  split at h
  · next hget => apply isWordByte_of_eqIgnoreCase hget (by decide)
  · split at h
    · next hpost => apply isWordByte_of_eqIgnoreCase hpost (by decide)
    · cases h

theorem isBlank_of_isWordByte {b : UInt8} (h : isWordByte b = true) :
  isBlank b = false
  := by
  simp only [isWordByte, Bool.and_eq_true, Bool.not_eq_true'] at h
  apply h.2

theorem isLineByte_of_isWordByte {b : UInt8} (h : isWordByte b = true) :
  isLineByte b = true
  := by
  simp only [isWordByte, Bool.and_eq_true] at h
  apply h.1

theorem isLineByte_of_isBlank {b : UInt8} (h : isBlank b = true) :
  isLineByte b = true
  := by
  simp only [isBlank, Bool.or_eq_true, beq_iff_eq] at h
  rcases h with rfl | rfl
  · rfl
  · rfl

/-- The bytes of the request line. -/
theorem RequestLine.isLineByte_line (q : RequestLine) :
  ∀ b ∈ q.line, isLineByte b = true
  := by
  intro b hb
  simp only [line, List.mem_append, List.mem_cons] at hb
  rcases hb with hb | rfl | hb | rfl | hb
  · apply isLineByte_of_isWordByte (isWordByte_method q.method_implemented b hb)
  · apply isLineByte_of_isBlank q.blank_isBlank
  · apply isLineByte_of_isWordByte (q.url_word b hb)
  · apply isLineByte_of_isBlank q.blank'_isBlank
  · apply isLineByte_of_isWordByte
    apply isWordByte_of_eqIgnoreCase q.version_http (by decide) b hb

/-! ### Header lines -/

/-- The value of a header line that begins with `name`, behind the blanks. -/
def headerValue (name line : List UInt8) : Option (List UInt8) :=
  if hasPrefixIgnoreCase line name then some ((line.drop name.length).dropWhile isBlank) else none

/-- The value of the last header line that begins with `name`. -/
def lastValue (name : List UInt8) (headers : List (List UInt8)) : Option (List UInt8) :=
  headers.reverse.findSome? (headerValue name)

/-- A header line that asks to keep the connection. -/
def keepsAlive (line : List UInt8) : Bool :=
  (headerValue (ascii "Connection:") line).any (eqIgnoreCase · (ascii "keep-alive"))

@[simp]
theorem lastValue_nil (name : List UInt8) :
  lastValue name [] = none
  := rfl

@[simp]
theorem lastValue_cons (name line : List UInt8) (headers : List (List UInt8)) :
  lastValue name (line :: headers) = (lastValue name headers).or (headerValue name line)
  := by
  rw [lastValue, List.reverse_cons, List.findSome?_append]
  cases hvalue : headerValue name line with
  | none => simp [lastValue, hvalue]
  | some v => simp [lastValue, hvalue]

/-- Of a line that begins with a name, the name says which shorter names it begins with. -/
theorem hasPrefixIgnoreCase_eq {line name name' : List UInt8}
    (h : hasPrefixIgnoreCase line name = true) (hle : name'.length ≤ name.length) :
  hasPrefixIgnoreCase line name' = hasPrefixIgnoreCase name name'
  := by
  have htake := congrArg (List.take name'.length) (eq_of_beq h)
  rw [← List.map_take, ← List.map_take, List.take_take, Nat.min_eq_left hle] at htake
  rw [hasPrefixIgnoreCase, hasPrefixIgnoreCase, eqIgnoreCase, eqIgnoreCase, htake]

/-- A line that declares a length is no `Connection` line. -/
theorem not_connection {line : List UInt8}
    (h : hasPrefixIgnoreCase line (ascii "Content-Length:") = true) :
  hasPrefixIgnoreCase line (ascii "Connection:") = false
  := by
  rw [hasPrefixIgnoreCase_eq h (by decide)]
  decide

/-- A line that declares a length is no `Host` line. -/
theorem not_host_of_length {line : List UInt8}
    (h : hasPrefixIgnoreCase line (ascii "Content-Length:") = true) :
  hasPrefixIgnoreCase line (ascii "Host:") = false
  := by
  rw [hasPrefixIgnoreCase_eq h (by decide)]
  decide

/-- A `Connection` line is no `Host` line. -/
theorem not_host_of_connection {line : List UInt8}
    (h : hasPrefixIgnoreCase line (ascii "Connection:") = true) :
  hasPrefixIgnoreCase line (ascii "Host:") = false
  := by
  rw [hasPrefixIgnoreCase_eq h (by decide)]
  decide

/-! ### Requests -/

/-- What a request says. -/
structure Parsed where
  method : Method
  cgi : ℕ
  url : Option (List UInt8)
  linger : Bool
  length : ℤ
  host : Option (List UInt8)

/-- What a request says before its header lines. -/
def RequestLine.parsed (q : RequestLine) : Parsed where
  method := (Parser.methodOf q.method).getD .get
  cgi := if Parser.methodOf q.method = some .post then 1 else 0
  url := some (pageOf (pathOf q.url))
  linger := false
  length := 0
  host := none

/-- What a request says behind one more header line. -/
def Parsed.after (r : Parsed) (line : List UInt8) : Parsed :=
  { r with
    linger := r.linger || keepsAlive line
    length := ((headerValue (ascii "Content-Length:") line).map fun v => toInt32 (atol v)).getD
      r.length
    host := (headerValue (ascii "Host:") line).or r.host }

/-- One line after another, the last value of a header wins. -/
theorem Parsed.foldl_after (r : Parsed) (headers : List (List UInt8)) :
  headers.foldl Parsed.after r =
    { r with
      linger := r.linger || headers.any keepsAlive
      length := ((lastValue (ascii "Content-Length:") headers).map fun v => toInt32 (atol v)).getD
        r.length
      host := (lastValue (ascii "Host:") headers).or r.host }
  := by
  induction headers generalizing r with
  | nil => simp
  | cons line headers ih =>
      rw [List.foldl_cons, ih, Parsed.after, List.any_cons, lastValue_cons, lastValue_cons,
        Bool.or_assoc, Option.or_assoc]
      cases lastValue (ascii "Content-Length:") headers with
      | none => rfl
      | some v => rfl

end WebServer
