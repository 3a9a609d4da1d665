import WebServer.Http.Response
import WebServer.Lib.Printf

/-!
# The line that `write_log` formats

`write_log` makes its line in `m_buf`: the time and the level, the text of the caller behind
them, a newline and a NUL.  The bound passed to `vsnprintf` is that of the whole buffer but
for a byte, though the text begins behind the time and the level, and what `vsnprintf`
returns, the length of the text when nothing is cut off, is the place of the newline.  A
store outside `m_buf` is a fault.

The line is stored in `m_buf` exactly when the time, the level and the text leave two bytes
of it (`formatLine_fits_iff`).
-/

open CString Fallible Printf

namespace WebServer

/-- The local time and its microseconds, as `localtime` and `gettimeofday` give them. -/
structure LocalTime where
  tmYear : ℤ
  tmMon : ℤ
  tmMday : ℤ
  tmHour : ℤ
  tmMin : ℤ
  tmSec : ℤ
  tvUsec : ℤ
  year_int : -2 ^ 31 ≤ tmYear + 1900 ∧ tmYear + 1900 < 2 ^ 31
  mon_range : 0 ≤ tmMon ∧ tmMon ≤ 11
  mday_range : 1 ≤ tmMday ∧ tmMday ≤ 31
  hour_range : 0 ≤ tmHour ∧ tmHour ≤ 23
  min_range : 0 ≤ tmMin ∧ tmMin ≤ 59
  sec_range : 0 ≤ tmSec ∧ tmSec ≤ 60
  usec_range : 0 ≤ tvUsec ∧ tvUsec ≤ 999999

namespace Log

/-- The text of a level. -/
def levelText (level : ℤ) : List UInt8 :=
  if level = 0 then ascii "[debug]:"
  else if level = 1 then ascii "[info]:"
  else if level = 2 then ascii "[warn]:"
  else if level = 3 then ascii "[erro]:"
  else ascii "[info]:"

/-- What stands in front of the text: `%d-%02d-%02d %02d:%02d:%02d.%06ld %s `. -/
def lineHeader (level : ℤ) (t : LocalTime) : List UInt8 :=
  decimal (t.tmYear + 1900) ++ ascii "-" ++ padded 2 (t.tmMon + 1) ++ ascii "-"
    ++ padded 2 t.tmMday ++ ascii " " ++ padded 2 t.tmHour ++ ascii ":" ++ padded 2 t.tmMin
    ++ ascii ":" ++ padded 2 t.tmSec ++ ascii "." ++ padded 6 t.tvUsec ++ ascii " "
    ++ levelText level ++ ascii " "

/-- The bytes `l` stored from the place `p` on in an array of `size` bytes. -/
def storeAt (size : ℕ) (m : Memory) (p : ℤ) (l : List UInt8) : Except Fault Memory :=
  if 0 ≤ p ∧ p + l.length ≤ size then
    .ok (writeAt m p.toNat l)
  else
    .error .outOfBounds

/-- What `vsnprintf` returns: the length of the text when nothing is cut off, if it is an
`int`. -/
def vsnprintfReturn (text : List UInt8) : ℤ :=
  if text.length < 2 ^ 31 then text.length else -1

/-- The line that `write_log` makes in `m_buf`, with what is in `m_buf` behind it.  `text` is
what the format and its arguments make. -/
def formatLine (mLogBufSize : ℕ) (mBuf : Memory) (level : ℤ) (t : LocalTime)
    (text : List UInt8) : Except Fault (List UInt8 × Memory) := do
  let n := vsnprintfReturn (lineHeader level t)
  let mBuf ← storeAt mLogBufSize mBuf 0 (HttpConn.vsnprintf 48 (lineHeader level t))
  let m := vsnprintfReturn text
  let mBuf ← storeAt mLogBufSize mBuf n (HttpConn.vsnprintf (mLogBufSize - 1) text)
  let mBuf ← storeAt mLogBufSize mBuf (n + m) [10]
  let mBuf ← storeAt mLogBufSize mBuf (n + m + 1) [0]
  .ok (stringAt mBuf mLogBufSize 0, mBuf)

/-! ### The time and the level -/

theorem length_levelText (level : ℤ) :
  1 ≤ (levelText level).length ∧ (levelText level).length ≤ 8
  := by
  rw [levelText]
  split_ifs <;> decide

/-- The time and the level are never cut off. -/
theorem length_lineHeader (level : ℤ) (t : LocalTime) :
  24 ≤ (lineHeader level t).length ∧ (lineHeader level t).length ≤ 43
  := by
  have hmon := t.mon_range
  have hmday := t.mday_range
  have hhour := t.hour_range
  have hmin := t.min_range
  have hsec := t.sec_range
  have husec := t.usec_range
  have hlevel := length_levelText level
  have hyear := length_decimal_le t.year_int.1 t.year_int.2
  have hdash : (ascii "-").length = 1 := rfl
  have hblank : (ascii " ").length = 1 := rfl
  have hcolon : (ascii ":").length = 1 := rfl
  have hdot : (ascii ".").length = 1 := rfl
  have hlength : (lineHeader level t).length
      = (decimal (t.tmYear + 1900)).length + (levelText level).length + 24 := by
    simp only [lineHeader, List.length_append, hdash, hblank, hcolon, hdot]
    rw [length_padded (n := t.tmMon + 1) (by decide) (by omega) (by omega),
      length_padded (n := t.tmMday) (by decide) (by omega) (by omega),
      length_padded (n := t.tmHour) (by decide) (by omega) (by omega),
      length_padded (n := t.tmMin) (by decide) (by omega) (by omega),
      length_padded (n := t.tmSec) (by decide) (by omega) (by omega),
      length_padded (n := t.tvUsec) (by decide) (by omega) (by omega)]
    omega
  omega

theorem zero_not_mem_lineHeader (level : ℤ) (t : LocalTime) :
  0 ∉ lineHeader level t
  := by
  have hlevel : 0 ∉ levelText level := by
    rw [levelText]
    split_ifs <;> decide
  have hdash : 0 ∉ ascii "-" := by decide
  have hblank : 0 ∉ ascii " " := by decide
  have hcolon : 0 ∉ ascii ":" := by decide
  have hdot : 0 ∉ ascii "." := by decide
  have hnumber := not_mem_padded (b := 0) (by decide) rfl
  simp only [lineHeader, decimal, List.mem_append, not_or, hnumber, hlevel, hdash, hblank, hcolon,
    hdot, not_false_eq_true, and_self]

/-! ### The line -/

theorem storeAt_eq_ok {size : ℕ} {m m' : Memory} {p : ℤ} {l : List UInt8}
    (h : storeAt size m p l = .ok m') :
  p + l.length ≤ size
  := by
  rw [storeAt] at h
  split at h
  next hp => exact hp.2
  next => cases h

theorem storeAt_nat {size : ℕ} (m : Memory) {p : ℕ} {l : List UInt8} (h : p + l.length ≤ size) :
  storeAt size m p l = .ok (writeAt m p l)
  := by
  rw [storeAt, if_pos (by omega), Int.toNat_natCast]

theorem length_vsnprintf {n : ℕ} (hn : 0 < n) (text : List UInt8) :
  (HttpConn.vsnprintf n text).length = min (n - 1) text.length + 1
  := by
  rw [HttpConn.vsnprintf, if_neg hn.ne', List.length_append, List.length_take]
  rfl

theorem vsnprintf_of_lt {n : ℕ} {text : List UInt8} (h : text.length < n) :
  HttpConn.vsnprintf n text = text ++ [0]
  := by
  rw [HttpConn.vsnprintf, if_neg (by omega), List.take_of_length_le (by omega)]

/-- `snprintf` returns the length of the time and the level. -/
theorem vsnprintfReturn_lineHeader (level : ℤ) (t : LocalTime) :
  vsnprintfReturn (lineHeader level t) = (lineHeader level t).length
  := by
  have hlength := length_lineHeader level t
  rw [vsnprintfReturn, if_pos (by omega)]

/-- The line that is stored when it fits, up to a NUL in the text. -/
def line (level : ℤ) (t : LocalTime) (text : List UInt8) : List UInt8 :=
  lineHeader level t ++ (text ++ [10, 0]).takeWhile (· != 0)

/-- A store behind the bytes `l` keeps them. -/
theorem storeAt_over {size : ℕ} (m : Memory) {l l₁ l₂ : List UInt8} (hlen : l₁.length ≤ l₂.length)
    (hsize : l.length + l₂.length ≤ size) :
  storeAt size (writeAt m 0 (l ++ l₁)) l.length l₂ = .ok (writeAt m 0 (l ++ l₂))
  := by
  have hover := writeAt_append_over m 0 l hlen
  rw [Nat.zero_add] at hover
  rw [storeAt_nat _ hsize, hover]

/-- The stores of the time and the level, the text, the newline and the NUL. -/
theorem formatLine_eq {mLogBufSize : ℕ} (hint : mLogBufSize < 2 ^ 31) (mBuf : Memory)
    {level : ℤ} {t : LocalTime} {text : List UInt8}
    (h : (lineHeader level t).length + text.length + 2 ≤ mLogBufSize) :
  formatLine mLogBufSize mBuf level t text =
    .ok (stringAt (writeAt mBuf 0 (lineHeader level t ++ text ++ [10] ++ [0])) mLogBufSize 0,
      writeAt mBuf 0 (lineHeader level t ++ text ++ [10] ++ [0]))
  := by
  have hheader := length_lineHeader level t
  have hm : vsnprintfReturn text = text.length := if_pos (by omega)
  have hone : ∀ b : UInt8, [b].length = 1 := fun _ => rfl
  have htext : (text ++ [0]).length = text.length + 1 := List.length_append
  have hline : (lineHeader level t ++ text).length
      = (lineHeader level t).length + text.length := List.length_append
  have hnewline : (lineHeader level t ++ text ++ [10]).length
      = (lineHeader level t).length + text.length + 1 := by
    rw [List.length_append, hline, hone]
  -- each store begins where the NUL of the one before it is
  have h₁ : storeAt mLogBufSize mBuf 0 (HttpConn.vsnprintf 48 (lineHeader level t))
      = .ok (writeAt mBuf 0 (lineHeader level t ++ [0])) := by
    rw [vsnprintf_of_lt (by omega)]
    apply storeAt_nat (p := 0)
    rw [List.length_append, hone]
    omega
  have h₂ : storeAt mLogBufSize (writeAt mBuf 0 (lineHeader level t ++ [0]))
      (lineHeader level t).length (HttpConn.vsnprintf (mLogBufSize - 1) text)
        = .ok (writeAt mBuf 0 (lineHeader level t ++ (text ++ [0]))) := by
    rw [vsnprintf_of_lt (by omega)]
    apply storeAt_over
    · rw [hone, htext]
      omega
    · rw [htext]
      omega
  have h₃ : storeAt mLogBufSize (writeAt mBuf 0 (lineHeader level t ++ text ++ [0]))
      (lineHeader level t ++ text).length [10]
        = .ok (writeAt mBuf 0 (lineHeader level t ++ text ++ [10])) := by
    apply storeAt_over
    · rw [hone, hone]
    · rw [hline, hone]
      omega
  have h₄ : storeAt mLogBufSize (writeAt mBuf 0 (lineHeader level t ++ text ++ [10] ++ []))
      (lineHeader level t ++ text ++ [10]).length [0]
        = .ok (writeAt mBuf 0 (lineHeader level t ++ text ++ [10] ++ [0])) := by
    apply storeAt_over
    · apply Nat.zero_le
    · rw [hnewline, hone]
      omega
  rw [List.append_assoc, hline] at h₃
  rw [List.append_nil, hnewline] at h₄
  push_cast at h₃ h₄
  rw [formatLine]
  dsimp only
  rw [vsnprintfReturn_lineHeader, hm, h₁, ok_bind, h₂, ok_bind, h₃, ok_bind, h₄, ok_bind]

/-- A text that leaves two bytes of the buffer is stored with its newline and its NUL. -/
theorem formatLine_of_fits {mLogBufSize : ℕ} (hint : mLogBufSize < 2 ^ 31) (mBuf : Memory)
    {level : ℤ} {t : LocalTime} {text : List UInt8}
    (h : (lineHeader level t).length + text.length + 2 ≤ mLogBufSize) :
  ∃ mBuf', formatLine mLogBufSize mBuf level t text = .ok (line level t text, mBuf')
  := by
  have hnul : 0 ∈ lineHeader level t ++ text ++ [10] ++ [0] := List.mem_concat_self
  have hsize : (lineHeader level t ++ text ++ [10] ++ [0]).length ≤ mLogBufSize := by
    simp only [List.length_append, List.length_cons, List.length_nil]
    omega
  refine ⟨writeAt mBuf 0 (lineHeader level t ++ text ++ [10] ++ [0]), ?_⟩
  rw [formatLine_eq hint mBuf h, stringAt_writeAt mBuf hnul hsize, line, List.append_assoc,
    List.append_assoc, takeWhile_ne_append (zero_not_mem_lineHeader level t)]
  rfl

/-- When all stores are in the buffer, the text leaves two bytes of it. -/
theorem fits_of_formatLine {mLogBufSize : ℕ} (hint : mLogBufSize < 2 ^ 31) {mBuf mBuf' : Memory}
    {level : ℤ} {t : LocalTime} {text stored : List UInt8}
    (h : formatLine mLogBufSize mBuf level t text = .ok (stored, mBuf')) :
  (lineHeader level t).length + text.length + 2 ≤ mLogBufSize
  := by
  have hheader := length_lineHeader level t
  rw [formatLine] at h
  dsimp only at h
  rw [vsnprintfReturn_lineHeader] at h
  obtain ⟨m₁, h₁, h⟩ := bind_eq_ok.mp h
  obtain ⟨m₂, h₂, h⟩ := bind_eq_ok.mp h
  obtain ⟨m₃, h₃, h⟩ := bind_eq_ok.mp h
  obtain ⟨m₄, h₄, h⟩ := bind_eq_ok.mp h
  have hfirst := storeAt_eq_ok h₁
  have hsecond := storeAt_eq_ok h₂
  have hlast := storeAt_eq_ok h₄
  rw [length_vsnprintf (by decide)] at hfirst
  rw [length_vsnprintf (by omega)] at hsecond
  rw [vsnprintfReturn] at hlast
  split at hlast
  next =>
    rw [List.length_singleton] at hlast
    omega
  next => omega

/-- All bytes that `write_log` stores are in `m_buf`, and the line is the time and the level,
a beginning of the text and a newline. -/
def LineFits (mLogBufSize : ℕ) (mBuf : Memory) (level : ℤ) (t : LocalTime)
    (text : List UInt8) : Prop :=
  ∃ stored mBuf', formatLine mLogBufSize mBuf level t text = .ok (stored, mBuf') ∧
    ∃ shown, shown <+: text ∧ stored = lineHeader level t ++ shown ++ [10]

/-- What stands behind the time and the level. -/
theorem takeWhile_text (text : List UInt8) :
  (text ++ [10, 0]).takeWhile (· != 0)
    = if 0 ∈ text then text.takeWhile (· != 0) else text ++ [10]
  := by
  split
  next hnul =>
    obtain ⟨v, w, rfl, hv⟩ := List.eq_append_cons_of_mem hnul
    rw [List.append_assoc, List.cons_append, takeWhile_ne_cons hv, takeWhile_ne_cons hv]
  next hnul => exact takeWhile_ne_append hnul _

/-- A line fits exactly when its text leaves two bytes of the buffer to the newline and the
NUL, and has no NUL, or one that follows a newline. -/
theorem lineFits_iff {mLogBufSize : ℕ} (hint : mLogBufSize < 2 ^ 31) (mBuf : Memory) (level : ℤ)
    (t : LocalTime) (text : List UInt8) :
  LineFits mLogBufSize mBuf level t text ↔
    (lineHeader level t).length + text.length + 2 ≤ mLogBufSize ∧
      (0 ∈ text → ∃ shown, text.takeWhile (· != 0) = shown ++ [10])
  := by
  constructor
  · rintro ⟨stored, mBuf', hstored, shown, -, hline⟩
    have hfits := fits_of_formatLine hint hstored
    refine ⟨hfits, ?_⟩
    intro hnul
    obtain ⟨mBuf'', hformat⟩ := formatLine_of_fits hint mBuf hfits
    obtain ⟨rfl, -⟩ := Prod.mk.inj (Except.ok.inj (hformat.symm.trans hstored))
    rw [line, takeWhile_text, if_pos hnul, List.append_assoc] at hline
    exact ⟨shown, List.append_cancel_left hline⟩
  · rintro ⟨hfits, hnul⟩
    obtain ⟨mBuf', hformat⟩ := formatLine_of_fits hint mBuf hfits
    refine ⟨_, mBuf', hformat, ?_⟩
    rw [line, takeWhile_text]
    split
    next hmem =>
      obtain ⟨shown, hshown⟩ := hnul hmem
      refine ⟨shown, ?_, ?_⟩
      · have hprefix : text.takeWhile (· != 0) <+: text := List.takeWhile_prefix _
        rw [hshown] at hprefix
        apply (List.prefix_append shown [10]).trans hprefix
      · rw [hshown, List.append_assoc]
    next =>
      refine ⟨text, List.prefix_refl text, ?_⟩
      rw [List.append_assoc]

/-- Midnight of the first of May 2024. -/
def mayFirst : LocalTime where
  tmYear := 124
  tmMon := 4
  tmMday := 1
  tmHour := 0
  tmMin := 0
  tmSec := 0
  tvUsec := 0
  year_int := by decide
  mon_range := by decide
  mday_range := by decide
  hour_range := by decide
  min_range := by decide
  sec_range := by decide
  usec_range := by decide

theorem length_lineHeader_mayFirst :
  (lineHeader 1 mayFirst).length = 35
  := by decide

/-- A request line in the buffer of `main`. -/
theorem lineFits_request :
  LineFits 2000 (fun _ => 0) 1 mayFirst (ascii "GET / HTTP/1.1")
  := by
  apply (lineFits_iff (by decide) (fun _ => 0) 1 mayFirst (ascii "GET / HTTP/1.1")).mpr
  exact ⟨by decide, fun hnul => absurd hnul (by decide)⟩

/-- A request line of 1964 bytes does not fit the buffer of `main`. -/
theorem not_lineFits :
  ¬ ∀ (mLogBufSize : ℕ) (mBuf : Memory) (level : ℤ) (t : LocalTime) (text : List UInt8),
    64 ≤ mLogBufSize → mLogBufSize < 2 ^ 31 → 0 ∉ text → LineFits mLogBufSize mBuf level t text
  := by
  intro h
  have hnul : 0 ∉ List.replicate 1964 (97 : UInt8) := by
    intro hmem
    apply absurd (List.eq_of_mem_replicate hmem) (by decide)
  obtain ⟨stored, mBuf', hformat, -⟩ := h 2000 (fun _ => 0) 1 mayFirst (List.replicate 1964 97)
    (by decide) (by decide) hnul
  have hfits := fits_of_formatLine (show 2000 < 2 ^ 31 by decide) hformat
  rw [length_lineHeader_mayFirst, List.length_replicate] at hfits
  omega

end Log

end WebServer
