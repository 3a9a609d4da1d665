import WebServer.Lib.Printf
import WebServer.Log.WriteLog

/-!
# The log files

`Log::init` and the part of `write_log` that changes the log file, in synchronous mode with
one thread, down to the bytes of the file names: `init` splits the configured name at its
last slash into the buffers `dir_name` and `log_name`, and a rotation builds the next name
from these.  A copy that overruns its buffer, or one without room for a NUL, leaves the
program without a behaviour.  Opening a file is assumed to succeed.

`Rotation` is the same without the bytes: a log file is the day in its name and the number
behind it.  The log does what the rotation does (`exec_files`), so what holds of the days
and the numbers of a rotation holds of the names.
-/

open CString Printf

namespace WebServer

/-- `%d_%02d_%02d_` of a day, whose year and month are as they are printed. -/
def dateText (day : Day) : List UInt8 :=
  decimal day.year ++ 95 :: (padded 2 day.mon ++ 95 :: (padded 2 day.mday ++ [95]))

/-- Days are ordered by year, month and day of the month. -/
instance : LE Day where
  le d e := d.year < e.year ∨ d.year = e.year ∧ (d.mon < e.mon ∨ d.mon = e.mon ∧ d.mday ≤ e.mday)

theorem Day.le_def {d e : Day} :
  d ≤ e ↔ d.year < e.year ∨ d.year = e.year ∧ (d.mon < e.mon ∨ d.mon = e.mon ∧ d.mday ≤ e.mday)
  := Iff.rfl

instance (d e : Day) : Decidable (d ≤ e) := decidable_of_iff _ Day.le_def.symm

instance : PartialOrder Day where
  le_refl d := Or.inr ⟨rfl, Or.inr ⟨rfl, le_rfl⟩⟩
  le_trans d e g hde heg := by
    rw [Day.le_def] at hde heg ⊢
    omega
  le_antisymm d e hde hed := by
    rw [Day.le_def] at hde hed
    cases d
    cases e
    rw [Day.mk.injEq]
    dsimp only at hde hed
    omega

/-- What stands behind the base of the name of a log file. -/
def numberText : Option ℤ → List UInt8
  | none => []
  | some n => 46 :: decimal n

/-- The file name passed to `Log::init`. -/
structure FileName where
  bytes : List UInt8
  no_nul : 0 ∉ bytes

/-- The size of `dir_name` and of `log_name`. -/
def namePartSize : ℕ := 128

/-- Copies bytes to the beginning of `dir_name` or `log_name`. -/
def copyPart (m : Memory) (l : List UInt8) : Option Memory :=
  if l.length ≤ namePartSize then some (writeAt m 0 l) else none

/-- The string in `dir_name` or `log_name`. -/
def readPart (m : Memory) : Option (List UInt8) :=
  if (stringAt m namePartSize 0).length < namePartSize then
    some (stringAt m namePartSize 0)
  else
    none

/-- The fields of `Log` that decide into which file a line goes, the names of the files
opened so far, and the lines written so far, each as the file it went to and its day. -/
structure FileLog where
  dirName : Memory
  logName : Memory
  mSplitLines : ℤ
  mCount : ℤ
  mToday : ℤ
  mFp : List UInt8
  opened : List (List UInt8)
  lines : List (List UInt8 × Day)

namespace FileLog

/-- The object before `init`, a static one. -/
def zeroed : FileLog where
  dirName := fun _ => 0
  logName := fun _ => 0
  mSplitLines := 0
  mCount := 0
  mToday := 0
  mFp := []
  opened := []
  lines := []

/-- `m_fp = fopen(name, "a")`. -/
def fopen (s : FileLog) (name : List UInt8) : FileLog :=
  { s with mFp := name, opened := s.opened ++ [name] }

/-- `Log::init`. -/
def init (s : FileLog) (fileName : FileName) (splitLines : ℤ) (day : Day) : Option FileLog :=
  let s := { s with mSplitLines := splitLines, mToday := day.mday }
  match lastIndexOf fileName.bytes 47 with
  | none => some (s.fopen (snprintf 255 (dateText day ++ fileName.bytes)))
  | some p => do
    let logName ← copyPart s.logName (fileName.bytes.drop (p + 1) ++ [0])
    let dirName ← copyPart s.dirName (fileName.bytes.take (p + 1))
    let dir ← readPart dirName
    let base ← readPart logName
    some ({ s with dirName := dirName, logName := logName }.fopen
      (snprintf 255 (dir ++ dateText day ++ base)))

/-- `write_log` up to its first `unlock`: it counts a line and opens another log file when
one is due.  A division by zero has no result. -/
def rotate (s : FileLog) (day : Day) : Option FileLog :=
  let count := s.mCount + 1
  let tail := snprintf 16 (dateText day)
  if s.mToday ≠ day.mday then do
    let dir ← readPart s.dirName
    let base ← readPart s.logName
    some ({ s with mToday := day.mday, mCount := 0 }.fopen (snprintf 255 (dir ++ tail ++ base)))
  else if s.mSplitLines = 0 then
    none
  else if count.tmod s.mSplitLines = 0 then do
    let dir ← readPart s.dirName
    let base ← readPart s.logName
    some ({ s with mCount := count }.fopen
      (snprintf 255 (dir ++ tail ++ base ++ 46 :: decimal (count.tdiv s.mSplitLines))))
  else
    some { s with mCount := count }

/-- `write_log`. -/
def writeLog (s : FileLog) (day : Day) : Option FileLog :=
  (s.rotate day).map fun s => { s with lines := s.lines ++ [(s.mFp, day)] }

end FileLog

/-! ### The parts of a file name -/

namespace FileName

/-- What `init` copies into `dir_name`. -/
def dirPart (f : FileName) : List UInt8 :=
  match lastIndexOf f.bytes 47 with
  | none => []
  | some p => f.bytes.take (p + 1)

/-- What `init` copies into `log_name`. -/
def basePart (f : FileName) : List UInt8 :=
  match lastIndexOf f.bytes 47 with
  | none => []
  | some p => f.bytes.drop (p + 1)

/-- The parts fit their buffers. -/
structure PartsFit (f : FileName) : Prop where
  dir : f.dirPart.length < namePartSize
  base : f.basePart.length < namePartSize

/-- The name that `init` builds, before it is cut off. -/
def initText (f : FileName) (day : Day) : List UInt8 :=
  if 47 ∈ f.bytes then
    f.dirPart ++ dateText day ++ f.basePart
  else
    dateText day ++ f.bytes

/-- The name of a log file, before it is cut off. -/
def fullText (f : FileName) (file : LogFile) : List UInt8 :=
  f.dirPart ++ snprintf 16 (dateText file.day) ++ f.basePart ++ numberText file.number

/-- The name of a log file. -/
def text (f : FileName) (file : LogFile) : List UInt8 := snprintf 255 (f.fullText file)

end FileName

/-! ### The log files by their days and numbers -/

/-- The log files without the bytes of their names. -/
structure Rotation where
  count : ℤ
  today : ℤ
  file : LogFile
  opened : List LogFile
  lines : List (LogFile × Day)

namespace Rotation

/-- The rotation after `init`. -/
def start (day : Day) : Rotation where
  count := 0
  today := day.mday
  file := ⟨day, none⟩
  opened := [⟨day, none⟩]
  lines := []

/-- The line of a call goes to a new file. -/
def turn (r : Rotation) (count : ℤ) (file : LogFile) : Rotation where
  count := count
  today := file.day.mday
  file := file
  opened := r.opened ++ [file]
  lines := r.lines ++ [(file, file.day)]

/-- A call of `write_log`. -/
def write (splitLines : ℤ) (r : Rotation) (day : Day) : Rotation :=
  if r.today ≠ day.mday then
    r.turn 0 ⟨day, none⟩
  else if splitLines ∣ r.count + 1 then
    r.turn (r.count + 1) ⟨day, some ((r.count + 1) / splitLines)⟩
  else
    { r with count := r.count + 1, lines := r.lines ++ [(r.file, day)] }

/-- The calls of `write_log` on the days of a list. -/
def writeAll (splitLines : ℤ) (r : Rotation) (days : List Day) : Rotation :=
  days.foldl (write splitLines) r

end Rotation

/-! ### The names that `init` and a rotation build -/

/-- The day can be read off its text, and what follows it. -/
theorem dateText_append_inj {d d' : Day} {x y : List UInt8}
    (h : dateText d ++ x = dateText d' ++ y) :
  d = d' ∧ x = y
  := by
  have hsep (w : ℕ) (n : ℤ) : 95 ∉ padded w n := not_mem_padded (by decide) rfl w n
  simp only [dateText, List.append_assoc, List.cons_append, List.nil_append] at h
  obtain ⟨hyear, h⟩ := append_cons_inj (hsep 0 _) (hsep 0 _) h
  obtain ⟨hmon, h⟩ := append_cons_inj (hsep 2 _) (hsep 2 _) h
  obtain ⟨hmday, h⟩ := append_cons_inj (hsep 2 _) (hsep 2 _) h
  refine ⟨?_, h⟩
  cases d
  cases d'
  rw [Day.mk.injEq]
  exact ⟨padded_injective 0 hyear, padded_injective 2 hmon, padded_injective 2 hmday⟩

theorem numberText_injective :
  Function.Injective numberText
  := by
  intro n n' h
  cases n with
  | none =>
      cases n' with
      | none => rfl
      | some k => cases h
  | some k =>
      cases n' with
      | none => cases h
      | some k' => rw [padded_injective 0 (List.cons.inj h).2]

/-- What is copied into a part that was zero is the string in it. -/
theorem readPart_of_spells {m : Memory} {l : List UInt8} (h : Spells m 0 l)
    (hend : m l.length = 0) (hl : 0 ∉ l) (hlength : l.length < namePartSize) :
  readPart m = some l
  := by
  have hstring : stringAt m namePartSize 0 = l := by
    apply stringAt_spells h _ hl
    · rw [Nat.zero_add]
      exact hlength
    · rw [Nat.zero_add]
      exact hend
  rw [readPart, hstring, if_pos hlength]

/-- A part that is shorter than its buffer is copied there, with a NUL behind it or to where
there was one. -/
theorem copyPart_eq_some {m : Memory} (hm : m = fun _ => 0) {l tail : List UInt8}
    (htail : tail = [] ∨ tail = [0]) (hl : 0 ∉ l) (hlength : l.length < namePartSize) :
  ∃ m', copyPart m (l ++ tail) = some m' ∧ readPart m' = some l
  := by
  subst hm
  refine ⟨writeAt (fun _ => 0) 0 (l ++ tail), if_pos ?_, ?_⟩
  · rw [List.length_append]
    rcases htail with rfl | rfl
    · apply hlength.le
    · apply hlength
  · have hspells := spells_writeAt (fun _ => 0) 0 (l ++ tail)
    rw [spells_append, Nat.zero_add] at hspells
    apply readPart_of_spells hspells.1 _ hl hlength
    rcases htail with rfl | rfl
    · rw [List.append_nil, writeAt_of_ge _ _ (Nat.zero_add _).le]
    · apply hspells.2.1

/-- A part that can be read is shorter than its buffer. -/
theorem length_lt_of_readPart {m m' : Memory} {l part : List UInt8} (hl : 0 ∉ l)
    (hcopy : copyPart m l = some m') (hread : readPart m' = some part) :
  l.length < namePartSize
  := by
  obtain ⟨-, hm'⟩ := Option.ite_none_right_eq_some.mp hcopy
  obtain rfl := Option.some.inj hm'
  obtain ⟨hlength, -⟩ := Option.ite_none_right_eq_some.mp hread
  have hend : writeAt m 0 l (0 + (stringAt (writeAt m 0 l) namePartSize 0).length) = 0 := by
    apply stringAt_end
    rw [Nat.zero_add]
    exact hlength
  by_contra hge
  have hlt : (stringAt (writeAt m 0 l) namePartSize 0).length < l.length :=
    hlength.trans_le (not_lt.mp hge)
  rw [writeAt_add _ _ hlt] at hend
  apply hl (hend ▸ List.getElem_mem hlt)

namespace FileName

theorem zero_not_mem_dirPart (f : FileName) :
  0 ∉ f.dirPart
  := by
  rw [dirPart]
  split
  · apply List.not_mem_nil
  · intro hmem
    apply f.no_nul (List.mem_of_mem_take hmem)

theorem zero_not_mem_basePart (f : FileName) :
  0 ∉ f.basePart
  := by
  rw [basePart]
  split
  · apply List.not_mem_nil
  · intro hmem
    apply f.no_nul (List.mem_of_mem_drop hmem)

/-- The parts of a name with a slash. -/
theorem parts_of_mem {f : FileName} (h : 47 ∈ f.bytes) :
  ∃ p, lastIndexOf f.bytes 47 = some p ∧ f.dirPart = f.bytes.take (p + 1) ∧
    f.basePart = f.bytes.drop (p + 1)
  := by
  obtain ⟨v, w, hbytes, hw⟩ := eq_append_last h
  have hlast := lastIndexOf_append hw v
  rw [← hbytes] at hlast
  refine ⟨v.length, hlast, ?_, ?_⟩
  · rw [dirPart, hlast]
  · rw [basePart, hlast]

/-- A name without a slash leaves the parts empty. -/
theorem parts_of_not_mem {f : FileName} (h : 47 ∉ f.bytes) :
  lastIndexOf f.bytes 47 = none ∧ f.dirPart = [] ∧ f.basePart = []
  := by
  have hlast := lastIndexOf_eq_none h
  refine ⟨hlast, ?_, ?_⟩
  · rw [dirPart, hlast]
  · rw [basePart, hlast]

end FileName

namespace FileLog

/-- The parts of the file name are in their buffers. -/
structure Keeps (f : FileName) (splitLines : ℤ) (s : FileLog) : Prop where
  dir : readPart s.dirName = some f.dirPart
  base : readPart s.logName = some f.basePart
  splitLines : s.mSplitLines = splitLines
  nonneg : 0 ≤ s.mCount

/-- What `init` does with a name whose parts fit their buffers. -/
structure Initial (f : FileName) (splitLines : ℤ) (day : Day) (s : FileLog) : Prop
    extends Keeps f splitLines s where
  count : s.mCount = 0
  today : s.mToday = day.mday
  file : s.mFp = snprintf 255 (f.initText day)
  opened : s.opened = [s.mFp]
  lines : s.lines = []

theorem init_eq_some {f : FileName} (hfit : f.PartsFit) (splitLines : ℤ) (day : Day) :
  ∃ s, zeroed.init f splitLines day = some s ∧ Initial f splitLines day s
  := by
  by_cases hslash : 47 ∈ f.bytes
  · obtain ⟨p, hlast, hdir, hbase⟩ := FileName.parts_of_mem hslash
    obtain ⟨dirName, hdirCopy, hdirRead⟩ := copyPart_eq_some (m := zeroed.dirName) rfl
      (Or.inl rfl) f.zero_not_mem_dirPart hfit.dir
    obtain ⟨logName, hbaseCopy, hbaseRead⟩ := copyPart_eq_some (m := zeroed.logName) rfl
      (Or.inr rfl) f.zero_not_mem_basePart hfit.base
    rw [List.append_nil] at hdirCopy
    have hinit : zeroed.init f splitLines day = some ({ zeroed with
        mSplitLines := splitLines
        mToday := day.mday
        dirName := dirName
        logName := logName }.fopen (snprintf 255 (f.dirPart ++ dateText day ++ f.basePart))) := by
      rw [init, hlast]
      dsimp only
      rw [← hdir, ← hbase]
      simp only [Option.bind_eq_bind, hbaseCopy, hdirCopy, hdirRead, hbaseRead, Option.bind_some]
    refine ⟨_, hinit, ⟨hdirRead, hbaseRead, rfl, le_rfl⟩, rfl, rfl, ?_, rfl, rfl⟩
    rw [FileName.initText, if_pos hslash]
    rfl
  · obtain ⟨hlast, hdir, hbase⟩ := FileName.parts_of_not_mem hslash
    have hempty : readPart (fun _ => 0) = some [] :=
      readPart_of_spells (spells_nil _ _) rfl List.not_mem_nil (by decide)
    have hinit : zeroed.init f splitLines day = some ({ zeroed with
        mSplitLines := splitLines
        mToday := day.mday }.fopen (snprintf 255 (dateText day ++ f.bytes))) := by
      rw [init, hlast]
    refine ⟨_, hinit, ⟨?_, ?_, rfl, le_rfl⟩, rfl, rfl, ?_, rfl, rfl⟩
    · rw [hdir]
      exact hempty
    · rw [hbase]
      exact hempty
    · rw [FileName.initText, if_neg hslash]
      rfl

/-! ### What `write_log` does -/

/-- The log with another file, to which the line of the call goes. -/
def turn (s : FileLog) (count : ℤ) (name : List UInt8) (day : Day) : FileLog :=
  { s with
    mCount := count
    mToday := day.mday
    mFp := name
    opened := s.opened ++ [name]
    lines := s.lines ++ [(name, day)] }

/-- On another day of the month the line goes to the file of the day. -/
theorem Keeps.writeLog_day {f : FileName} {splitLines : ℤ} {s : FileLog}
    (h : Keeps f splitLines s) {day : Day} (hday : s.mToday ≠ day.mday) :
  s.writeLog day = some (s.turn 0 (f.text ⟨day, none⟩) day)
  := by
  rw [writeLog, rotate, if_pos hday]
  simp only [Option.bind_eq_bind, h.dir, h.base, Option.bind_some, Option.map_some, FileName.text,
    FileName.fullText, numberText, List.append_nil]
  rfl

/-- After another `m_split_lines` lines the line goes to the next file of the day. -/
theorem Keeps.writeLog_number {f : FileName} {splitLines : ℤ} (hsplit : 1 ≤ splitLines)
    {s : FileLog} (h : Keeps f splitLines s) {day : Day} (hday : s.mToday = day.mday)
    (hdvd : splitLines ∣ s.mCount + 1) :
  s.writeLog day = some
    (s.turn (s.mCount + 1) (f.text ⟨day, some ((s.mCount + 1) / splitLines)⟩) day)
  := by
  obtain rfl := h.splitLines
  have hnonneg : 0 ≤ s.mCount + 1 := Int.add_nonneg h.nonneg Int.one_nonneg
  have hmod : (s.mCount + 1).tmod s.mSplitLines = 0 := Int.tmod_eq_zero_of_dvd hdvd
  rw [writeLog, rotate, if_neg (not_not.mpr hday), if_neg (by omega), if_pos hmod,
    Int.tdiv_eq_ediv_of_nonneg hnonneg]
  simp only [Option.bind_eq_bind, h.dir, h.base, Option.bind_some, Option.map_some, FileName.text,
    FileName.fullText, numberText]
  rw [turn, ← hday]
  rfl

/-- Otherwise the line goes to the file that is open. -/
theorem Keeps.writeLog_same {f : FileName} {splitLines : ℤ} (hsplit : 1 ≤ splitLines)
    {s : FileLog} (h : Keeps f splitLines s) {day : Day} (hday : s.mToday = day.mday)
    (hdvd : ¬ splitLines ∣ s.mCount + 1) :
  s.writeLog day = some { s with mCount := s.mCount + 1, lines := s.lines ++ [(s.mFp, day)] }
  := by
  obtain rfl := h.splitLines
  have hmod : (s.mCount + 1).tmod s.mSplitLines ≠ 0 := mt Int.dvd_of_tmod_eq_zero hdvd
  rw [writeLog, rotate, if_neg (not_not.mpr hday), if_neg (by omega), if_neg hmod]
  rfl

/-- The parts of the name stay in their buffers. -/
theorem Keeps.writeLog {f : FileName} {splitLines : ℤ} (hsplit : 1 ≤ splitLines) {s : FileLog}
    (h : Keeps f splitLines s) (day : Day) :
  ∃ s', s.writeLog day = some s' ∧ Keeps f splitLines s'
  := by
  by_cases hday : s.mToday = day.mday
  · have hnonneg : 0 ≤ s.mCount + 1 := Int.add_nonneg h.nonneg Int.one_nonneg
    by_cases hdvd : splitLines ∣ s.mCount + 1
    · exact ⟨_, h.writeLog_number hsplit hday hdvd, h.dir, h.base, h.splitLines, hnonneg⟩
    · exact ⟨_, h.writeLog_same hsplit hday hdvd, h.dir, h.base, h.splitLines, hnonneg⟩
  · exact ⟨_, h.writeLog_day hday, h.dir, h.base, h.splitLines, le_rfl⟩

end FileLog

/-! ### The log does what the rotation does -/

namespace Rotation

theorem writeAll_cons (splitLines : ℤ) (r : Rotation) (day : Day) (days : List Day) :
  r.writeAll splitLines (day :: days) = (r.write splitLines day).writeAll splitLines days
  := rfl

/-- What no call takes out of a list, no run of calls does. -/
theorem subset_writeAll {α : Type*} {f : Rotation → List α} {splitLines : ℤ}
    (h : ∀ r day, f r ⊆ f (r.write splitLines day)) (r : Rotation) (days : List Day) :
  f r ⊆ f (r.writeAll splitLines days)
  := by
  induction days generalizing r with
  | nil => exact List.Subset.refl _
  | cons day days ih => exact List.Subset.trans (h r day) (ih (r.write splitLines day))

theorem write_day (splitLines : ℤ) {r : Rotation} {day : Day} (hday : r.today ≠ day.mday) :
  r.write splitLines day = r.turn 0 ⟨day, none⟩
  := if_pos hday

theorem write_number {splitLines : ℤ} {r : Rotation} {day : Day} (hday : r.today = day.mday)
    (hdvd : splitLines ∣ r.count + 1) :
  r.write splitLines day = r.turn (r.count + 1) ⟨day, some ((r.count + 1) / splitLines)⟩
  := by
  rw [write, if_neg (not_not.mpr hday), if_pos hdvd]

theorem write_same {splitLines : ℤ} {r : Rotation} {day : Day} (hday : r.today = day.mday)
    (hdvd : ¬ splitLines ∣ r.count + 1) :
  r.write splitLines day = { r with count := r.count + 1, lines := r.lines ++ [(r.file, day)] }
  := by
  rw [write, if_neg (not_not.mpr hday), if_neg hdvd]

theorem exec_writeAll (splitLines : ℤ) (r : Rotation) (days : List Day) :
  Run.exec (fun r day => some (write splitLines r day)) r days = some (writeAll splitLines r days)
  := by
  induction days generalizing r with
  | nil => rfl
  | cons day days ih => exact ih (r.write splitLines day)

/-- `write_log` of any number of threads changes the log file in the same way. -/
theorem rotate_eq {α : Type*} {s : Log α} {r : Rotation} (hsplit : 1 ≤ s.mSplitLines)
    (hnonneg : 0 ≤ r.count) (hcount : s.mCount = r.count) (htoday : s.mToday = r.today)
    (hfile : s.mFp = r.file) (day : Day) :
  s.rotate day = some { s with
    mCount := (r.write s.mSplitLines day).count
    mToday := (r.write s.mSplitLines day).today
    mFp := (r.write s.mSplitLines day).file }
  := by
  have hdvd : (s.mCount + 1).tmod s.mSplitLines = 0 ↔ s.mSplitLines ∣ r.count + 1 := by
    rw [hcount]
    exact ⟨Int.dvd_of_tmod_eq_zero, Int.tmod_eq_zero_of_dvd⟩
  rw [Log.rotate, write, htoday]
  split
  next => rfl
  next hday =>
    rw [if_neg (by omega)]
    split
    next hmod =>
      rw [if_pos (hdvd.mp hmod), hcount, Int.tdiv_eq_ediv_of_nonneg (by omega)]
      simp only [turn, ← not_not.mp hday, ← htoday]
    next hmod =>
      rw [if_neg (mt hdvd.mpr hmod), hcount]
      simp only [← htoday, ← hfile]

end Rotation

namespace FileLog

/-- The log does what the rotation `r` does. -/
structure Follows (f : FileName) (splitLines : ℤ) (s : FileLog) (r : Rotation) : Prop
    extends Keeps f splitLines s where
  count : s.mCount = r.count
  today : s.mToday = r.today
  file : s.mFp = f.text r.file
  opened : s.opened = r.opened.map f.text
  lines : s.lines = r.lines.map fun l => (f.text l.1, l.2)

theorem Follows.turn {f : FileName} {splitLines : ℤ} {s : FileLog} {r : Rotation}
    (h : Follows f splitLines s r) {count : ℤ} (hcount : 0 ≤ count) (file : LogFile) :
  Follows f splitLines (s.turn count (f.text file) file.day) (r.turn count file)
  where
  dir := h.dir
  base := h.base
  splitLines := h.splitLines
  nonneg := hcount
  count := rfl
  today := rfl
  file := rfl
  opened := by
    rw [FileLog.turn, Rotation.turn, List.map_append, ← h.opened]
    rfl
  lines := by
    rw [FileLog.turn, Rotation.turn, List.map_append, ← h.lines]
    rfl

theorem Follows.writeLog {f : FileName} {splitLines : ℤ} (hsplit : 1 ≤ splitLines) {s : FileLog}
    {r : Rotation} (h : Follows f splitLines s r) (day : Day) :
  ∃ s', s.writeLog day = some s' ∧ Follows f splitLines s' (r.write splitLines day)
  := by
  have hnonneg : 0 ≤ r.count + 1 := by
    rw [← h.count]
    apply Int.add_nonneg h.nonneg Int.one_nonneg
  rw [Rotation.write, ← h.today]
  split
  next hday => exact ⟨_, h.writeLog_day hday, h.turn le_rfl ⟨day, none⟩⟩
  next hday =>
    have hcount := h.count
    split
    next hdvd =>
      rw [← hcount] at hdvd hnonneg ⊢
      exact ⟨_, h.writeLog_number hsplit (not_not.mp hday) hdvd, h.turn hnonneg _⟩
    next hdvd =>
      rw [← hcount] at hdvd hnonneg
      refine ⟨_, h.writeLog_same hsplit (not_not.mp hday) hdvd,
        ⟨h.dir, h.base, h.splitLines, hnonneg⟩, ?_, rfl, h.file, h.opened, ?_⟩
      · rw [hcount]
      · rw [List.map_append, ← h.lines, h.file]
        rfl

/-- The log does what the rotation does on every list of days, if the name has a slash and
the first day fits `tail`. -/
theorem exec_files {f : FileName} (hslash : 47 ∈ f.bytes) (hfit : f.PartsFit) {splitLines : ℤ}
    (hsplit : 1 ≤ splitLines) {start : Day} (hstart : (dateText start).length < 16)
    (days : List Day) :
  ∃ s₀ s, zeroed.init f splitLines start = some s₀ ∧ Run.exec writeLog s₀ days = some s ∧
    Follows f splitLines s ((Rotation.start start).writeAll splitLines days)
  := by
  obtain ⟨s₀, hs₀, hinitial⟩ := init_eq_some hfit splitLines start
  have hfollows : Follows f splitLines s₀ (Rotation.start start) := by
    have hfile : s₀.mFp = f.text ⟨start, none⟩ := by
      rw [hinitial.file, FileName.text, FileName.fullText, FileName.initText, if_pos hslash,
        snprintf_of_lt hstart, numberText, List.append_nil]
    refine ⟨hinitial.toKeeps, hinitial.count, hinitial.today, hfile, ?_, hinitial.lines⟩
    rw [hinitial.opened, hfile]
    rfl
  have hsim : ∀ r s day r', Follows f splitLines s r →
      some (Rotation.write splitLines r day) = some r' →
        ∃ s', writeLog s day = some s' ∧ Follows f splitLines s' r' := by
    rintro r s day r' h hr'
    obtain rfl := Option.some.inj hr'
    apply h.writeLog hsplit day
  obtain ⟨s, hs, hend⟩ := Run.exec_simulation (R := fun r s => Follows f splitLines s r) hsim
    hfollows (Rotation.exec_writeAll splitLines (Rotation.start start) days)
  exact ⟨s₀, s, hs₀, hs, hend⟩

end FileLog

end WebServer
