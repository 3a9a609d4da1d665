import WebServer.Log.Files

/-!
# The names of the log files

Two things that are expected of the names.  A rotation opens what `init` would open on the
same day: it does when the configured name has a slash, as only then the parts of the name
are stored (`openedName_iff`).  A line goes to a file that has its day in its name: it does
unless a call comes a whole number of months behind the last one, of which `m_today` keeps
only the day of the month (`lines_dated_iff`).
-/

open CString Printf

namespace WebServer

namespace FileLog

/-! ### The names of `init` and of a rotation -/

/-- The file name that `main` passes to `init`. -/
def runLog : FileName where
  bytes := ascii "./runLog"
  no_nul := by decide

/-- A file name without a slash. -/
def bare : FileName where
  bytes := ascii "runLog"
  no_nul := by decide

theorem runLog_partsFit :
  runLog.PartsFit
  where
  dir := by decide
  base := by decide

/-- The file that `write_log` opens on a day when one is due. -/
def due (splitLines : ℤ) (s : FileLog) (day : Day) : LogFile :=
  ⟨day, if s.mToday ≠ day.mday then none else some ((s.mCount + 1) / splitLines)⟩

/-- The file that `write_log` opens on a day is the one that `init` opens on that day, with
a number behind its name when lines were counted. -/
def Agrees (f : FileName) (splitLines : ℤ) (s : FileLog) (day : Day) : Prop :=
  ∃ s' i, s.writeLog day = some s' ∧ zeroed.init f splitLines day = some i ∧
    if s.mToday ≠ day.mday then
      s'.mFp = i.mFp
    else
      ∃ k, 1 ≤ k ∧ s'.mFp = i.mFp ++ 46 :: decimal k

/-- The name without its number is the one of `init` when the name that was configured has
a slash or is empty, and the day fits `tail`. -/
theorem fullText_eq_initText_iff (f : FileName) (day : Day) :
  f.fullText ⟨day, none⟩ = f.initText day ↔
    (47 ∈ f.bytes ∨ f.bytes = []) ∧ (dateText day).length < 16
  := by
  have hcut : snprintf 16 (dateText day) = dateText day ↔ (dateText day).length < 16 := by
    rw [snprintf, List.take_eq_self_iff]
    omega
  rw [FileName.fullText, FileName.initText, numberText, List.append_nil]
  dsimp only
  split
  next hslash =>
    rw [List.append_assoc, List.append_assoc, List.append_right_inj, List.append_left_inj, hcut]
    simp only [hslash, true_or, true_and]
  next hslash =>
    obtain ⟨-, hdir, hbase⟩ := FileName.parts_of_not_mem hslash
    rw [hdir, hbase, List.nil_append, List.append_nil]
    constructor
    · intro h
      have hlength := congrArg List.length h
      rw [snprintf, List.length_take, List.length_append] at hlength
      have hnil : f.bytes = [] := List.length_eq_zero_iff.mp (by omega)
      rw [hnil, List.append_nil] at h
      exact ⟨Or.inr hnil, hcut.mp h⟩
    · rintro ⟨hname, hlength⟩
      rw [hcut.mpr hlength, hname.resolve_left hslash, List.append_nil]

/-- What the log keeps over a run. -/
theorem exec_keeps {f : FileName} (hfit : f.PartsFit) {splitLines : ℤ} (hsplit : 1 ≤ splitLines)
    {start : Day} {s₀ : FileLog} (hinit : zeroed.init f splitLines start = some s₀)
    {days : List Day} {s : FileLog} (hrun : Run.exec writeLog s₀ days = some s) :
  Keeps f splitLines s
  := by
  apply Run.exec_preserves (I := Keeps f splitLines) _ _ hrun
  · intro s day s' hs hs'
    obtain ⟨s'', hs'', hkeeps⟩ := hs.writeLog hsplit day
    obtain rfl := Option.some.inj (hs''.symm.trans hs')
    exact hkeeps
  · obtain ⟨s', hs', hinitial⟩ := init_eq_some hfit splitLines start
    obtain rfl := Option.some.inj (hs'.symm.trans hinit)
    apply hinitial.toKeeps

/-- The first file of another day agrees with that of `init` when their names do. -/
theorem Keeps.agrees_day_iff {f : FileName} {splitLines : ℤ} {s : FileLog}
    (h : Keeps f splitLines s) {day : Day} {i : FileLog}
    (hi : zeroed.init f splitLines day = some i) (hfile : i.mFp = f.initText day)
    (hday : s.mToday ≠ day.mday) (hname : (f.fullText ⟨day, none⟩).length < 255) :
  Agrees f splitLines s day ↔ f.fullText ⟨day, none⟩ = f.initText day
  := by
  have hs' := h.writeLog_day hday
  have hopened : f.text ⟨day, none⟩ = f.fullText ⟨day, none⟩ := snprintf_of_lt hname
  constructor
  · rintro ⟨s'', i', hs'', hi', hsame⟩
    obtain rfl := Option.some.inj (hs'.symm.trans hs'')
    obtain rfl := Option.some.inj (hi.symm.trans hi')
    rw [if_pos hday] at hsame
    change f.text _ = _ at hsame
    rw [← hopened, hsame, hfile]
  · intro heq
    refine ⟨_, i, hs', hi, ?_⟩
    rw [if_pos hday]
    change f.text _ = _
    rw [hopened, hfile, heq]

/-- A file with a number agrees with that of `init` when their names do but for the number,
which has no dot in it. -/
theorem Keeps.agrees_number_iff {f : FileName} {splitLines : ℤ} (hsplit : 1 ≤ splitLines)
    {s : FileLog} (h : Keeps f splitLines s) {day : Day} {i : FileLog}
    (hi : zeroed.init f splitLines day = some i) (hfile : i.mFp = f.initText day)
    (hday : s.mToday = day.mday) (hdvd : splitLines ∣ s.mCount + 1)
    (hname : (f.fullText ⟨day, some ((s.mCount + 1) / splitLines)⟩).length < 255) :
  Agrees f splitLines s day ↔ f.fullText ⟨day, none⟩ = f.initText day
  := by
  have hpos : 1 ≤ (s.mCount + 1) / splitLines := by
    have hle := Int.le_of_dvd (Int.lt_add_one_of_le h.nonneg) hdvd
    rw [Int.le_ediv_iff_mul_le (by omega)]
    omega
  have hs' := h.writeLog_number hsplit hday hdvd
  have hsuffix : f.text ⟨day, some ((s.mCount + 1) / splitLines)⟩
      = f.fullText ⟨day, none⟩ ++ 46 :: decimal ((s.mCount + 1) / splitLines) := by
    rw [FileName.text, snprintf_of_lt hname]
    simp only [FileName.fullText, numberText, List.append_nil]
  have hdot (n : ℤ) : 46 ∉ decimal n := not_mem_padded (by decide) rfl 0 n
  constructor
  · rintro ⟨s'', i', hs'', hi', hopened⟩
    obtain rfl := Option.some.inj (hs'.symm.trans hs'')
    obtain rfl := Option.some.inj (hi.symm.trans hi')
    rw [if_neg (not_not.mpr hday)] at hopened
    obtain ⟨k, -, hopened⟩ := hopened
    change f.text _ = _ at hopened
    rw [hsuffix, hfile] at hopened
    apply (append_cons_inj_last (hdot _) (hdot _) hopened).1
  · intro heq
    refine ⟨_, i, hs', hi, ?_⟩
    rw [if_neg (not_not.mpr hday)]
    refine ⟨_, hpos, ?_⟩
    change f.text _ = _
    rw [hsuffix, hfile, heq]

/-- The names of `init` and of a rotation agree exactly when the name that was configured
has a slash or is empty, and the day fits `tail`. -/
theorem openedName_iff {f : FileName} (hfit : f.PartsFit) {splitLines : ℤ} (hsplit : 1 ≤ splitLines)
    {start : Day} {s₀ : FileLog} (hinit : zeroed.init f splitLines start = some s₀)
    {days : List Day} {s : FileLog} (hrun : Run.exec writeLog s₀ days = some s) {day : Day}
    (hopens : s.mToday ≠ day.mday ∨ splitLines ∣ s.mCount + 1)
    (hname : (f.initText day).length < 255)
    (hname' : (f.fullText (s.due splitLines day)).length < 255) :
  Agrees f splitLines s day ↔
    (47 ∈ f.bytes ∨ f.bytes = []) ∧ (dateText day).length < 16
  := by
  have hkeeps := exec_keeps hfit hsplit hinit hrun
  obtain ⟨i, hi, hinitial⟩ := init_eq_some hfit splitLines day
  have hfile : i.mFp = f.initText day := by
    rw [hinitial.file, snprintf_of_lt hname]
  rw [← fullText_eq_initText_iff]
  by_cases hday : s.mToday = day.mday
  · have hdvd := hopens.resolve_left (not_not.mpr hday)
    rw [due, if_neg (not_not.mpr hday)] at hname'
    apply hkeeps.agrees_number_iff hsplit hi hfile hday hdvd hname'
  · rw [due, if_pos hday] at hname'
    apply hkeeps.agrees_day_iff hi hfile hday hname'

/-- The log of `main`, on the second of May 2024. -/
theorem openedName_iff_runLog :
  ∃ s₀, zeroed.init runLog 800000 ⟨2024, 5, 1⟩ = some s₀ ∧
    (Agrees runLog 800000 s₀ ⟨2024, 5, 2⟩ ↔
      (47 ∈ runLog.bytes ∨ runLog.bytes = []) ∧ (dateText ⟨2024, 5, 2⟩).length < 16)
  := by
  obtain ⟨s₀, hinit, hinitial⟩ := init_eq_some runLog_partsFit 800000 ⟨2024, 5, 1⟩
  have hday : s₀.mToday ≠ 2 := by
    rw [hinitial.today]
    decide
  have hrun : Run.exec writeLog s₀ [] = some s₀ := rfl
  refine ⟨s₀, hinit, openedName_iff runLog_partsFit (by decide) hinit hrun (Or.inl hday) (by decide)
    ?_⟩
  rw [due, if_pos hday]
  decide

/-- Without a slash a rotation opens a file without the name that was configured. -/
theorem not_openedName :
  ¬ ∀ (f : FileName) (splitLines : ℤ) (start day : Day) (s₀ : FileLog), f.PartsFit →
    1 ≤ splitLines → zeroed.init f splitLines start = some s₀ → s₀.mToday ≠ day.mday →
      Agrees f splitLines s₀ day
  := by
  intro h
  have hfit : FileName.PartsFit bare := by
    constructor
    · decide
    · decide
  obtain ⟨s', i, hs', hi, hsame⟩ := h bare 10 ⟨2024, 5, 1⟩ ⟨2024, 5, 2⟩ _ hfit (by decide) rfl
    (by decide)
  rw [if_pos (by decide)] at hsame
  have hwritten := congrArg (Option.map mFp) hs'
  have hopened := congrArg (Option.map mFp) hi
  rw [Option.map_some, hsame, ← Option.map_some, ← hopened] at hwritten
  apply absurd hwritten (by decide)

/-! ### The day in the name -/

/-- The name of a file goes on with the day behind the directory. -/
def CarriesDay (f : FileName) (name : List UInt8) (day : Day) : Prop :=
  f.dirPart ++ dateText day <+: name

/-- A file of the log has its own day in its name and no other. -/
theorem carriesDay_text_iff {f : FileName} (hfit : f.PartsFit) {file : LogFile}
    (hfile : (dateText file.day).length < 16) (day : Day) :
  CarriesDay f (f.text file) day ↔ file.day = day
  := by
  have hfull : f.fullText file
      = f.dirPart ++ (dateText file.day ++ (f.basePart ++ numberText file.number)) := by
    rw [FileName.fullText, snprintf_of_lt hfile, List.append_assoc, List.append_assoc]
  constructor
  · intro h
    obtain ⟨rest, hrest⟩ := h.trans (List.take_prefix _ _)
    rw [hfull, List.append_assoc] at hrest
    exact (dateText_append_inj (List.append_cancel_left hrest)).1.symm
  · rintro rfl
    have hdir := hfit.dir
    have hsize : namePartSize = 128 := rfl
    rw [CarriesDay, FileName.text, snprintf, List.prefix_take_iff, hfull, ← List.append_assoc]
    refine ⟨List.prefix_append _ _, ?_⟩
    rw [List.length_append]
    omega

end FileLog

/-! ### The calls that come whole months apart -/

/-- A call on the day of the month of the last one, but of another month, finds the lines of
the file counted out.  `count` are the lines counted, `last` is the day of the last call. -/
def MonthsSeen (splitLines : ℤ) : (count : ℤ) → (last : Day) → List Day → Prop
  | _, _, [] => True
  | count, last, day :: days =>
    (last.mday = day.mday → ¬ splitLines ∣ count + 1 → last = day) ∧
      MonthsSeen splitLines (if last.mday ≠ day.mday then 0 else count + 1) day days

namespace Rotation

/-- Lines stay. -/
theorem lines_subset (splitLines : ℤ) (r : Rotation) (days : List Day) :
  r.lines ⊆ (r.writeAll splitLines days).lines
  := by
  apply subset_writeAll (f := Rotation.lines)
  intro r day
  rw [write]
  split
  · apply List.subset_append_left
  · split
    · apply List.subset_append_left
    · apply List.subset_append_left

/-- What holds of the days of the calls holds of the days of the files. -/
theorem days_all {P : Day → Prop} (splitLines : ℤ) {r : Rotation} {days : List Day}
    (hfile : P r.file.day) (hlines : ∀ l ∈ r.lines, P l.1.day) (hdays : ∀ day ∈ days, P day) :
  ∀ l ∈ (r.writeAll splitLines days).lines, P l.1.day
  := by
  induction days generalizing r with
  | nil => exact hlines
  | cons day days ih =>
      rw [List.forall_mem_cons] at hdays
      have happend {file : LogFile} (h : P file.day) : ∀ l ∈ r.lines ++ [(file, day)],
          P l.1.day := by
        rw [List.forall_mem_append]
        exact ⟨hlines, fun l hl => (List.mem_singleton.mp hl) ▸ h⟩
      apply ih _ _ hdays.2
      · rw [write]
        split
        · apply hdays.1
        · split
          · apply hdays.1
          · exact hfile
      · rw [write]
        split
        · apply happend hdays.1
        · split
          · apply happend hdays.1
          · apply happend hfile

/-- Every line goes to a file of its day exactly when no call comes whole months behind the
last one while lines are left in the file. -/
theorem lines_dated_iff (splitLines : ℤ) {r : Rotation} {last : Day}
    (htoday : r.today = last.mday) (hfile : r.file.day = last) (days : List Day) :
  (∀ l ∈ (r.writeAll splitLines days).lines, l.1.day = l.2) ↔
    (∀ l ∈ r.lines, l.1.day = l.2) ∧ MonthsSeen splitLines r.count last days
  := by
  induction days generalizing r last with
  | nil => exact (and_iff_left trivial).symm
  | cons day days ih =>
      have hturn (count : ℤ) (number : Option ℤ) :
          (∀ l ∈ (r.turn count ⟨day, number⟩).lines, l.1.day = l.2) ↔
            ∀ l ∈ r.lines, l.1.day = l.2 := by
        rw [turn, List.forall_mem_append]
        apply and_iff_left fun l hl => by rw [List.mem_singleton.mp hl]
      rw [writeAll_cons, MonthsSeen]
      by_cases hday : last.mday = day.mday
      · rw [if_neg (not_not.mpr hday)]
        by_cases hdvd : splitLines ∣ r.count + 1
        · rw [write_number (htoday.trans hday) hdvd, ih rfl rfl, hturn]
          simp only [hdvd, not_true_eq_false, false_implies, implies_true, true_and]
          rfl
        · rw [write_same (htoday.trans hday) hdvd]
          by_cases hlast : last = day
          · have hrest := ih
              (r := { r with count := r.count + 1, lines := r.lines ++ [(r.file, day)] })
              (htoday.trans hday) (hfile.trans hlast)
            rw [hrest, List.forall_mem_append]
            have hline : ∀ l ∈ [(r.file, day)], l.1.day = l.2 := by
              intro l hl
              rw [List.mem_singleton.mp hl]
              apply hfile.trans hlast
            simp only [hlast, implies_true, true_and, and_iff_left hline]
          · -- the line of this call stays in a file of another month
            constructor
            · intro h
              apply absurd _ hlast
              rw [← hfile]
              apply h (r.file, day) (lines_subset splitLines _ days (List.mem_concat_self))
            · rintro ⟨-, hseen, -⟩
              apply absurd (hseen hday hdvd) hlast
      · rw [if_pos hday, write_day splitLines (htoday ▸ hday), ih rfl rfl, hturn]
        simp only [hday, false_implies, true_and]
        rfl

end Rotation

namespace FileLog

/-- The lines of a log go to files with their day in the name when those of the rotation do
that it follows. -/
theorem Follows.carry_iff {f : FileName} (hfit : f.PartsFit) {splitLines : ℤ} {start : Day}
    {days : List Day} (hdays : ∀ day ∈ start :: days, (dateText day).length < 16) {s : FileLog}
    (h : Follows f splitLines s ((Rotation.start start).writeAll splitLines days)) :
  (∀ l ∈ s.lines, CarriesDay f l.1 l.2) ↔ MonthsSeen splitLines 0 start days
  := by
  rw [List.forall_mem_cons] at hdays
  have hfiles := Rotation.days_all splitLines (P := fun day => (dateText day).length < 16)
    (r := Rotation.start start) hdays.1 (List.forall_mem_nil _) hdays.2
  have htoday : (Rotation.start start).today = start.mday := rfl
  have hdated := Rotation.lines_dated_iff splitLines htoday rfl days
  have hnil : ∀ l ∈ (Rotation.start start).lines, l.1.day = l.2 := List.forall_mem_nil _
  rw [and_iff_right hnil] at hdated
  rw [h.lines, List.forall_mem_map]
  apply Iff.trans _ hdated
  apply forall₂_congr
  intro l hl
  apply carriesDay_text_iff hfit (hfiles l hl) l.2

/-- `init` has a behaviour only when the parts of the name fit their buffers. -/
theorem partsFit_of_init {f : FileName} (hslash : 47 ∈ f.bytes) {splitLines : ℤ} {day : Day}
    {s : FileLog} (h : zeroed.init f splitLines day = some s) :
  f.PartsFit
  := by
  obtain ⟨p, hlast, hdir, hbase⟩ := FileName.parts_of_mem hslash
  rw [init, hlast] at h
  dsimp only at h
  rw [← hdir, ← hbase] at h
  obtain ⟨logName, hlogName, h⟩ := Option.bind_eq_some_iff.mp h
  obtain ⟨dirName, hdirName, h⟩ := Option.bind_eq_some_iff.mp h
  obtain ⟨dir, hread, -⟩ := Option.bind_eq_some_iff.mp h
  constructor
  · apply length_lt_of_readPart f.zero_not_mem_dirPart hdirName hread
  · obtain ⟨hlength, -⟩ := Option.ite_none_right_eq_some.mp hlogName
    rw [List.length_append, List.length_singleton] at hlength
    exact hlength

/-- Every line goes to a file with its day in the name exactly when the parts of the name
fit their buffers, and no call comes whole months behind the last one while lines are left
in the file. -/
theorem lines_carry_iff {f : FileName} (hslash : 47 ∈ f.bytes) {splitLines : ℤ}
    (hsplit : 1 ≤ splitLines) {start : Day} {days : List Day}
    (hdays : ∀ day ∈ start :: days, (dateText day).length < 16) :
  (∃ s₀ s, zeroed.init f splitLines start = some s₀ ∧ Run.exec writeLog s₀ days = some s ∧
      ∀ l ∈ s.lines, CarriesDay f l.1 l.2) ↔
    f.PartsFit ∧ MonthsSeen splitLines 0 start days
  := by
  have hstart := (List.forall_mem_cons.mp hdays).1
  constructor
  · rintro ⟨s₀, s, hinit, hrun, hcarries⟩
    have hfit := partsFit_of_init hslash hinit
    obtain ⟨s₀', s', hinit', hrun', hfollows⟩ := exec_files hslash hfit hsplit hstart days
    obtain rfl := Option.some.inj (hinit.symm.trans hinit')
    obtain rfl := Option.some.inj (hrun.symm.trans hrun')
    exact ⟨hfit, (hfollows.carry_iff hfit hdays).mp hcarries⟩
  · rintro ⟨hfit, hseen⟩
    obtain ⟨s₀, s, hinit, hrun, hfollows⟩ := exec_files hslash hfit hsplit hstart days
    exact ⟨s₀, s, hinit, hrun, (hfollows.carry_iff hfit hdays).mpr hseen⟩

/-- Two calls on the first two days of May. -/
theorem lines_carry_iff_may :
  ∃ s₀ s, zeroed.init runLog 800000 ⟨2024, 5, 1⟩ = some s₀ ∧
    Run.exec writeLog s₀ [⟨2024, 5, 1⟩, ⟨2024, 5, 2⟩] = some s ∧
      ∀ l ∈ s.lines, CarriesDay runLog l.1 l.2
  := by
  apply (lines_carry_iff (by decide) (by decide) _).mpr
  · refine ⟨runLog_partsFit, ?_⟩
    rw [MonthsSeen, MonthsSeen, MonthsSeen]
    decide
  · rw [List.forall_mem_cons, List.forall_mem_cons, List.forall_mem_singleton]
    decide

/-- A line of the first of June goes to the file of the first of May. -/
theorem not_lines_carry :
  ¬ ∀ (f : FileName) (splitLines : ℤ) (start : Day) (days : List Day) (s₀ s : FileLog),
    47 ∈ f.bytes → f.PartsFit → 1 ≤ splitLines → (start :: days).IsChain (· ≤ ·) →
      zeroed.init f splitLines start = some s₀ → Run.exec writeLog s₀ days = some s →
        ∀ l ∈ s.lines, CarriesDay f l.1 l.2
  := by
  intro h
  have hslash : 47 ∈ runLog.bytes := by decide
  have hsplit : (1 : ℤ) ≤ 800000 := by decide
  have hstart : (dateText ⟨2024, 5, 1⟩).length < 16 := by decide
  obtain ⟨s₀, s, hinit, hrun, hfollows⟩ := exec_files hslash runLog_partsFit hsplit hstart
    [⟨2024, 6, 1⟩]
  have hcarries := h runLog 800000 ⟨2024, 5, 1⟩ [⟨2024, 6, 1⟩] s₀ s hslash runLog_partsFit
    hsplit (by decide) hinit hrun
  rw [hfollows.lines, List.forall_mem_map] at hcarries
  have hday := (carriesDay_text_iff runLog_partsFit (by decide) _).mp
    (hcarries (⟨⟨2024, 5, 1⟩, none⟩, ⟨2024, 6, 1⟩) List.mem_cons_self)
  apply absurd hday (by decide)

end FileLog

end WebServer
