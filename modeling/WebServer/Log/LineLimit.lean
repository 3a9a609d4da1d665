import WebServer.Log.FileNames

/-!
# The line limit of the log files

In synchronous mode with one thread no log file is opened twice and none gets more than
`m_split_lines` lines, as long as the days do not go back (`files_within_limit`).

A change of the day of the month sets the count back to zero, so the numbers start again
then; the days of the files tell them apart, since the day of a call that opens a file
without a number is later than all days before it.  The line that opens the file of another
day is not counted, so the first file of a day gets as many lines as every other.
-/

open CString Printf

namespace WebServer

namespace Rotation

/-- How many lines went to a file. -/
def linesIn (r : Rotation) (file : LogFile) : ℕ := (r.lines.map Prod.fst).count file

/-- What a rotation keeps, behind a call on the day `last`. -/
structure Within (splitLines : ℤ) (last : Day) (r : Rotation) : Prop where
  nonneg : 0 ≤ r.count
  today : r.today = last.mday
  day_le : ∀ file ∈ r.opened, file.day ≤ last
  number_le : ∀ file ∈ r.opened, file.day = last → ∀ k, file.number = some k →
    k * splitLines ≤ r.count
  nodup : r.opened.Nodup
  file_mem : r.file ∈ r.opened
  line_mem : ∀ l ∈ r.lines, l.1 ∈ r.opened
  current : (r.linesIn r.file : ℤ) ≤ r.count % splitLines + 1
  limit : ∀ file, (r.linesIn file : ℤ) ≤ splitLines

theorem start_within {splitLines : ℤ} (hsplit : 1 ≤ splitLines) (day : Day) :
  (start day).Within splitLines day
  where
  nonneg := le_rfl
  today := rfl
  day_le := by
    intro file hfile
    rw [List.mem_singleton.mp hfile]
  number_le := by
    intro file hfile _ k hk
    rw [List.mem_singleton.mp hfile] at hk
    cases hk
  nodup := List.nodup_singleton _
  file_mem := List.mem_singleton_self _
  line_mem := List.forall_mem_nil _
  current := by
    change (0 : ℤ) ≤ 0 % splitLines + 1
    rw [Int.zero_emod]
    decide
  limit := by
    intro file
    change (0 : ℤ) ≤ splitLines
    omega

/-- No line went to a file that was not opened. -/
theorem Within.linesIn_eq_zero {splitLines : ℤ} {last : Day} {r : Rotation}
    (h : r.Within splitLines last) {file : LogFile} (hfile : file ∉ r.opened) :
  r.linesIn file = 0
  := by
  apply List.count_eq_zero.mpr
  intro hmem
  obtain ⟨l, hl, rfl⟩ := List.mem_map.mp hmem
  apply hfile (h.line_mem l hl)

/-- The lines in a file behind another line. -/
theorem linesIn_append {r s : Rotation} {file : LogFile} {day : Day}
    (h : s.lines = r.lines ++ [(file, day)]) (other : LogFile) :
  s.linesIn other = r.linesIn other + if file = other then 1 else 0
  := by
  rw [linesIn, h, List.map_append, List.map_singleton, List.count_append, List.count_singleton]
  simp only [beq_iff_eq]
  rfl

/-- The line of a call goes to a file that was not opened yet. -/
theorem Within.turn {splitLines : ℤ} (hsplit : 1 ≤ splitLines) {last : Day} {r : Rotation}
    (h : r.Within splitLines last) {count : ℤ} (hcount : 0 ≤ count) {day : Day}
    {number : Option ℤ} (hlast : last ≤ day) (hnew : ⟨day, number⟩ ∉ r.opened)
    (hnumber : ∀ other ∈ r.opened ++ [⟨day, number⟩], other.day = day → ∀ k,
      other.number = some k → k * splitLines ≤ count) :
  (r.turn count ⟨day, number⟩).Within splitLines day
  := by
  have hlines (other : LogFile) : (r.turn count ⟨day, number⟩).linesIn other
      = r.linesIn other + if ⟨day, number⟩ = other then 1 else 0 := linesIn_append rfl other
  have hzero := h.linesIn_eq_zero hnew
  refine ⟨hcount, rfl, ?_, hnumber, ?_, List.mem_concat_self, ?_, ?_, ?_⟩
  · intro other hother
    rcases List.mem_append.mp hother with hother | hother
    · exact (h.day_le other hother).trans hlast
    · rw [List.mem_singleton.mp hother]
  · apply List.nodup_append_comm.mpr (List.nodup_cons.mpr ⟨hnew, h.nodup⟩)
  · intro l hl
    rcases List.mem_append.mp hl with hl | hl
    · apply List.mem_append_left _ (h.line_mem l hl)
    · rw [List.mem_singleton.mp hl]
      apply List.mem_concat_self
  · have hmod := Int.emod_nonneg count (show splitLines ≠ 0 by omega)
    change ((r.turn count ⟨day, number⟩).linesIn ⟨day, number⟩ : ℤ) ≤ count % splitLines + 1
    rw [hlines, hzero, if_pos rfl]
    omega
  · intro other
    rw [hlines]
    split
    next heq =>
      rw [← heq, hzero]
      omega
    next =>
      rw [Nat.add_zero]
      apply h.limit other

/-- A number that is not a multiple is one more than the remainder before it. -/
theorem emod_succ {n d : ℤ} (hd : 1 ≤ d) (h : ¬ d ∣ n + 1) :
  (n + 1) % d = n % d + 1 ∧ n % d + 1 < d
  := by
  have hnonneg := Int.emod_nonneg n (show d ≠ 0 by omega)
  have hlt := Int.emod_lt_of_pos n (show 0 < d by omega)
  have hne : n % d + 1 ≠ d := by
    intro heq
    apply h
    apply Int.dvd_of_emod_eq_zero
    rw [← Int.emod_add_emod, heq, Int.emod_self]
  refine ⟨?_, by omega⟩
  rw [← Int.emod_add_emod]
  apply Int.emod_eq_of_lt
  · omega
  · omega

/-- A file of a day that is not before the last one is of the last one. -/
theorem Within.last_eq {splitLines : ℤ} {last : Day} {r : Rotation} (h : r.Within splitLines last)
    {day : Day} (hle : last ≤ day) {file : LogFile} (hfile : file ∈ r.opened)
    (hday : file.day = day) :
  last = day
  := by
  subst hday
  apply le_antisymm hle (h.day_le file hfile)

/-- The numbers of the files of a day that is not before the last one. -/
theorem Within.number_le_count {splitLines : ℤ} {last : Day} {r : Rotation}
    (h : r.Within splitLines last) {day : Day} (hle : last ≤ day) {file : LogFile}
    (hfile : file ∈ r.opened) (hday : file.day = day) {k : ℤ} (hk : file.number = some k) :
  k * splitLines ≤ r.count
  := by
  apply h.number_le file hfile _ k hk
  rw [hday, h.last_eq hle hfile hday]

/-- The line of a call goes to the file that is open. -/
theorem Within.stay {splitLines : ℤ} (hsplit : 1 ≤ splitLines) {last : Day} {r : Rotation}
    (h : r.Within splitLines last) {day : Day} (hle : last ≤ day) (hday : r.today = day.mday)
    (hdvd : ¬ splitLines ∣ r.count + 1) :
  { r with count := r.count + 1, lines := r.lines ++ [(r.file, day)] }.Within splitLines day
  := by
  obtain ⟨hmod, hlt⟩ := emod_succ hsplit hdvd
  have hcurrent := h.current
  refine ⟨Int.add_nonneg h.nonneg Int.one_nonneg, hday, ?_, ?_, h.nodup, h.file_mem, ?_, ?_, ?_⟩
  · intro file hfile
    apply (h.day_le file hfile).trans hle
  · intro file hfile hfileDay k hk
    apply (h.number_le_count hle hfile hfileDay hk).trans (Int.le_add_one le_rfl)
  · intro l hl
    rcases List.mem_append.mp hl with hl | hl
    · apply h.line_mem l hl
    · rw [List.mem_singleton.mp hl]
      apply h.file_mem
  · rw [linesIn_append (r := r) rfl, if_pos rfl]
    dsimp only
    rw [hmod]
    omega
  · intro file
    rw [linesIn_append (r := r) rfl]
    split
    next heq =>
      rw [← heq]
      omega
    next =>
      rw [Nat.add_zero]
      apply h.limit file

/-- The line of a call goes to a file with the next number. -/
theorem Within.turn_number {splitLines : ℤ} (hsplit : 1 ≤ splitLines) {last : Day} {r : Rotation}
    (h : r.Within splitLines last) {day : Day} (hle : last ≤ day)
    (hdvd : splitLines ∣ r.count + 1) :
  (r.turn (r.count + 1) ⟨day, some ((r.count + 1) / splitLines)⟩).Within splitLines day
  := by
  have hnonneg := h.nonneg
  have hmul : (r.count + 1) / splitLines * splitLines = r.count + 1 := Int.ediv_mul_cancel hdvd
  apply h.turn hsplit (by omega) hle
  · intro hmem
    have hnumber := h.number_le_count hle hmem rfl rfl
    omega
  · intro other hother hotherDay k hk
    rcases List.mem_append.mp hother with hother | hother
    · have hnumber := h.number_le_count hle hother hotherDay hk
      omega
    · rw [List.mem_singleton.mp hother] at hk
      obtain rfl := Option.some.inj hk
      apply hmul.le

/-- The line of a call goes to the first file of another day. -/
theorem Within.turn_day {splitLines : ℤ} (hsplit : 1 ≤ splitLines) {last : Day} {r : Rotation}
    (h : r.Within splitLines last) {day : Day} (hle : last ≤ day) (hne : last ≠ day) :
  (r.turn 0 ⟨day, none⟩).Within splitLines day
  := by
  apply h.turn hsplit le_rfl hle
  · intro hmem
    apply hne (h.last_eq hle hmem rfl)
  · intro other hother hotherDay k hk
    rcases List.mem_append.mp hother with hother | hother
    · apply absurd (h.last_eq hle hother hotherDay) hne
    · rw [List.mem_singleton.mp hother] at hk
      cases hk

/-- A call on a day that is not before the last one keeps all this. -/
theorem Within.write {splitLines : ℤ} (hsplit : 1 ≤ splitLines) {last : Day} {r : Rotation}
    (h : r.Within splitLines last) {day : Day} (hle : last ≤ day) :
  (r.write splitLines day).Within splitLines day
  := by
  by_cases hday : r.today = day.mday
  · by_cases hdvd : splitLines ∣ r.count + 1
    · rw [write_number hday hdvd]
      apply h.turn_number hsplit hle hdvd
    · rw [write_same hday hdvd]
      apply h.stay hsplit hle hday hdvd
  · rw [write_day splitLines hday]
    apply h.turn_day hsplit hle
    rintro rfl
    apply hday h.today

/-- A file that was opened stays in the list. -/
theorem opened_subset (splitLines : ℤ) (r : Rotation) (days : List Day) :
  r.opened ⊆ (r.writeAll splitLines days).opened
  := by
  apply subset_writeAll (f := Rotation.opened)
  intro r day
  rw [Rotation.write]
  split
  · apply List.subset_append_left
  · split
    · apply List.subset_append_left
    · apply List.Subset.refl

/-- A run of calls on days that do not go back. -/
theorem Within.writeAll {splitLines : ℤ} (hsplit : 1 ≤ splitLines) {last : Day} {r : Rotation}
    (h : r.Within splitLines last) {days : List Day} (hdays : (last :: days).IsChain (· ≤ ·)) :
  ∃ day, (r.writeAll splitLines days).Within splitLines day
  := by
  induction days generalizing r last with
  | nil => exact ⟨last, h⟩
  | cons day days ih =>
      rw [List.isChain_cons_cons] at hdays
      apply ih (h.write hsplit hdays.1) hdays.2

end Rotation

namespace FileLog

/-- The name of a log file is not cut off. -/
structure NameFits (f : FileName) (file : LogFile) : Prop where
  day : (dateText file.day).length < 16
  full : (f.fullText file).length < 255

/-- Log files are told apart by their names. -/
theorem text_inj {f : FileName} {file file' : LogFile} (h : NameFits f file)
    (h' : NameFits f file') (htext : f.text file = f.text file') :
  file = file'
  := by
  rw [FileName.text, FileName.text, snprintf_of_lt h.full, snprintf_of_lt h'.full,
    FileName.fullText, FileName.fullText, snprintf_of_lt h.day, snprintf_of_lt h'.day,
    List.append_assoc, List.append_assoc, List.append_assoc, List.append_assoc] at htext
  obtain ⟨hday, htext⟩ := dateText_append_inj (List.append_cancel_left htext)
  have hnumber := numberText_injective (List.append_cancel_left htext)
  cases file
  cases file'
  rw [LogFile.mk.injEq]
  exact ⟨hday, hnumber⟩

/-- No log file is opened twice, and none gets more than `m_split_lines` lines. -/
theorem files_within_limit {f : FileName} (hslash : 47 ∈ f.bytes) (hfit : f.PartsFit)
    {splitLines : ℤ} (hsplit : 1 ≤ splitLines) {start : Day} {days : List Day}
    (hdays : (start :: days).IsChain (· ≤ ·))
    (hnames : ∀ file ∈ ((Rotation.start start).writeAll splitLines days).opened,
      NameFits f file) :
  ∃ s₀ s, zeroed.init f splitLines start = some s₀ ∧ Run.exec writeLog s₀ days = some s ∧
    s.opened.Nodup ∧ ∀ name, ((s.lines.map Prod.fst).count name : ℤ) ≤ splitLines
  := by
  have hstart : NameFits f ⟨start, none⟩ :=
    hnames _ (Rotation.opened_subset splitLines (Rotation.start start) days List.mem_cons_self)
  obtain ⟨s₀, s, hinit, hrun, hfollows⟩ := exec_files hslash hfit hsplit hstart.day days
  obtain ⟨last, hwithin⟩ := (Rotation.start_within hsplit start).writeAll hsplit hdays
  refine ⟨s₀, s, hinit, hrun, ?_, ?_⟩
  · rw [hfollows.opened]
    apply hwithin.nodup.map_on
    intro file hfile file' hfile' htext
    apply text_inj (hnames file hfile) (hnames file' hfile') htext
  · intro name
    rw [hfollows.lines, List.map_map]
    by_cases hname : ∃ file ∈ ((Rotation.start start).writeAll splitLines days).opened,
        f.text file = name
    · obtain ⟨file, hfile, rfl⟩ := hname
      have hcount : ((((Rotation.start start).writeAll splitLines days).lines.map
          (Prod.fst ∘ fun l => (f.text l.1, l.2))).count (f.text file))
            = ((Rotation.start start).writeAll splitLines days).linesIn file := by
        rw [Rotation.linesIn, List.count, List.count, List.countP_map, List.countP_map]
        apply List.countP_congr
        intro l hl
        simp only [Function.comp_apply, beq_iff_eq]
        constructor
        · apply text_inj (hnames _ (hwithin.line_mem l hl)) (hnames file hfile)
        · rintro rfl
          rfl
      rw [hcount]
      apply hwithin.limit file
    · rw [List.count_eq_zero.mpr]
      · apply Int.le_of_lt hsplit
      · intro hmem
        obtain ⟨l, hl, hl'⟩ := List.mem_map.mp hmem
        apply hname ⟨l.1, hwithin.line_mem l hl, hl'⟩

/-- Three lines in files of two lines, the last of them on the next day. -/
theorem files_within_limit_three :
  ∃ s₀ s, zeroed.init runLog 2 ⟨2024, 5, 1⟩ = some s₀ ∧
    Run.exec writeLog s₀ [⟨2024, 5, 1⟩, ⟨2024, 5, 1⟩, ⟨2024, 5, 2⟩] = some s ∧
      s.opened.Nodup ∧ ∀ name, ((s.lines.map Prod.fst).count name : ℤ) ≤ 2
  := by
  apply files_within_limit (by decide) runLog_partsFit (by decide) (by decide)
  have hopened : ((Rotation.start ⟨2024, 5, 1⟩).writeAll 2
      [⟨2024, 5, 1⟩, ⟨2024, 5, 1⟩, ⟨2024, 5, 2⟩]).opened
        = [⟨⟨2024, 5, 1⟩, none⟩, ⟨⟨2024, 5, 1⟩, some 1⟩, ⟨⟨2024, 5, 2⟩, none⟩] := by decide
  rw [hopened, List.forall_mem_cons, List.forall_mem_cons, List.forall_mem_singleton]
  exact ⟨⟨by decide, by decide⟩, ⟨by decide, by decide⟩, by decide, by decide⟩

end FileLog

end WebServer
