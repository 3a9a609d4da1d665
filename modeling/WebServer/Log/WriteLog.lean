import WebServer.Lib.Run
import WebServer.Lib.Threads
import WebServer.Log.BlockQueue

/-!
# The log

`Log` with any number of threads that call `write_log` and the flush thread that runs
`async_write_log`.  What a thread does while it holds a mutex is one step, so between the
test whether the queue is full and the push other threads may push.

`write_log` does not look at what `push` returned, so a line is lost when the queue became
full after the test.  Each line whose call returned is in exactly one place exactly in
those runs in which no thread pushes onto a full queue (`placed_iff`).
-/

namespace WebServer

universe u

/-- The day of a `struct tm`. -/
structure Day where
  year : ℤ
  mon : ℤ
  mday : ℤ
  deriving DecidableEq

/-- A log file: the day in its name, and the number behind it when there is one. -/
structure LogFile where
  day : Day
  number : Option ℤ
  deriving DecidableEq

/-- A formatted line, and the number of the call of `write_log` that it belongs to. -/
structure LogLine (α : Type u) where
  call : ℕ
  text : α
  deriving DecidableEq, Inhabited

/-- Where a thread is in `write_log`: outside, before the test of the queue, before the
push, or before `fputs`. -/
inductive Writer (α : Type u) where
  | outside
  | formatted (line : LogLine α)
  | pushes (line : LogLine α)
  | puts (line : LogLine α)
  deriving DecidableEq

/-- The line of a thread that is in `write_log`. -/
def Writer.line {α : Type u} : Writer α → Option (LogLine α)
  | .outside => none
  | .formatted line | .pushes line | .puts line => some line

/-- Where the flush thread is: about to call `pop`, waiting in it, about to write the line
it got, or out of its loop. -/
inductive Flusher (α : Type u) where
  | calls
  | waits
  | puts (line : LogLine α)
  | left
  deriving DecidableEq

/-- The log and its threads.  `written` are the lines in the log files, `calls` is the
number of calls of `write_log` so far and `returned` the lines of those that returned. -/
structure Log (α : Type u) where
  mIsAsync : Bool
  mLogQueue : BlockQueue (LogLine α)
  mCount : ℤ
  mSplitLines : ℤ
  mToday : ℤ
  mFp : LogFile
  writers : ℕ → Writer α
  flusher : Flusher α
  written : List (LogFile × LogLine α)
  calls : ℕ
  returned : List (LogLine α)

/-- A step of one of the threads. -/
inductive LogEvent (α : Type u) where
  /-- A thread calls `write_log` and formats its line. -/
  | call (thread : ℕ) (text : α) (day : Day)
  /-- A thread tests whether to push its line. -/
  | test (thread : ℕ)
  /-- A thread pushes its line. -/
  | push (thread : ℕ)
  /-- A thread writes its line. -/
  | puts (thread : ℕ)
  /-- The flush thread calls `pop`. -/
  | pop
  /-- The flush thread is woken. -/
  | wake
  /-- The flush thread writes the line it got. -/
  | flushPuts

namespace Log

variable {α : Type u}

/-- The log after `init`, in asynchronous mode. -/
def init (q : BlockQueue (LogLine α)) (splitLines : ℤ) (day : Day) : Log α where
  mIsAsync := true
  mLogQueue := q
  mCount := 0
  mSplitLines := splitLines
  mToday := day.mday
  mFp := ⟨day, none⟩
  writers := fun _ => .outside
  flusher := .calls
  written := []
  calls := 0
  returned := []

/-- `write_log` counts a line and opens another log file when one is due.  A division by
zero has no result. -/
def rotate (s : Log α) (day : Day) : Option (Log α) :=
  let count := s.mCount + 1
  if s.mToday ≠ day.mday then
    some { s with mFp := ⟨day, none⟩, mToday := day.mday, mCount := 0 }
  else if s.mSplitLines = 0 then
    none
  else if count.tmod s.mSplitLines = 0 then
    some { s with mFp := ⟨day, some (count.tdiv s.mSplitLines)⟩, mCount := count }
  else
    some { s with mCount := count }

/-- Sets where a thread is in `write_log`. -/
def setWriter (s : Log α) (thread : ℕ) (w : Writer α) : Log α :=
  { s with writers := Function.update s.writers thread w }

/-- A thread returns from `write_log`. -/
def leave (s : Log α) (thread : ℕ) (line : LogLine α) : Log α :=
  { s.setWriter thread .outside with returned := line :: s.returned }

/-- `fputs` of a line. -/
def fputs (s : Log α) (line : LogLine α) : Log α :=
  { s with written := s.written ++ [(s.mFp, line)] }

/-- The flush thread leaves the mutex of the queue. -/
def settle (s : Log α) : PopResult (LogLine α) × BlockQueue (LogLine α) → Log α
  | (.taken line, q) => { s with mLogQueue := q, flusher := .puts line }
  | (.waits, q) => { s with mLogQueue := q, flusher := .waits }
  | (.gaveUp, q) => { s with mLogQueue := q, flusher := .left }

/-- A step of one of the threads. -/
def step (s : Log α) : LogEvent α → Option (Log α)
  | .call thread text day =>
    match s.writers thread with
    | .outside => do
      let s ← s.rotate day
      some { s.setWriter thread (.formatted ⟨s.calls, text⟩) with calls := s.calls + 1 }
    | _ => none
  | .test thread =>
    match s.writers thread with
    | .formatted line =>
      if s.mIsAsync && !s.mLogQueue.full then
        some (s.setWriter thread (.pushes line))
      else
        some (s.setWriter thread (.puts line))
    | _ => none
  | .push thread =>
    match s.writers thread with
    | .pushes line => some ({ s with mLogQueue := (s.mLogQueue.push line).2 }.leave thread line)
    | _ => none
  | .puts thread =>
    match s.writers thread with
    | .puts line => some ((s.fputs line).leave thread line)
    | _ => none
  | .pop =>
    match s.flusher with
    | .calls => some (s.settle s.mLogQueue.pop)
    | _ => none
  | .wake =>
    match s.flusher with
    | .waits => some (s.settle (s.mLogQueue.woken 0))
    | _ => none
  | .flushPuts =>
    match s.flusher with
    | .puts line => some { s.fputs line with flusher := .calls }
    | _ => none

/-- What a step does, by the branch that it takes. -/
inductive Steps (s : Log α) : LogEvent α → Log α → Prop where
  | call {thread : ℕ} {text : α} {day : Day} {s₁ : Log α} (hw : s.writers thread = .outside)
      (hrotate : s.rotate day = some s₁) :
      Steps s (.call thread text day)
        { s₁.setWriter thread (.formatted ⟨s₁.calls, text⟩) with calls := s₁.calls + 1 }
  | testRoom {thread : ℕ} {line : LogLine α} (hw : s.writers thread = .formatted line)
      (htest : (s.mIsAsync && !s.mLogQueue.full) = true) :
      Steps s (.test thread) (s.setWriter thread (.pushes line))
  | testFull {thread : ℕ} {line : LogLine α} (hw : s.writers thread = .formatted line)
      (htest : (s.mIsAsync && !s.mLogQueue.full) ≠ true) :
      Steps s (.test thread) (s.setWriter thread (.puts line))
  | push {thread : ℕ} {line : LogLine α} (hw : s.writers thread = .pushes line) :
      Steps s (.push thread) ({ s with mLogQueue := (s.mLogQueue.push line).2 }.leave thread line)
  | puts {thread : ℕ} {line : LogLine α} (hw : s.writers thread = .puts line) :
      Steps s (.puts thread) ((s.fputs line).leave thread line)
  | pop (hcalls : s.flusher = .calls) : Steps s .pop (s.settle s.mLogQueue.pop)
  | wake (hwaits : s.flusher = .waits) : Steps s .wake (s.settle (s.mLogQueue.woken 0))
  | flushPuts {line : LogLine α} (hputs : s.flusher = .puts line) :
      Steps s .flushPuts { s.fputs line with flusher := .calls }

/-- A step takes one of its branches. -/
theorem steps_of_step {s s' : Log α} {e : LogEvent α} (h : s.step e = some s') :
  s.Steps e s'
  := by
  cases e with
  | call thread text day =>
      rw [step] at h
      split at h
      next hw =>
        obtain ⟨s₁, hrotate, h⟩ := Option.bind_eq_some_iff.mp h
        obtain rfl := Option.some.inj h
        exact .call hw hrotate
      next => cases h
  | test thread =>
      rw [step] at h
      split at h
      next line hw =>
        split at h
        next htest =>
          obtain rfl := Option.some.inj h
          exact .testRoom hw htest
        next htest =>
          obtain rfl := Option.some.inj h
          exact .testFull hw htest
      next => cases h
  | push thread =>
      rw [step] at h
      split at h
      next line hw =>
        obtain rfl := Option.some.inj h
        exact .push hw
      next => cases h
  | puts thread =>
      rw [step] at h
      split at h
      next line hw =>
        obtain rfl := Option.some.inj h
        exact .puts hw
      next => cases h
  | pop =>
      rw [step] at h
      split at h
      next hcalls =>
        obtain rfl := Option.some.inj h
        exact .pop hcalls
      next => cases h
  | wake =>
      rw [step] at h
      split at h
      next hwaits =>
        obtain rfl := Option.some.inj h
        exact .wake hwaits
      next => cases h
  | flushPuts =>
      rw [step] at h
      split at h
      next line hputs =>
        obtain rfl := Option.some.inj h
        exact .flushPuts hputs
      next => cases h

/-- The line in the hands of the flush thread. -/
def inHand (s : Log α) : List (LogLine α) :=
  match s.flusher with
  | .puts line => [line]
  | _ => []

/-- The lines in all places where a line may be. -/
def places (s : Log α) : List (LogLine α) :=
  s.written.map Prod.snd ++ (s.mLogQueue.toList ++ s.inHand)

/-- Each line whose call of `write_log` returned is in exactly one place. -/
def Placed [DecidableEq α] (s : Log α) : Prop :=
  ∀ line ∈ s.returned, s.places.count line = 1

/-- No thread pushes onto a full queue. -/
def HasRoom (s : Log α) : LogEvent α → Prop
  | .push _ => s.mLogQueue.full = false
  | _ => True

/-- What is kept along a run in which the queue always has room. -/
structure Kept (s : Log α) : Prop where
  valid : s.mLogQueue.Valid
  nodup : s.places.Nodup
  mem_iff : ∀ line, line ∈ s.places ↔ line ∈ s.returned
  call_lt : ∀ line ∈ s.returned, line.call < s.calls
  writer_lt : ∀ i line, (s.writers i).line = some line → line.call < s.calls
  writer_new : ∀ i line, (s.writers i).line = some line → line ∉ s.returned
  writer_inj : ∀ i j line, (s.writers i).line = some line → (s.writers j).line = some line →
    i = j

theorem Kept.placed [DecidableEq α] {s : Log α} (h : s.Kept) :
  s.Placed
  := by
  intro line hline
  apply List.count_eq_one_of_mem h.nodup
  exact (h.mem_iff line).mpr hline

theorem init_kept {q : BlockQueue (LogLine α)} (h : q.Valid) (hnil : q.toList = [])
    (splitLines : ℤ) (day : Day) :
  (init q splitLines day).Kept
  where
  valid := h
  nodup := by
    change ([] ++ (q.toList ++ [])).Nodup
    rw [hnil]
    apply List.nodup_nil
  mem_iff := by
    intro line
    change line ∈ [] ++ (q.toList ++ []) ↔ line ∈ []
    rw [hnil]
    rfl
  call_lt := nofun
  writer_lt := nofun
  writer_new := nofun
  writer_inj := nofun

/-- A step that moves no line but from one place to another, and leaves every thread with
its line. -/
theorem Kept.of_perm {s t : Log α} (h : s.Kept) (hvalid : t.mLogQueue.Valid)
    (hperm : t.places.Perm s.places) (hreturned : t.returned = s.returned)
    (hcalls : t.calls = s.calls) (hline : ∀ i, (t.writers i).line = (s.writers i).line) :
  t.Kept
  := by
  refine ⟨hvalid, hperm.nodup_iff.mpr h.nodup, ?_, ?_, ?_, ?_, ?_⟩
  · intro line
    rw [hperm.mem_iff, hreturned]
    apply h.mem_iff line
  · rw [hreturned, hcalls]
    apply h.call_lt
  · intro i
    rw [hline, hcalls]
    apply h.writer_lt i
  · intro i
    rw [hline, hreturned]
    apply h.writer_new i
  · intro i j
    rw [hline, hline]
    apply h.writer_inj i j

/-- A thread goes on with its line. -/
theorem Kept.setWriter {s : Log α} (h : s.Kept) {thread : ℕ} {w : Writer α}
    (hline : w.line = (s.writers thread).line) :
  (s.setWriter thread w).Kept
  := by
  refine h.of_perm (t := s.setWriter thread w) h.valid (List.Perm.refl _) rfl rfl ?_
  intro i
  refine (Threads.read_update Writer.line ..).trans ?_
  split
  next hi => rw [hline, hi]
  next => rfl

/-- A thread puts its line in a place and returns. -/
theorem Kept.deliver {s t : Log α} (h : s.Kept) {thread : ℕ} {line : LogLine α}
    (hw : (s.writers thread).line = some line) (hvalid : t.mLogQueue.Valid)
    (hperm : t.places.Perm (line :: s.places)) (hreturned : t.returned = line :: s.returned)
    (hcalls : t.calls = s.calls)
    (hwriters : t.writers = Function.update s.writers thread .outside) :
  t.Kept
  := by
  have hnew := h.writer_new thread line hw
  have hlines : ∀ i l, (t.writers i).line = some l → i ≠ thread ∧ (s.writers i).line = some l := by
    intro i l hi
    rw [hwriters] at hi
    rcases Threads.read_update_eq_some hi with ⟨-, hi⟩ | hi
    · cases hi
    · exact hi
  refine ⟨hvalid, ?_, ?_, ?_, ?_, ?_, ?_⟩
  · rw [hperm.nodup_iff, List.nodup_cons, h.mem_iff]
    exact ⟨hnew, h.nodup⟩
  · intro l
    rw [hperm.mem_iff, hreturned, List.mem_cons, List.mem_cons, h.mem_iff]
  · intro l hl
    rw [hreturned, List.mem_cons] at hl
    rw [hcalls]
    rcases hl with rfl | hl
    · apply h.writer_lt thread l hw
    · apply h.call_lt l hl
  · intro i l hi
    rw [hcalls]
    apply h.writer_lt i l (hlines i l hi).2
  · intro i l hi
    obtain ⟨hne, hi⟩ := hlines i l hi
    rw [hreturned, List.mem_cons, not_or]
    refine ⟨?_, h.writer_new i l hi⟩
    rintro rfl
    apply hne (h.writer_inj i thread l hi hw)
  · intro i j l hi hj
    apply h.writer_inj i j l (hlines i l hi).2 (hlines j l hj).2

/-- Counting a line changes no line. -/
theorem Kept.rotate {s s' : Log α} (h : s.Kept) {day : Day} (hs' : s.rotate day = some s') :
  s'.Kept
  := by
  rw [Log.rotate] at hs'
  split at hs'
  · obtain rfl := Option.some.inj hs'
    exact { h with }
  · split at hs'
    · cases hs'
    · split at hs'
      · obtain rfl := Option.some.inj hs'
        exact { h with }
      · obtain rfl := Option.some.inj hs'
        exact { h with }

/-- A thread calls `write_log`. -/
theorem Kept.call {s s₁ : Log α} (h : s.Kept) {day : Day} (hrotate : s.rotate day = some s₁)
    (thread : ℕ) (text : α) :
  { s₁.setWriter thread (.formatted ⟨s₁.calls, text⟩) with calls := s₁.calls + 1 }.Kept
  := by
  have h₁ := h.rotate hrotate
  have hlines : ∀ i l,
      (Function.update s₁.writers thread (.formatted ⟨s₁.calls, text⟩) i).line = some l →
        (i = thread ∧ l.call = s₁.calls) ∨ (s₁.writers i).line = some l := by
    intro i l hi
    rcases Threads.read_update_eq_some hi with ⟨hthread, hi⟩ | ⟨-, hi⟩
    · obtain rfl := Option.some.inj hi
      apply Or.inl ⟨hthread, rfl⟩
    · apply Or.inr hi
  refine ⟨h₁.valid, h₁.nodup, h₁.mem_iff, ?_, ?_, ?_, ?_⟩
  · intro l hl
    apply Nat.lt_succ_of_lt (h₁.call_lt l hl)
  · intro i l hi
    rcases hlines i l hi with ⟨-, hcall⟩ | hi
    · apply Nat.lt_succ_of_le hcall.le
    · apply Nat.lt_succ_of_lt (h₁.writer_lt i l hi)
  · intro i l hi hl
    rcases hlines i l hi with ⟨-, hcall⟩ | hi
    · exact (h₁.call_lt l hl).ne hcall
    · apply h₁.writer_new i l hi hl
  · intro i j l hi hj
    rcases hlines i l hi with ⟨hi', hcall⟩ | hi'
    · rcases hlines j l hj with ⟨hj', -⟩ | hj'
      · apply hi'.trans hj'.symm
      · apply absurd hcall (h₁.writer_lt j l hj').ne
    · rcases hlines j l hj with ⟨-, hcall⟩ | hj'
      · apply absurd hcall (h₁.writer_lt i l hi').ne
      · apply h₁.writer_inj i j l hi' hj'

/-- A thread pushes onto a queue that has room. -/
theorem Kept.push {s : Log α} (h : s.Kept) {thread : ℕ} {line : LogLine α}
    (hw : s.writers thread = .pushes line) (hroom : s.mLogQueue.full = false) :
  ({ s with mLogQueue := (s.mLogQueue.push line).2 }.leave thread line).Kept
  := by
  obtain ⟨q, hq, hvalid, hlist⟩ := BlockQueue.toList_push h.valid hroom line
  rw [hq]
  refine h.deliver (t := { s with mLogQueue := q }.leave thread line) (by rw [hw]; rfl) hvalid ?_
    rfl rfl rfl
  change (s.written.map Prod.snd ++ (q.toList ++ s.inHand)).Perm _
  rw [hlist, List.append_assoc, ← List.append_assoc (s.written.map Prod.snd)]
  refine List.perm_middle.trans ?_
  rw [List.append_assoc]
  rfl

/-- A thread writes its line. -/
theorem Kept.puts {s : Log α} (h : s.Kept) {thread : ℕ} {line : LogLine α}
    (hw : s.writers thread = .puts line) :
  ((s.fputs line).leave thread line).Kept
  := by
  refine h.deliver (t := (s.fputs line).leave thread line) (by rw [hw]; rfl) h.valid ?_ rfl rfl
    rfl
  change ((s.written ++ [(s.mFp, line)]).map Prod.snd ++ (s.mLogQueue.toList ++ s.inHand)).Perm _
  rw [List.map_append, List.append_assoc]
  apply List.perm_middle

/-- The flush thread calls `pop`. -/
theorem Kept.pop {s : Log α} (h : s.Kept) (hcalls : s.flusher = .calls) :
  (s.settle s.mLogQueue.pop).Kept
  := by
  have hhand : s.inHand = [] := by
    rw [inHand, hcalls]
  rcases BlockQueue.pop_cases h.valid with ⟨line, q, hpop, hvalid, hlist⟩ | ⟨hpop, -⟩
  · rw [hpop]
    refine h.of_perm (t := s.settle (.taken line, q)) hvalid ?_ rfl rfl (fun _ => rfl)
    change (s.written.map Prod.snd ++ (q.toList ++ [line])).Perm _
    rw [places, hhand, hlist, List.append_nil]
    exact (List.perm_append_singleton ..).append_left _
  · rw [hpop]
    refine h.of_perm (t := s.settle (.waits, s.mLogQueue)) h.valid ?_ rfl rfl (fun _ => rfl)
    rw [places, places, hhand]
    rfl

/-- The flush thread is woken. -/
theorem Kept.wake {s : Log α} (h : s.Kept) (hwaits : s.flusher = .waits) :
  (s.settle (s.mLogQueue.woken 0)).Kept
  := by
  rw [BlockQueue.woken_zero]
  refine h.of_perm (t := s.settle (.gaveUp, s.mLogQueue)) h.valid ?_ rfl rfl (fun _ => rfl)
  rw [places, places, inHand, inHand, hwaits]
  rfl

/-- The flush thread writes the line it got. -/
theorem Kept.flushPuts {s : Log α} (h : s.Kept) {line : LogLine α}
    (hputs : s.flusher = .puts line) :
  { s.fputs line with flusher := .calls }.Kept
  := by
  refine h.of_perm (t := { s.fputs line with flusher := .calls }) h.valid ?_ rfl rfl
    (fun _ => rfl)
  change ((s.written ++ [(s.mFp, line)]).map Prod.snd ++ (s.mLogQueue.toList ++ [])).Perm _
  rw [places, inHand, hputs, List.map_append, List.append_nil, List.append_assoc]
  exact (List.perm_append_comm).append_left _

/-- A step that does not push onto a full queue keeps the lines in their places. -/
theorem Kept.step {s s' : Log α} (h : s.Kept) {e : LogEvent α} (he : HasRoom s e)
    (hs : s.Steps e s') :
  s'.Kept
  := by
  cases hs with
  | call hw hrotate => apply h.call hrotate
  | testRoom hw _ =>
      apply h.setWriter
      rw [hw]
      rfl
  | testFull hw _ =>
      apply h.setWriter
      rw [hw]
      rfl
  | push hw => apply h.push hw he
  | puts hw => apply h.puts hw
  | pop hcalls => apply h.pop hcalls
  | wake hwaits => apply h.wake hwaits
  | flushPuts hputs => apply h.flushPuts hputs

/-- A line that is pushed onto a full queue is lost. -/
theorem Kept.lost [DecidableEq α] {s : Log α} (h : s.Kept) {thread : ℕ} {line : LogLine α}
    (hw : s.writers thread = .pushes line) (hfull : s.mLogQueue.full = true) :
  ¬ ({ s with mLogQueue := (s.mLogQueue.push line).2 }.leave thread line).Placed
  := by
  rw [BlockQueue.push_full hfull]
  intro hplaced
  have hone := hplaced line List.mem_cons_self
  change s.places.count line = 1 at hone
  have hmem : line ∈ s.places := List.one_le_count_iff.mp hone.ge
  refine h.writer_new thread line ?_ ((h.mem_iff line).mp hmem)
  rw [hw]
  rfl

/-- Each line whose call of `write_log` returned is in exactly one place throughout a run
exactly when no thread pushes onto a full queue in it. -/
theorem placed_iff [DecidableEq α] [Inhabited α] {maxSize : ℤ} {q : BlockQueue (LogLine α)}
    (hq : BlockQueue.ofMaxSize maxSize = some q) {splitLines : ℤ} {day : Day}
    {es : List (LogEvent α)} {t : Log α}
    (h : Run.exec Log.step (init q splitLines day) es = some t) :
  Run.Throughout Log.step Placed (init q splitLines day) es ↔
    Run.Along Log.step HasRoom (init q splitLines day) es
  := by
  obtain ⟨hvalid, hnil⟩ := BlockQueue.ofMaxSize_valid hq
  apply Run.throughout_iff_along (I := Kept) _ _ (fun _ h => h.placed)
    (init_kept hvalid hnil splitLines day) h
  · intro s e s' hs he hs'
    apply hs.step he (steps_of_step hs')
  · intro s e s' hs he hs'
    cases steps_of_step hs' with
    | push hw => exact hs.lost hw (Bool.of_not_eq_false he)
    | _ => exact absurd trivial he

/-- A run of two threads in which the queue of one place always has room. -/
theorem placed_iff_two :
  ∃ q : BlockQueue (LogLine ℕ),
    Run.Throughout Log.step Placed (init q 10 ⟨2024, 5, 1⟩)
        [.call 0 7 ⟨2024, 5, 1⟩, .test 0, .push 0, .call 1 8 ⟨2024, 5, 2⟩, .test 1, .puts 1,
          .pop, .flushPuts] ↔
      Run.Along Log.step HasRoom (init q 10 ⟨2024, 5, 1⟩)
        [.call 0 7 ⟨2024, 5, 1⟩, .test 0, .push 0, .call 1 8 ⟨2024, 5, 2⟩, .test 1, .puts 1,
          .pop, .flushPuts]
  := ⟨_, @placed_iff ℕ _ _ 1 _ rfl _ _ _ _ rfl⟩

/-- Two threads find room in the queue of one place, and then both push. -/
theorem not_placed :
  ¬ ∀ (maxSize : ℤ) (q : BlockQueue (LogLine ℕ)) (es : List (LogEvent ℕ)) (t : Log ℕ),
    BlockQueue.ofMaxSize maxSize = some q →
      Run.exec Log.step (init q 10 ⟨2024, 5, 1⟩) es = some t → t.Placed
  := by
  intro h
  have hplaced := h 1 _
    [.call 0 7 ⟨2024, 5, 1⟩, .call 1 8 ⟨2024, 5, 1⟩, .test 0, .test 1, .push 0, .push 1] _ rfl rfl
  apply absurd (hplaced ⟨1, 8⟩ List.mem_cons_self) (by decide)

end Log

end WebServer
