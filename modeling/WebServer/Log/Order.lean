import WebServer.Log.WriteLog

/-!
# The order of the lines of a thread

A line goes to the log file through the queue and the flush thread, or directly when its
thread finds the queue full.  The lines that are not lost stand in a sequence: those in
the files, then the one in the hands of the flush thread, then those in the queue.  A step
changes it only when it puts a line into it, behind all others when the line is pushed,
and ahead of those that wait when it is written directly (`Moved`).

So of two lines of a thread the first one is written first, unless its thread writes the
second one directly while the first one waits (`writtenBefore_iff`).
-/

namespace WebServer

universe u

/-- The thread that calls `write_log`. -/
def LogEvent.caller {α : Type u} : LogEvent α → Option ℕ
  | .call thread _ _ => some thread
  | _ => none

namespace Log

variable {α : Type u}

/-- The threads of the calls of `write_log`, in the order of the calls. -/
def callers (es : List (LogEvent α)) : List ℕ := es.filterMap LogEvent.caller

/-- In the run `es` a thread returned from `write_log` with the line `a`, and then called
it with the line `b`. -/
def Completes (s₀ : Log α) (es : List (LogEvent α)) (a b : LogLine α) : Prop :=
  ∃ pre post thread text day s, es = pre ++ .call thread text day :: post ∧
    Run.exec step s₀ pre = some s ∧ (callers pre)[a.call]? = some thread ∧ a ∈ s.returned ∧
    b = ⟨s.calls, text⟩

/-- In the log files, the line `a` stands before the line `b`. -/
def WrittenBefore (s : Log α) (a b : LogLine α) : Prop :=
  [a, b].Sublist (s.written.map Prod.snd)

/-- In the run `es` the line `b` is written by its thread while the line `a` is in the
queue or in the hands of the flush thread. -/
def Overtakes (s₀ : Log α) (es : List (LogEvent α)) (a b : LogLine α) : Prop :=
  ∃ pre post thread s, es = pre ++ .puts thread :: post ∧ Run.exec step s₀ pre = some s ∧
    s.writers thread = .puts b ∧ (a ∈ s.inHand ∨ a ∈ s.mLogQueue.toList)

/-- The line `a` is not pushed onto a full queue. -/
def FindsRoom (a : LogLine α) (s : Log α) : LogEvent α → Prop
  | .push thread => s.writers thread = .pushes a → s.mLogQueue.full = false
  | _ => True

instance [DecidableEq α] (a : LogLine α) (s : Log α) : ∀ e, Decidable (FindsRoom a s e)
  | .push thread => inferInstanceAs (Decidable (s.writers thread = .pushes a → _))
  | .call _ _ _ | .test _ | .puts _ | .pop | .wake | .flushPuts => .isTrue trivial

/-- The lines that are not lost, in the order in which they are written when nothing comes
between. -/
def sequence (s : Log α) : List (LogLine α) :=
  s.written.map Prod.snd ++ (s.inHand ++ s.mLogQueue.toList)

theorem sequence_perm (s : Log α) :
  s.sequence.Perm s.places
  := (List.perm_append_comm).append_left _

/-! ### Lost lines -/

/-- The log, with the lines that are in a place for those whose calls returned. -/
def placed (s : Log α) : Log α := { s with returned := s.places }

/-- What is kept along every run: a line that is not lost is in one place. -/
def Held (s : Log α) : Prop := s.placed.Kept

theorem Kept.held {s : Log α} (h : s.Kept) :
  s.Held
  where
  valid := h.valid
  nodup := h.nodup
  mem_iff _ := Iff.rfl
  call_lt line hline := h.call_lt line ((h.mem_iff line).mp hline)
  writer_lt := h.writer_lt
  writer_new i line hi hline := h.writer_new i line hi ((h.mem_iff line).mp hline)
  writer_inj := h.writer_inj

theorem rotate_returned (s : Log α) (returned : List (LogLine α)) (day : Day) :
  { s with returned := returned }.rotate day =
    (s.rotate day).map fun s' => { s' with returned := returned }
  := by
  rw [rotate, rotate]
  dsimp only
  split
  · rfl
  · split
    · rfl
    · split
      · rfl
      · rfl

theorem settle_returned (s : Log α) (returned : List (LogLine α))
    (r : PopResult (LogLine α) × BlockQueue (LogLine α)) :
  { s with returned := returned }.settle r = { s.settle r with returned := returned }
  := by
  obtain ⟨r, q⟩ := r
  cases r with
  | taken line => rfl
  | gaveUp => rfl
  | waits => rfl

/-- What a step does does not depend on the calls that returned. -/
theorem Steps.setReturned {s s' : Log α} {e : LogEvent α} (h : s.Steps e s')
    (returned : List (LogLine α)) :
  ∃ returned', { s with returned := returned }.Steps e { s' with returned := returned' }
  := by
  cases h with
  | @call thread text day s₁ hw hrotate =>
      have hrotate' := rotate_returned s returned day
      rw [hrotate] at hrotate'
      exact ⟨returned, Steps.call (s := { s with returned := returned }) hw hrotate'⟩
  | testRoom hw htest => exact ⟨returned, .testRoom hw htest⟩
  | testFull hw htest => exact ⟨returned, .testFull hw htest⟩
  | @push thread line hw => exact ⟨line :: returned, .push hw⟩
  | @puts thread line hw => exact ⟨line :: returned, .puts hw⟩
  | pop hcalls =>
      use returned
      rw [← settle_returned]
      exact .pop hcalls
  | wake hwaits =>
      use returned
      rw [← settle_returned]
      exact .wake hwaits
  | flushPuts hputs => exact ⟨returned, .flushPuts hputs⟩

/-- A thread loses its line and returns. -/
theorem Held.drop {s : Log α} (h : s.Held) (thread : ℕ) (line : LogLine α) :
  (s.leave thread line).Held
  := by
  have hlines : ∀ i l, (Function.update s.writers thread .outside i).line = some l →
      (s.writers i).line = some l := by
    intro i l hi
    rcases Threads.read_update_eq_some hi with ⟨-, hi⟩ | ⟨-, hi⟩
    · cases hi
    · exact hi
  refine ⟨h.valid, h.nodup, h.mem_iff, h.call_lt, ?_, ?_, ?_⟩
  · intro i l hi
    apply h.writer_lt i l (hlines i l hi)
  · intro i l hi
    apply h.writer_new i l (hlines i l hi)
  · intro i j l hi hj
    apply h.writer_inj i j l (hlines i l hi) (hlines j l hj)

/-- Every step keeps the lines that are not lost in one place. -/
theorem Held.step {s s' : Log α} (h : s.Held) {e : LogEvent α} (hs : s.Steps e s') :
  s'.Held
  := by
  have hroom (he : HasRoom s e) : s'.Held := by
    obtain ⟨returned, hs'⟩ := hs.setReturned s.places
    have hkept := Kept.step h (e := e) ?_ hs'
    · have hheld := hkept.held
      exact hheld
    · cases e with
      | push => exact he
      | _ => trivial
  cases hs with
  | @push thread line hw =>
      cases hfull : s.mLogQueue.full with
      | false => exact hroom hfull
      | true =>
          rw [BlockQueue.push_full hfull]
          apply h.drop
  | _ => exact hroom trivial

/-! ### The sequence -/

/-- What a step does to the sequence of the lines. -/
inductive Moved (s s' : Log α) : LogEvent α → Prop
  /-- A line is written directly. -/
  | direct {thread : ℕ} {line : LogLine α} : s.writers thread = .puts line →
      s'.sequence = s.written.map Prod.snd ++ line :: (s.inHand ++ s.mLogQueue.toList) →
      s'.returned = line :: s.returned → Moved s s' (.puts thread)
  /-- A line is pushed. -/
  | queued {thread : ℕ} {line : LogLine α} : s.writers thread = .pushes line →
      s'.sequence = s.sequence ++ [line] → s'.returned = line :: s.returned →
      Moved s s' (.push thread)
  /-- A line is lost. -/
  | lost {thread : ℕ} {line : LogLine α} : s.writers thread = .pushes line →
      s.mLogQueue.full = true → s'.sequence = s.sequence → s'.returned = line :: s.returned →
      Moved s s' (.push thread)
  /-- No line comes into the sequence. -/
  | still {e : LogEvent α} : s'.sequence = s.sequence → s'.returned = s.returned → Moved s s' e

theorem rotate_sequence {s s' : Log α} {day : Day} (h : s.rotate day = some s') :
  s'.sequence = s.sequence ∧ s'.returned = s.returned
  := by
  rw [rotate] at h
  split at h
  · obtain rfl := Option.some.inj h
    exact ⟨rfl, rfl⟩
  · split at h
    · cases h
    · split at h
      · obtain rfl := Option.some.inj h
        exact ⟨rfl, rfl⟩
      · obtain rfl := Option.some.inj h
        exact ⟨rfl, rfl⟩

theorem Steps.moved {s s' : Log α} {e : LogEvent α} (hs : s.Steps e s')
    (h : s.mLogQueue.Valid) :
  Moved s s' e
  := by
  cases hs with
  | call hw hrotate =>
      obtain ⟨hsequence, hreturned⟩ := rotate_sequence hrotate
      exact .still hsequence hreturned
  | testRoom hw _ => exact .still rfl rfl
  | testFull hw _ => exact .still rfl rfl
  | @push thread line hw =>
      cases hfull : s.mLogQueue.full with
      | false =>
          obtain ⟨q, hq, -, hlist⟩ := BlockQueue.toList_push h hfull line
          rw [hq]
          apply Moved.queued hw _ rfl
          change s.written.map Prod.snd ++ (s.inHand ++ q.toList) = _
          rw [hlist, sequence, List.append_assoc, List.append_assoc]
      | true =>
          rw [BlockQueue.push_full hfull]
          exact .lost hw hfull rfl rfl
  | @puts thread line hw =>
      apply Moved.direct hw _ rfl
      change (s.written ++ [(s.mFp, line)]).map Prod.snd ++ (s.inHand ++ s.mLogQueue.toList) = _
      rw [List.map_append, List.append_assoc]
      rfl
  | pop hcalls =>
      have hhand : s.inHand = [] := by
        rw [inHand, hcalls]
      rcases BlockQueue.pop_cases h with ⟨line, q, hpop, -, hlist⟩ | ⟨hpop, -⟩
      · rw [hpop]
        change Moved s (s.settle (.taken line, q)) _
        refine Moved.still ?_ rfl
        change s.written.map Prod.snd ++ ([line] ++ q.toList) = _
        rw [sequence, hhand, hlist]
        rfl
      · rw [hpop]
        change Moved s (s.settle (.waits, s.mLogQueue)) _
        refine Moved.still ?_ rfl
        change s.written.map Prod.snd ++ ([] ++ s.mLogQueue.toList) = _
        rw [sequence, hhand]
  | wake hwaits =>
      rw [BlockQueue.woken_zero]
      refine Moved.still ?_ rfl
      change s.written.map Prod.snd ++ ([] ++ s.mLogQueue.toList) = _
      rw [sequence, inHand, hwaits]
  | @flushPuts line hputs =>
      refine Moved.still ?_ rfl
      change (s.written ++ [(s.mFp, line)]).map Prod.snd ++ ([] ++ s.mLogQueue.toList) = _
      rw [sequence, inHand, hputs, List.map_append, List.append_assoc]
      rfl

theorem Moved.sublist {s s' : Log α} {e : LogEvent α} (h : Moved s s' e) :
  s.sequence.Sublist s'.sequence
  := by
  cases h with
  | direct _ hsequence _ =>
      rw [hsequence]
      exact (List.sublist_cons_self ..).append_left _
  | queued _ hsequence _ =>
      rw [hsequence]
      apply List.sublist_append_left
  | lost _ _ hsequence _ => rw [hsequence]
  | still hsequence _ => rw [hsequence]

/-- A run leaves the lines of the sequence in their order. -/
theorem exec_sublist {s t : Log α} {es : List (LogEvent α)} (hs : s.Held)
    (h : Run.exec step s es = some t) :
  t.Held ∧ s.sequence.Sublist t.sequence
  := by
  refine Run.exec_preserves (I := fun s' => s'.Held ∧ s.sequence.Sublist s'.sequence) ?_
    ⟨hs, List.Sublist.refl _⟩ h
  rintro s₁ e s₂ ⟨hheld, hsub⟩ hstep
  have hvalid : s₁.mLogQueue.Valid := hheld.valid
  exact ⟨hheld.step (steps_of_step hstep), hsub.trans ((steps_of_step hstep).moved hvalid).sublist⟩

/-- A line whose call returned is in the sequence, when it was not pushed onto a full
queue. -/
theorem Moved.returned {s s' : Log α} {e : LogEvent α} (h : Moved s s' e) {a : LogLine α}
    (hroom : FindsRoom a s e) (ha : a ∈ s.returned → a ∈ s.sequence) :
  a ∈ s'.returned → a ∈ s'.sequence
  := by
  intro hreturned
  have hold (hmem : a ∈ s.returned) : a ∈ s'.sequence := h.sublist.subset (ha hmem)
  cases h with
  | @direct thread line _ hsequence hret =>
      rw [hret, List.mem_cons] at hreturned
      rcases hreturned with rfl | hmem
      · rw [hsequence]
        apply List.mem_append_right _ List.mem_cons_self
      · apply hold hmem
  | @queued thread line _ hsequence hret =>
      rw [hret, List.mem_cons] at hreturned
      rcases hreturned with rfl | hmem
      · rw [hsequence]
        apply List.mem_append_right _ List.mem_cons_self
      · apply hold hmem
  | @lost thread line hw hfull hsequence hret =>
      rw [hret, List.mem_cons] at hreturned
      rcases hreturned with rfl | hmem
      · apply absurd (hroom hw)
        rw [hfull]
        decide
      · apply hold hmem
  | still hsequence hret =>
      rw [hret] at hreturned
      apply hold hreturned

/-- A line that comes into the sequence stands behind the others, unless it is written directly
while they wait. -/
theorem Moved.enters {s s' : Log α} {e : LogEvent α} (h : Moved s s' e) {a b : LogLine α}
    (ha : a ∈ s.sequence) (hout : b ∉ s.sequence) (hin : b ∈ s'.sequence) :
  [a, b].Sublist s'.sequence ∨ ∃ thread, e = .puts thread ∧ s.writers thread = .puts b ∧
    (a ∈ s.inHand ∨ a ∈ s.mLogQueue.toList)
  := by
  cases h with
  | @direct thread line hw hsequence _ =>
      rw [sequence, List.mem_append, not_or] at hout
      rw [hsequence, List.mem_append, List.mem_cons] at hin
      obtain rfl : b = line := (hin.resolve_left hout.1).resolve_right hout.2
      rw [sequence, List.mem_append] at ha
      rcases ha with hwritten | hwait
      · left
        rw [hsequence]
        apply (List.singleton_sublist.mpr hwritten).append
        rw [List.singleton_sublist]
        apply List.mem_cons_self
      · right
        exact ⟨thread, rfl, hw, List.mem_append.mp hwait⟩
  | @queued thread line hw hsequence _ =>
      rw [hsequence, List.mem_append, List.mem_singleton] at hin
      obtain rfl := hin.resolve_left hout
      left
      rw [hsequence]
      apply (List.singleton_sublist.mpr ha).append (List.Sublist.refl _)
  | lost _ _ hsequence _ =>
      rw [hsequence] at hin
      apply absurd hin hout
  | still hsequence _ =>
      rw [hsequence] at hin
      apply absurd hin hout

/-- Two members of a list without duplicates stand in one order only. -/
theorem sublist_antisymm {β : Type*} {a b : β} {l : List β} (hl : l.Nodup)
    (hab : [a, b].Sublist l) (hba : [b, a].Sublist l) :
  False
  := by
  induction l with
  | nil => cases hab
  | cons x l ih =>
      obtain ⟨hx, hl⟩ := List.nodup_cons.mp hl
      cases hab with
      | cons _ hab =>
          cases hba with
          | cons _ hba => exact ih hl hab hba
          | cons_cons _ _ => exact hx (hab.subset (by simp))
      | cons_cons _ hb =>
          cases hba with
          | cons _ hba => exact hx (hba.subset (by simp))
          | cons_cons _ ha => exact hx (ha.subset (by simp))

/-- Two members of a list without duplicates stand in a first part of it in the order in
which they stand in the list, when the second one is in that part. -/
theorem sublist_of_append {β : Type*} {a b : β} {l l' : List β} (hl : (l ++ l').Nodup)
    (hab : [a, b].Sublist (l ++ l')) (hb : b ∈ l) :
  [a, b].Sublist l
  := by
  have hnot (hb' : b ∈ l') : False := (List.nodup_append.mp hl).2.2 b hb b hb' rfl
  obtain ⟨x, y, hxy, hx, hy⟩ := List.sublist_append_iff.mp hab
  rcases x with _ | ⟨_, _ | ⟨_, x⟩⟩
  · rw [List.nil_append] at hxy
    subst hxy
    apply (hnot (hy.subset (by simp))).elim
  · obtain ⟨rfl, rfl⟩ := List.cons.inj hxy
    apply (hnot (hy.subset (by simp))).elim
  · rw [List.cons_append, List.cons_append, List.cons.injEq, List.cons.injEq] at hxy
    obtain ⟨rfl, rfl, hxy⟩ := hxy
    obtain ⟨rfl, rfl⟩ := List.append_eq_nil_iff.mp hxy.symm
    exact hx

/-! ### The order of two lines -/

section Run

variable [Inhabited α] {maxSize : ℤ} {q : BlockQueue (LogLine α)}
  (hq : BlockQueue.ofMaxSize maxSize = some q) {splitLines : ℤ} {day : Day}

include hq

/-- Of a run from `init`, every state holds its lines. -/
theorem exec_held {es : List (LogEvent α)} {t : Log α}
    (h : Run.exec step (init q splitLines day) es = some t) :
  t.Held
  := by
  obtain ⟨hvalid, hnil⟩ := BlockQueue.ofMaxSize_valid hq
  exact (exec_sublist (init_kept hvalid hnil splitLines day).held h).1

/-- A line whose call returned is in the sequence, when it was not pushed onto a full
queue. -/
theorem mem_sequence {es : List (LogEvent α)} {t : Log α} {a : LogLine α}
    (hroom : Run.Along step (FindsRoom a) (init q splitLines day) es)
    (h : Run.exec step (init q splitLines day) es = some t) (ha : a ∈ t.returned) :
  a ∈ t.sequence
  := by
  obtain ⟨hvalid, hnil⟩ := BlockQueue.ofMaxSize_valid hq
  refine (Run.exec_invariant (I := fun s => s.Held ∧ (a ∈ s.returned → a ∈ s.sequence)) ?_
    ⟨(init_kept hvalid hnil splitLines day).held, fun hmem => absurd hmem List.not_mem_nil⟩ hroom
    h).2 ha
  rintro s e s' ⟨hheld, hmem⟩ hcond hstep
  have hqueue : s.mLogQueue.Valid := hheld.valid
  exact ⟨hheld.step (steps_of_step hstep),
    ((steps_of_step hstep).moved hqueue).returned hcond hmem⟩

/-- The line `b` is written before `a` when it is written while `a` waits. -/
theorem Overtakes.sublist {es : List (LogEvent α)} {t : Log α} {a b : LogLine α}
    (h : Run.exec step (init q splitLines day) es = some t)
    (hab : Overtakes (init q splitLines day) es a b) :
  [b, a].Sublist t.sequence
  := by
  obtain ⟨pre, post, thread, s, rfl, hpre, hw, hwait⟩ := hab
  obtain ⟨s', hs', h⟩ := Run.exec_split h
  obtain rfl := Option.some.inj (hpre.symm.trans hs')
  obtain ⟨s₁, hs₁, h⟩ := Run.exec_cons.mp h
  have hheld := exec_held hq hpre
  have hsequence : s₁.sequence
      = s.written.map Prod.snd ++ b :: (s.inHand ++ s.mLogQueue.toList) := by
    rw [step, hw] at hs₁
    obtain rfl := Option.some.inj hs₁
    change (s.written ++ [(s.mFp, b)]).map Prod.snd ++ (s.inHand ++ s.mLogQueue.toList) = _
    rw [List.map_append, List.append_assoc]
    rfl
  refine List.Sublist.trans ?_ (exec_sublist (hheld.step (steps_of_step hs₁)) h).2
  rw [hsequence]
  apply List.Sublist.trans _ (List.sublist_append_right ..)
  apply List.Sublist.cons_cons
  rw [List.singleton_sublist, List.mem_append]
  exact hwait

/-- Of two lines of a thread, of which the first was not pushed onto a full queue, the
first one is written first exactly when its thread does not write the second one directly
while the first one waits. -/
theorem writtenBefore_iff {es : List (LogEvent α)} {t : Log α} {a b : LogLine α}
    (h : Run.exec step (init q splitLines day) es = some t)
    (hab : Completes (init q splitLines day) es a b)
    (hroom : Run.Along step (FindsRoom a) (init q splitLines day) es)
    (hb : b ∈ t.written.map Prod.snd) :
  WrittenBefore t a b ↔ ¬ Overtakes (init q splitLines day) es a b
  := by
  have hnodup : t.sequence.Nodup := by
    rw [t.sequence_perm.nodup_iff]
    apply (exec_held hq h).nodup
  constructor
  · intro hbefore hover
    apply sublist_antisymm hnodup (hbefore.trans (List.sublist_append_left ..))
    apply hover.sublist hq h
  · intro hover
    obtain ⟨pre, post, thread, text, day', s, rfl, hpre, -, ha, rfl⟩ := hab
    obtain ⟨s', hs', hrest⟩ := Run.exec_split h
    obtain rfl := Option.some.inj (hpre.symm.trans hs')
    have hmem := mem_sequence hq hroom.of_append hpre ha
    have hnew : ⟨s.calls, text⟩ ∉ s.sequence := by
      intro hin
      rw [s.sequence_perm.mem_iff] at hin
      apply absurd ((exec_held hq hpre).call_lt _ hin) (lt_irrefl _)
    -- the step that puts the second line into the sequence
    obtain ⟨pre₁, e, post₁, s₁, s₂, hes, hpre₁, hout, hstep, hin, hpost₁⟩ :=
      Run.exec_enters (P := fun u => (⟨s.calls, text⟩ : LogLine α) ∈ u.sequence) hrest hnew
        (List.mem_append_left _ hb)
    obtain ⟨hheld₁, hsub₁⟩ := exec_sublist (exec_held hq hpre) hpre₁
    have hmem₁ := hsub₁.subset hmem
    have hvalid₁ : s₁.mLogQueue.Valid := hheld₁.valid
    have hpair : [a, ⟨s.calls, text⟩].Sublist s₂.sequence := by
      rcases ((steps_of_step hstep).moved hvalid₁).enters hmem₁ hout hin
        with hpair | ⟨thread, rfl, hw, hwait⟩
      · exact hpair
      · apply absurd _ hover
        refine ⟨pre ++ pre₁, post₁, thread, s₁, ?_, Run.exec_append hpre hpre₁, hw, hwait⟩
        rw [hes, List.append_assoc]
    have hlast := (exec_sublist (hheld₁.step (steps_of_step hstep)) hpost₁).2
    apply sublist_of_append hnodup (hpair.trans hlast) hb

end Run

/-- A thread writes its second line directly when the flush thread has written the first
one. -/
theorem writtenBefore_iff_two :
  ∃ (q : BlockQueue (LogLine ℕ)) (es : List (LogEvent ℕ)) (t : Log ℕ),
    WrittenBefore t ⟨0, 7⟩ ⟨2, 9⟩ ↔
      ¬ Overtakes (init q 10 ⟨2024, 5, 1⟩) es ⟨0, 7⟩ ⟨2, 9⟩
  := ⟨_, [.call 0 7 ⟨2024, 5, 1⟩, .test 0, .push 0, .pop, .flushPuts, .call 1 8 ⟨2024, 5, 1⟩,
      .test 1, .push 1, .call 0 9 ⟨2024, 5, 1⟩, .test 0, .puts 0], _,
    @writtenBefore_iff ℕ _ 1 _ rfl _ _ _ _ _ _ rfl
      ⟨[.call 0 7 ⟨2024, 5, 1⟩, .test 0, .push 0, .pop, .flushPuts, .call 1 8 ⟨2024, 5, 1⟩,
        .test 1, .push 1], [.test 0, .puts 0], 0, 9, ⟨2024, 5, 1⟩, _, rfl, rfl, rfl, by decide, rfl⟩
      (by decide) (by decide)⟩

/-- A thread finds the queue of one place full of its first line, and writes the second
one directly. -/
theorem not_writtenBefore :
  ¬ ∀ (maxSize : ℤ) (q : BlockQueue (LogLine ℕ)) (es : List (LogEvent ℕ)) (t : Log ℕ)
      (a b : LogLine ℕ),
    BlockQueue.ofMaxSize maxSize = some q →
      Run.exec step (init q 10 ⟨2024, 5, 1⟩) es = some t →
        Completes (init q 10 ⟨2024, 5, 1⟩) es a b → b ∈ t.written.map Prod.snd →
          WrittenBefore t a b
  := by
  intro h
  have hbefore := h 1 _ [.call 0 7 ⟨2024, 5, 1⟩, .test 0, .push 0, .call 0 8 ⟨2024, 5, 1⟩,
    .test 0, .puts 0] _ ⟨0, 7⟩ ⟨1, 8⟩ rfl rfl
    ⟨[.call 0 7 ⟨2024, 5, 1⟩, .test 0, .push 0], [.test 0, .puts 0], 0, 8, ⟨2024, 5, 1⟩, _, rfl,
      rfl, rfl, by decide, rfl⟩ (by decide)
  apply absurd (hbefore.subset List.mem_cons_self) (by decide)

end Log

end WebServer
