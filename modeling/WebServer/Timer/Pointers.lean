import Mathlib.Data.List.TakeWhile
import WebServer.Timer.Collection

/-!
# Pointers to deleted timers

`del_timer` sets `head` and `tail` to null with the last timer.  `tick` deletes timers from
the head on and sets only `head`, so that `tail` points to a deleted timer when it deletes
them all, which no operation looks at until the next timer is added.  Otherwise no pointer to
a deleted timer is kept (`noDangling_iff`), whatever times the timers are adjusted to.
-/

open LinkedList

namespace WebServer

namespace SortTimerList

/-- The pointers of the list are null or point to timers that are not deleted, which are the
timers reached from the head. -/
structure NoDangling (s : SortTimerList) : Prop where
  walk : ∃ l, Walk s.heap s.head l ∧ ∀ a, a ∈ l ↔ (s.heap a).isSome = true
  head : ∀ a, s.head = some a → (s.heap a).isSome = true
  tail : ∀ a, s.tail = some a → (s.heap a).isSome = true
  prev : ∀ a b, prev s.heap a = some b → (s.heap b).isSome = true
  next : ∀ a b, next s.heap a = some b → (s.heap b).isSome = true
  ends : s.head = none ↔ s.tail = none

/-- A timer that is added was just constructed, and one that is adjusted or deleted is in the
list. -/
def Offered (s : SortTimerList) : TimerOp → Prop
  | .add timer _ => (s.heap timer).isSome = false
  | .adjust timer _ | .del timer => (s.heap timer).isSome = true
  | .tick _ => True

instance : ∀ (s : SortTimerList) (op : TimerOp), Decidable (s.Offered op)
  | _, .add _ _ => inferInstanceAs (Decidable (_ = _))
  | _, .adjust _ _ => inferInstanceAs (Decidable (_ = _))
  | _, .del _ => inferInstanceAs (Decidable (_ = _))
  | _, .tick _ => .isTrue trivial

/-- `tick` finds no timer, or finds one that has not expired. -/
def Spares (s : SortTimerList) : TimerOp → Prop
  | .tick cur => s.head = none ∨ ∃ a c, s.heap a = some c ∧ cur < c.value.expire
  | _ => True

/-- The pointers of `s` make up the list `l`, and `tail` is null when it is empty. -/
structure Tied (s : SortTimerList) (l : List (ℕ × TimerData)) : Prop where
  holds : s.Holds l
  tail : l = [] → s.tail = none

theorem empty_tied :
  Tied empty []
  := ⟨empty_holds, fun _ => rfl⟩

theorem Holds.tied {s : SortTimerList} {l : List (ℕ × TimerData)} (h : s.Holds l)
    (hne : l ≠ []) :
  s.Tied l
  := ⟨h, fun hnil => absurd hnil hne⟩

/-- A timer of the heap is in the list. -/
theorem Holds.split {s : SortTimerList} {l : List (ℕ × TimerData)} (h : s.Holds l) {a : ℕ}
    (ha : (s.heap a).isSome = true) :
  ∃ l₁ d l₂, l = l₁ ++ (a, d) :: l₂
  := by
  obtain ⟨⟨a, d⟩, hmem, rfl⟩ := List.mem_map.mp ((h.cells a).mp ha)
  obtain ⟨l₁, l₂, rfl⟩ := List.append_of_mem hmem
  exact ⟨l₁, d, l₂, rfl⟩

/-- The cells of the heap are the timers of the list. -/
theorem Holds.cell_iff {s : SortTimerList} {l : List (ℕ × TimerData)} (h : s.Holds l) {a : ℕ}
    {d : TimerData} :
  (∃ c, s.heap a = some c ∧ c.value = d) ↔ (a, d) ∈ l
  := by
  constructor
  · rintro ⟨c, hc, rfl⟩
    obtain ⟨l₁, d, l₂, rfl⟩ := h.split (a := a) (by rw [hc]; rfl)
    cases hc.symm.trans h.seg.cell
    simp
  · intro hmem
    obtain ⟨l₁, l₂, rfl⟩ := List.append_of_mem hmem
    exact ⟨_, h.seg.cell, rfl⟩

/-- The head is a timer of the list. -/
theorem Holds.head_mem {s : SortTimerList} {l : List (ℕ × TimerData)} (h : s.Holds l) {a : ℕ}
    (ha : s.head = some a) :
  a ∈ addresses l
  := by
  rw [h.head] at ha
  cases l with
  | nil => cases ha
  | cons x l =>
      obtain rfl := Option.some.inj ha
      apply List.mem_cons_self

theorem Holds.head_none_iff {s : SortTimerList} {l : List (ℕ × TimerData)} (h : s.Holds l) :
  s.head = none ↔ l = []
  := by
  rw [h.head]
  cases l with
  | nil => simp
  | cons x l => simp

/-- `tail` is the last timer of a list with timers. -/
theorem Holds.tail_getLast {s : SortTimerList} {l : List (ℕ × TimerData)} (h : s.Holds l)
    (hne : l ≠ []) :
  s.tail = (addresses l).getLast?
  := by
  rw [h.tail hne, getLast?_addresses]

theorem Tied.tail_none_iff {s : SortTimerList} {l : List (ℕ × TimerData)} (h : s.Tied l) :
  s.tail = none ↔ l = []
  := by
  constructor
  · intro hnone
    by_contra hne
    rw [h.holds.tail_getLast hne, List.getLast?_eq_none_iff] at hnone
    apply hne (List.map_eq_nil_iff.mp hnone)
  · apply h.tail

/-- No pointer to a deleted timer is kept. -/
theorem Tied.noDangling {s : SortTimerList} {l : List (ℕ × TimerData)} (h : s.Tied l) :
  s.NoDangling
  where
  walk := by
    refine ⟨addresses l, ?_, fun a => (h.holds.cells a).symm⟩
    rw [h.holds.head]
    apply h.holds.seg.walk
  head := by
    intro a ha
    apply (h.holds.cells a).mpr (h.holds.head_mem ha)
  tail := by
    intro a ha
    have hne : l ≠ [] := fun hnil => Option.some_ne_none a (ha.symm.trans (h.tail hnil))
    rw [h.holds.tail_getLast hne] at ha
    apply (h.holds.cells a).mpr (List.mem_of_getLast? ha)
  prev := by
    intro a b hab
    have ha := (h.holds.cells a).mp (isSome_of_prev hab)
    apply isSome_of_next (h.holds.seg.next_of_prev ha hab)
  next := by
    intro a b hab
    have ha := (h.holds.cells a).mp (isSome_of_next hab)
    apply isSome_of_prev (h.holds.seg.prev_of_next ha hab)
  ends := h.holds.head_none_iff.trans h.tail_none_iff.symm

/-! ### What the operations do -/

/-- `tick` leaves `tail`. -/
theorem popHead_tail {s s' : SortTimerList} {tmp : ℕ} {next : Option ℕ}
    (h : s.popHead tmp next = some s') :
  s'.tail = s.tail
  := by
  cases next with
  | none =>
      obtain ⟨heap, -, h⟩ := Option.bind_eq_some_iff.mp h
      obtain rfl := Option.some.inj h
      rfl
  | some head =>
      obtain ⟨_, -, h⟩ := Option.bind_eq_some_iff.mp h
      obtain ⟨heap, -, h⟩ := Option.bind_eq_some_iff.mp h
      obtain rfl := Option.some.inj h
      rfl

theorem tickFrom_tail {cur : ℤ} {fuel : ℕ} {s : SortTimerList} {r : List (ℕ × ℕ) × SortTimerList}
    (h : tickFrom cur fuel s = some r) :
  r.2.tail = s.tail
  := by
  induction fuel generalizing s r with
  | zero =>
      rw [tickFrom] at h
      split at h
      · cases h
        rfl
      · obtain ⟨t, -, h⟩ := Option.bind_eq_some_iff.mp h
        split at h
        · cases h
          rfl
        · cases h
  | succ fuel ih =>
      rw [tickFrom] at h
      split at h
      · cases h
        rfl
      · obtain ⟨t, -, h⟩ := Option.bind_eq_some_iff.mp h
        split at h
        · cases h
          rfl
        · obtain ⟨s₁, hs₁, h⟩ := Option.bind_eq_some_iff.mp h
          obtain ⟨r₁, hr₁, h⟩ := Option.bind_eq_some_iff.mp h
          cases h
          apply (ih hr₁).trans (popHead_tail hs₁)

/-- `del_timer` of the only timer sets both ends to null. -/
theorem Holds.delTimer_only {s s' : SortTimerList} {t : ℕ × TimerData} (h : s.Holds [t])
    (hs' : s.delTimer (some t.1) = some s') :
  s'.tail = none
  := by
  have hends : s.head = some t.1 ∧ s.tail = some t.1 := ⟨h.head, h.tail (List.cons_ne_nil _ _)⟩
  rw [SortTimerList.delTimer, if_pos hends] at hs'
  obtain ⟨s₁, -, hs'⟩ := Option.bind_eq_some_iff.mp hs'
  obtain rfl := Option.some.inj hs'
  rfl

/-- An operation that is taken is one that may be offered. -/
theorem Holds.offered {s s' : SortTimerList} {l : List (ℕ × TimerData)} (h : s.Holds l)
    {op : TimerOp} (hs' : s.step op = some s') :
  s.Offered op
  := by
  cases op with
  | add timer d =>
      obtain ⟨s₁, hs₁, -⟩ := Option.bind_eq_some_iff.mp hs'
      rw [SortTimerList.newTimer] at hs₁
      split at hs₁
      next hnone => simpa [Offered] using hnone
      next => cases hs₁
  | adjust timer expire =>
      obtain ⟨s₁, hs₁, -⟩ := Option.bind_eq_some_iff.mp hs'
      obtain ⟨t, ht, -⟩ := Option.bind_eq_some_iff.mp hs₁
      rw [Offered, ht]
      rfl
  | del timer =>
      have hs' : s.delTimer (some timer) = some s' := hs'
      rw [Offered]
      by_contra hfree
      have hhead : s.head ≠ some timer := fun hhead =>
        hfree ((h.cells timer).mpr (h.head_mem hhead))
      have hnone : s.heap timer = none := by
        simpa using hfree
      rw [SortTimerList.delTimer, if_neg (fun hends => hhead hends.1), if_neg hhead, hnone] at hs'
      split at hs'
      · cases hs'
      · cases hs'
  | tick cur => trivial

/-- A timer that is inserted is in the list. -/
theorem insertTimer_ne_nil (t : ℕ × TimerData) (l : List (ℕ × TimerData)) :
  insertTimer t l ≠ []
  := by
  apply List.ne_nil_of_length_pos
  rw [(insertTimer_perm t l).length_eq]
  apply Nat.succ_pos

/-- `tick` leaves a timer exactly when it finds one that has not expired. -/
theorem Holds.spares_iff {s : SortTimerList} {l : List (ℕ × TimerData)} (h : s.Holds l)
    (cur : ℤ) :
  s.Spares (.tick cur) ↔ l = [] ∨ l.dropWhile (expired cur) ≠ []
  := by
  have hleft : l.dropWhile (expired cur) ≠ [] ↔ ∃ t ∈ l, cur < t.2.expire := by
    rw [Ne, List.dropWhile_eq_nil_iff]
    push Not
    simp [expired]
  rw [Spares, h.head_none_iff, hleft]
  apply or_congr_right
  constructor
  · rintro ⟨a, c, hc, hlt⟩
    exact ⟨(a, c.value), h.cell_iff.mp ⟨c, hc, rfl⟩, hlt⟩
  · rintro ⟨⟨a, d⟩, hmem, hlt⟩
    obtain ⟨c, hc, rfl⟩ := h.cell_iff.mpr hmem
    exact ⟨a, c, hc, hlt⟩

/-- An operation that is offered is taken, and the pointers make up a list again. -/
theorem Holds.step {s : SortTimerList} {l : List (ℕ × TimerData)} (h : s.Holds l) {op : TimerOp}
    (hop : s.Offered op) :
  ∃ s' l', s.step op = some s' ∧ s'.Holds l' ∧ (s.Tied l → s.Spares op → s'.Tied l')
  := by
  cases op with
  | add timer d =>
      have hfree : timer ∉ addresses l := by
        rw [← h.cells, hop]
        apply Bool.false_ne_true
      obtain ⟨s₁, s₂, hs₁, hs₂, hholds⟩ := h.addTimer d hfree
      refine ⟨s₂, _, ?_, hholds, fun _ _ => hholds.tied (insertTimer_ne_nil _ l)⟩
      rw [SortTimerList.step, hs₁]
      exact hs₂
  | adjust timer expire =>
      obtain ⟨l₁, d, l₂, rfl⟩ := h.split hop
      obtain ⟨s₁, hs₁, h₁⟩ := h.setExpire expire
      obtain ⟨s₂, hs₂, h₂⟩ := h₁.adjustTimer
      refine ⟨s₂, _, ?_, h₂, fun _ _ => h₂.tied ?_⟩
      · rw [SortTimerList.step]
        change (s.setExpire timer expire).bind _ = _
        rw [hs₁]
        exact hs₂
      · apply List.append_ne_nil_of_right_ne_nil
        apply insertTimer_ne_nil
  | del timer =>
      obtain ⟨l₁, d, l₂, rfl⟩ := h.split hop
      obtain ⟨s', hs', h'⟩ := h.delTimer
      refine ⟨s', _, hs', h', fun _ _ => ⟨h', ?_⟩⟩
      intro hnil
      obtain ⟨rfl, rfl⟩ := List.append_eq_nil_iff.mp hnil
      apply h.delTimer_only hs'
  | tick cur =>
      obtain ⟨s', hs', h'⟩ := h.tick cur
      refine ⟨s', _, ?_, h', fun htied hspares => ⟨h', ?_⟩⟩
      · rw [SortTimerList.step, hs']
        rfl
      · intro hnil
        rcases (h.spares_iff cur).mp hspares with hempty | hleft
        · rw [tickFrom_tail hs']
          apply htied.tail hempty
        · apply absurd hnil hleft

/-- A `tick` that deletes all timers leaves `tail` on a deleted one. -/
theorem Holds.dangles {s s' : SortTimerList} {l : List (ℕ × TimerData)} (h : s.Holds l)
    {op : TimerOp} (hall : ¬ s.Spares op) (hs' : s.step op = some s') :
  ¬ s'.NoDangling
  := by
  cases op with
  | tick cur =>
      rw [h.spares_iff] at hall
      push Not at hall
      obtain ⟨hne, hnil⟩ := hall
      obtain ⟨s₁, hs₁, h₁⟩ := h.tick cur
      rw [SortTimerList.step, hs₁] at hs'
      obtain rfl := Option.some.inj hs'
      intro hno
      have htail := hno.ends.mp (h₁.head_none_iff.mpr hnil)
      rw [tickFrom_tail hs₁, h.tail_getLast hne, List.getLast?_eq_none_iff] at htail
      apply hne (List.map_eq_nil_iff.mp htail)
  | _ => exact absurd trivial hall

/-- Every sequence of operations that are offered is taken, and in every state of it no
pointer to a deleted timer is kept exactly when no `tick` deletes all timers. -/
theorem noDangling_iff {ops : List TimerOp}
    (hops : Run.Along SortTimerList.step Offered empty ops) :
  (∃ s, Run.exec SortTimerList.step empty ops = some s) ∧
    (Run.Throughout SortTimerList.step NoDangling empty ops ↔
      Run.Along SortTimerList.step Spares empty ops)
  := by
  have htaken : ∃ s, Run.exec SortTimerList.step empty ops = some s := by
    apply Run.exec_of_along (I := fun s => ∃ l, Holds s l) _ ⟨[], empty_holds⟩ hops
    rintro s op ⟨l, hl⟩ hop
    obtain ⟨s', l', hs', hl', -⟩ := hl.step hop
    exact ⟨s', hs', l', hl'⟩
  refine ⟨htaken, ?_⟩
  obtain ⟨s, hs⟩ := htaken
  apply Run.throughout_iff_along (I := fun s => ∃ l, Tied s l) _ _ _ ⟨[], empty_tied⟩ hs
  · rintro s op s' ⟨l, hl⟩ hspares hs'
    obtain ⟨s₁, l', hs₁, -, htied⟩ := hl.holds.step (hl.holds.offered hs')
    obtain rfl := Option.some.inj (hs₁.symm.trans hs')
    exact ⟨l', htied hl hspares⟩
  · rintro s op s' ⟨l, hl⟩ hall hs'
    apply hl.holds.dangles hall hs'
  · rintro s ⟨l, hl⟩
    apply hl.noDangling

/-- One timer is adjusted to an earlier time, and all but one expire. -/
def lastStays : List TimerOp :=
  [.add 1 ⟨15, 7⟩, .add 2 ⟨20, 8⟩, .add 3 ⟨30, 9⟩, .adjust 2 10, .tick 15, .del 3]

theorem noDangling_iff_lastStays :
  (∃ s, Run.exec SortTimerList.step empty lastStays = some s) ∧
    (Run.Throughout SortTimerList.step NoDangling empty lastStays ↔
      Run.Along SortTimerList.step Spares empty lastStays)
  := noDangling_iff (by decide +kernel)

/-- The only timer expires. -/
theorem not_noDangling :
  ¬ ∀ ops : List TimerOp, Run.Along SortTimerList.step Offered empty ops →
    Run.Throughout SortTimerList.step NoDangling empty ops
  := by
  intro h
  have hrun := h [.add 1 ⟨15, 7⟩, .tick 15] (by decide)
  obtain ⟨s, hs⟩ : ∃ s, Run.exec SortTimerList.step empty [.add 1 ⟨15, 7⟩, .tick 15] = some s :=
    ⟨_, rfl⟩
  have hend : s.NoDangling := Run.throughout_end hrun hs
  have hdangles : s.head = none ∧ s.tail = some 1 := by
    cases hs
    decide
  cases (hend.ends.mp hdangles.1).symm.trans hdangles.2

end SortTimerList

end WebServer
