import WebServer.Lib.Run
import WebServer.Timer.SortTimerList

/-!
# The timer list as a sorted collection

What the timer list is for, without pointers: a collection of timers, each with the time
it expires at and a stamp for the moment it was last added or adjusted.  A timer comes
before those that expire later, and among timers that expire at the same time before those
with a later stamp.

`Agrees c s l` says that the nodes reached in `s` are the list `l` of the timers of the
collection `c` in this order, with all links right.  Every sequence of operations that the
collection takes, the pointers take too, and at the end they agree (`exec_agrees`).
-/

open LinkedList

namespace WebServer

/-- A timer of the collection: its data and the stamp of its last addition or
adjustment. -/
structure Entry where
  data : TimerData
  stamp : ℕ
  deriving DecidableEq

/-- The order of the timers: by the time of expiry, then by the stamp. -/
def Entry.Before (x y : Entry) : Prop :=
  x.data.expire < y.data.expire ∨ x.data.expire = y.data.expire ∧ x.stamp < y.stamp

/-- A collection of timers by their addresses, and the next stamp. -/
structure Collection where
  timers : ℕ → Option Entry
  clock : ℕ

/-- An operation on the timers, as `main` makes them. -/
inductive TimerOp where
  /-- `add_timer` of a timer that was constructed at the address `timer`. -/
  | add (timer : ℕ) (d : TimerData)
  /-- `adjust_timer` of a timer after its `expire` was set. -/
  | adjust (timer : ℕ) (expire : ℤ)
  /-- `del_timer`. -/
  | del (timer : ℕ)
  /-- `tick` at the time `cur`. -/
  | tick (cur : ℤ)

namespace Collection

/-- The collection without timers. -/
def empty : Collection where
  timers := fun _ => none
  clock := 0

/-- Puts a timer into the collection, with a new stamp. -/
def put (c : Collection) (timer : ℕ) (d : TimerData) : Collection where
  timers := Function.update c.timers timer (some ⟨d, c.clock⟩)
  clock := c.clock + 1

/-- What an operation does to the collection.  A timer that is added is constructed at an
address that is not in use; a timer that is adjusted or deleted is in the collection, and
it is adjusted to a time that is not before the one it had. -/
def step (c : Collection) : TimerOp → Option Collection
  | .add timer d =>
    match c.timers timer with
    | none => some (c.put timer d)
    | some _ => none
  | .adjust timer expire =>
    match c.timers timer with
    | none => none
    | some x =>
      if x.data.expire ≤ expire then
        some (c.put timer { x.data with expire := expire })
      else
        none
  | .del timer =>
    match c.timers timer with
    | none => none
    | some _ => some { c with timers := Function.update c.timers timer none }
  | .tick cur =>
    some { c with timers := fun timer => (c.timers timer).filter (cur < ·.data.expire) }

end Collection

/-- What an operation does to the pointers. -/
def SortTimerList.step (s : SortTimerList) : TimerOp → Option SortTimerList
  | .add timer d => do
    let s ← s.newTimer timer d
    s.addTimer (some timer)
  | .adjust timer expire => do
    let s ← s.setExpire timer expire
    s.adjustTimer (some timer)
  | .del timer => s.delTimer (some timer)
  | .tick cur => (s.tick cur).map Prod.snd

/-- The nodes reached in `s` from the head are `l`, and they are the timers of the
collection in their order. -/
structure Agrees (c : Collection) (s : SortTimerList) (l : List ℕ) : Prop where
  walk : Walk s.heap s.head l
  nodup : l.Nodup
  mem_iff : ∀ a, a ∈ l ↔ (c.timers a).isSome = true
  value : ∀ a x, c.timers a = some x → ∃ p q, s.heap a = some ⟨x.data, p, q⟩
  ascending : l.Pairwise fun a b =>
    ∀ x y, c.timers a = some x → c.timers b = some y → x.Before y
  prev_iff_next : ∀ a ∈ l, ∀ b ∈ l, prev s.heap b = some a ↔ next s.heap a = some b
  prev_head : ∀ a, s.head = some a → prev s.heap a = none
  next_last : ∀ a, l.getLast? = some a → next s.heap a = none
  tail : l ≠ [] → s.tail = l.getLast?

/-! ### Sorted lists of entries -/

/-- A timer with its address, without the stamp. -/
def unstamp (x : ℕ × Entry) : ℕ × TimerData := (x.1, x.2.data)

/-- An entry is inserted before the first one that expires later. -/
def insertEntry (t : ℕ × Entry) (l : List (ℕ × Entry)) : List (ℕ × Entry) :=
  l.orderedInsert (fun x y => x.2.data.expire < y.2.data.expire) t

theorem map_insertEntry (t : ℕ × Entry) (l : List (ℕ × Entry)) :
  (insertEntry t l).map unstamp = SortTimerList.insertTimer (unstamp t) (l.map unstamp)
  := List.map_orderedInsert _ _ unstamp l t (fun _ _ => Iff.rfl) (fun _ _ => Iff.rfl)

theorem mem_insertEntry {t x : ℕ × Entry} {l : List (ℕ × Entry)} :
  x ∈ insertEntry t l ↔ x = t ∨ x ∈ l
  := List.mem_orderedInsert _

/-- The entries are in the order of the collection. -/
def Ascending (l : List (ℕ × Entry)) : Prop := l.Pairwise fun x y => x.2.Before y.2

theorem Entry.Before.expire_le {x y : Entry} (h : x.Before y) :
  x.data.expire ≤ y.data.expire
  := h.elim le_of_lt fun h => h.1.le

theorem Entry.before_of_le {x y : Entry} (h : x.data.expire ≤ y.data.expire)
    (hs : x.stamp < y.stamp) :
  x.Before y
  := (lt_or_eq_of_le h).imp_right fun h => ⟨h, hs⟩

/-- An insertion with the newest stamp keeps the order. -/
theorem Ascending.insertEntry {t : ℕ × Entry} {l : List (ℕ × Entry)} (hl : Ascending l)
    (ht : ∀ x ∈ l, x.2.stamp < t.2.stamp) :
  Ascending (insertEntry t l)
  := by
  induction l with
  | nil => exact List.pairwise_singleton _ _
  | cons x l ih =>
      obtain ⟨hx, hl⟩ := List.pairwise_cons.mp hl
      rw [List.forall_mem_cons] at ht
      rw [WebServer.insertEntry, List.orderedInsert]
      split
      next hlt =>
        refine List.pairwise_cons.mpr ⟨?_, List.pairwise_cons.mpr ⟨hx, hl⟩⟩
        intro y hy
        rcases List.mem_cons.mp hy with rfl | hy
        · apply Or.inl hlt
        · apply Or.inl (lt_of_lt_of_le hlt (hx y hy).expire_le)
      next hle =>
        refine List.pairwise_cons.mpr ⟨?_, ih hl ht.2⟩
        intro y hy
        rcases mem_insertEntry.mp hy with rfl | hy
        · apply Entry.before_of_le (not_lt.mp hle) ht.1
        · apply hx y hy

/-- In a list in order, the entries that do not fire are those behind the last that
does. -/
theorem Ascending.dropWhile_expired {l : List (ℕ × Entry)} (hl : Ascending l) (cur : ℤ) :
  (l.map unstamp).dropWhile (SortTimerList.expired cur)
    = (l.filter (cur < ·.2.data.expire)).map unstamp
  := by
  induction l with
  | nil => rfl
  | cons x l ih =>
      obtain ⟨hx, hl⟩ := List.pairwise_cons.mp hl
      rw [List.map_cons, List.dropWhile_cons]
      split
      next hexp =>
        have hle : x.2.data.expire ≤ cur := of_decide_eq_true hexp
        rw [ih hl, List.filter_cons_of_neg (by simpa using hle)]
      next hexp =>
        have hlt : cur < x.2.data.expire :=
          not_le.mp (of_decide_eq_false (Bool.eq_false_iff.mpr hexp))
        rw [List.filter_eq_self.mpr, List.map_cons]
        intro y hy
        rcases List.mem_cons.mp hy with rfl | hy
        · simpa using hlt
        · simpa using lt_of_lt_of_le hlt (hx y hy).expire_le

/-! ### The simulation -/

/-- The pointers of `s` make up the list `l` of the timers of `c`, in their order. -/
structure Models (c : Collection) (s : SortTimerList) (l : List (ℕ × Entry)) : Prop where
  holds : s.Holds (l.map unstamp)
  ascending : Ascending l
  mem_iff : ∀ a x, c.timers a = some x ↔ (a, x) ∈ l
  stamp_lt : ∀ x ∈ l, x.2.stamp < c.clock

theorem empty_models :
  Models Collection.empty SortTimerList.empty []
  where
  holds := SortTimerList.empty_holds
  ascending := List.Pairwise.nil
  mem_iff := by
    intro a x
    exact ⟨nofun, nofun⟩
  stamp_lt := nofun

section Step

variable {c : Collection} {s : SortTimerList} {l : List (ℕ × Entry)}

/-- The addresses of the timers are those of the collection. -/
theorem addresses_unstamp (l : List (ℕ × Entry)) :
  addresses (l.map unstamp) = addresses l
  := by
  rw [addresses, List.map_map]
  rfl

theorem Models.nodup (h : Models c s l) :
  (addresses l).Nodup
  := by
  rw [← addresses_unstamp]
  apply h.holds.nodup

/-- The entries at other addresses than one that is not in the collection. -/
theorem Models.mem_of_none (h : Models c s l) {a : ℕ} (ha : c.timers a = none) (b : ℕ)
    (y : Entry) :
  (b, y) ∈ l ↔ b ≠ a ∧ c.timers b = some y
  := by
  rw [← h.mem_iff]
  constructor
  · intro hb
    refine ⟨?_, hb⟩
    rintro rfl
    cases ha.symm.trans hb
  · exact And.right

/-- The entries at other addresses than that of a timer in the collection. -/
theorem Models.mem_rest {l₁ l₂ : List (ℕ × Entry)} {a : ℕ} {x : Entry}
    (h : Models c s (l₁ ++ (a, x) :: l₂)) (b : ℕ) (y : Entry) :
  (b, y) ∈ l₁ ++ l₂ ↔ b ≠ a ∧ c.timers b = some y
  := by
  have hnodup := (List.perm_middle.map Prod.fst).nodup_iff.mp h.nodup
  rw [List.map_cons, List.nodup_cons] at hnodup
  rw [h.mem_iff, List.perm_middle.mem_iff, List.mem_cons]
  constructor
  · intro hb
    refine ⟨?_, Or.inr hb⟩
    rintro rfl
    apply hnodup.1 (List.mem_map.mpr ⟨(b, y), hb, rfl⟩)
  · rintro ⟨hne, hb | hb⟩
    · cases hb
      apply absurd rfl hne
    · exact hb

/-- The entries after one was put into the collection. -/
theorem update_eq_some_iff {timers : ℕ → Option Entry} {l : List (ℕ × Entry)} {a : ℕ}
    (hl : ∀ b y, (b, y) ∈ l ↔ b ≠ a ∧ timers b = some y) (x : Entry) (b : ℕ) (y : Entry) :
  Function.update timers a (some x) b = some y ↔ (b, y) = (a, x) ∨ (b, y) ∈ l
  := by
  rw [hl]
  by_cases hb : b = a
  · simp [hb, eq_comm]
  · simp [hb]

/-- `add_timer` is the addition to the collection. -/
theorem Models.add (h : Models c s l) {a : ℕ} (ha : c.timers a = none) (d : TimerData) :
  ∃ s', s.step (.add a d) = some s' ∧ Models (c.put a d) s' (insertEntry (a, ⟨d, c.clock⟩) l)
  := by
  have hmem := h.mem_of_none ha
  have hfree : a ∉ addresses (l.map unstamp) := by
    rw [addresses_unstamp]
    intro hm
    obtain ⟨x, hx, rfl⟩ := List.mem_map.mp hm
    exact ((hmem x.1 x.2).mp hx).1 rfl
  obtain ⟨s₁, s₂, hs₁, hs₂, hholds⟩ := h.holds.addTimer d hfree
  refine ⟨s₂, ?_, ⟨?_, h.ascending.insertEntry h.stamp_lt, ?_, ?_⟩⟩
  · rw [SortTimerList.step, hs₁]
    exact hs₂
  · rw [map_insertEntry]
    exact hholds
  · intro b y
    rw [mem_insertEntry]
    apply update_eq_some_iff hmem _ b y
  · intro x hx
    rcases mem_insertEntry.mp hx with rfl | hx
    · apply Nat.lt_succ_self _
    · apply Nat.lt_succ_of_lt (h.stamp_lt x hx)

/-- `adjust_timer` is the adjustment in the collection. -/
theorem Models.adjust (h : Models c s l) {a : ℕ} {x : Entry} (ha : c.timers a = some x)
    {expire : ℤ} (hle : x.data.expire ≤ expire) :
  ∃ s' l', s.step (.adjust a expire) = some s' ∧
    Models (c.put a { x.data with expire := expire }) s' l'
  := by
  obtain ⟨l₁, l₂, rfl⟩ := List.append_of_mem ((h.mem_iff a x).mp ha)
  have hholds := h.holds
  rw [List.map_append, List.map_cons] at hholds
  obtain ⟨s₁, hs₁, h₁⟩ := hholds.setExpire expire
  obtain ⟨s₂, hs₂, h₂⟩ := h₁.adjustTimer
  let t : ℕ × Entry := (a, ⟨{ x.data with expire := expire }, c.clock⟩)
  obtain ⟨hl₁, hl₂, hcross⟩ := List.pairwise_append.mp h.ascending
  obtain ⟨hx, hl₂⟩ := List.pairwise_cons.mp hl₂
  have hstamp : ∀ y ∈ l₁ ++ l₂, y.2.stamp < c.clock := by
    intro y hy
    apply h.stamp_lt y
    rw [List.perm_middle.mem_iff]
    apply List.mem_cons_of_mem _ hy
  refine ⟨s₂, l₁ ++ insertEntry t l₂, ?_, ⟨?_, ?_, ?_, ?_⟩⟩
  · rw [SortTimerList.step]
    change (s.setExpire (unstamp (a, x)).1 expire).bind _ = _
    rw [hs₁]
    exact hs₂
  · rw [List.map_append, map_insertEntry]
    exact h₂
  · refine List.pairwise_append.mpr ⟨hl₁, Ascending.insertEntry hl₂ ?_, ?_⟩
    · intro y hy
      apply hstamp y (List.mem_append_right _ hy)
    · intro y hy z hz
      rcases mem_insertEntry.mp hz with rfl | hz
      · apply Entry.before_of_le
        · exact (hcross y hy _ List.mem_cons_self).expire_le.trans hle
        · apply hstamp y (List.mem_append_left _ hy)
      · apply hcross y hy z (List.mem_cons_of_mem _ hz)
  · intro b y
    rw [List.mem_append, mem_insertEntry, or_left_comm, ← List.mem_append]
    apply update_eq_some_iff h.mem_rest _ b y
  · intro y hy
    rw [List.mem_append, mem_insertEntry, or_left_comm, ← List.mem_append] at hy
    rcases hy with rfl | hy
    · apply Nat.lt_succ_self _
    · apply Nat.lt_succ_of_lt (hstamp y hy)

/-- `del_timer` is the removal from the collection. -/
theorem Models.del (h : Models c s l) {a : ℕ} {x : Entry} (ha : c.timers a = some x) :
  ∃ s' l', s.step (.del a) = some s' ∧
    Models { c with timers := Function.update c.timers a none } s' l'
  := by
  obtain ⟨l₁, l₂, rfl⟩ := List.append_of_mem ((h.mem_iff a x).mp ha)
  have hholds := h.holds
  rw [List.map_append, List.map_cons] at hholds
  obtain ⟨s', hs', h'⟩ := hholds.delTimer
  refine ⟨s', l₁ ++ l₂, hs', ⟨?_, ?_, ?_, ?_⟩⟩
  · rw [List.map_append]
    exact h'
  · apply h.ascending.sublist ((List.sublist_cons_self _ _).append_left _)
  · intro b y
    rw [h.mem_rest]
    by_cases hb : b = a
    · simp [hb]
    · simp [hb]
  · intro y hy
    apply h.stamp_lt y
    rw [List.perm_middle.mem_iff]
    apply List.mem_cons_of_mem _ hy

/-- `tick` removes the timers of the collection that expired. -/
theorem Models.tick (h : Models c s l) (cur : ℤ) :
  ∃ s' l', s.step (.tick cur) = some s' ∧
    Models { c with timers := fun a => (c.timers a).filter (cur < ·.data.expire) } s' l'
  := by
  obtain ⟨s', hs', h'⟩ := h.holds.tick cur
  rw [h.ascending.dropWhile_expired] at h'
  refine ⟨s', l.filter (cur < ·.2.data.expire), ?_, ⟨h', h.ascending.filter _, ?_, ?_⟩⟩
  · rw [SortTimerList.step, hs']
    rfl
  · intro a x
    rw [Option.filter_eq_some_iff, h.mem_iff, List.mem_filter]
  · intro x hx
    apply h.stamp_lt x (List.mem_of_mem_filter hx)

/-- An operation that the collection takes, the pointers take too. -/
theorem Models.step (h : Models c s l) {op : TimerOp} {c' : Collection}
    (hc : c.step op = some c') :
  ∃ s' l', s.step op = some s' ∧ Models c' s' l'
  := by
  cases op with
  | add a d =>
      rw [Collection.step] at hc
      split at hc
      next ha =>
        obtain rfl := Option.some.inj hc
        obtain ⟨s', hs', h'⟩ := h.add ha d
        exact ⟨s', _, hs', h'⟩
      next => cases hc
  | adjust a expire =>
      rw [Collection.step] at hc
      split at hc
      next => cases hc
      next x ha =>
        split at hc
        next hle =>
          obtain rfl := Option.some.inj hc
          apply h.adjust ha hle
        next => cases hc
  | del a =>
      rw [Collection.step] at hc
      split at hc
      next => cases hc
      next x ha =>
        obtain rfl := Option.some.inj hc
        apply h.del ha
  | tick cur =>
      obtain rfl := Option.some.inj hc
      apply h.tick cur

/-- Pointers that make up the list of the timers agree with the collection. -/
theorem Models.agrees (h : Models c s l) :
  Agrees c s (addresses l)
  where
  walk := by
    rw [h.holds.head, ← addresses_unstamp]
    apply h.holds.seg.walk
  nodup := h.nodup
  mem_iff := by
    intro a
    rw [Option.isSome_iff_exists, addresses, List.mem_map]
    constructor
    · rintro ⟨x, hx, rfl⟩
      exact ⟨x.2, (h.mem_iff x.1 x.2).mpr hx⟩
    · rintro ⟨x, hx⟩
      exact ⟨(a, x), (h.mem_iff a x).mp hx, rfl⟩
  value := by
    intro a x ha
    obtain ⟨l₁, l₂, rfl⟩ := List.append_of_mem ((h.mem_iff a x).mp ha)
    have hseg := h.holds.seg
    rw [List.map_append, List.map_cons] at hseg
    exact ⟨_, _, hseg.cell⟩
  ascending := by
    rw [addresses, List.pairwise_map]
    apply h.ascending.imp_of_mem
    intro x y hx hy hxy e f he hf
    obtain rfl := Option.some.inj (((h.mem_iff x.1 x.2).mpr hx).symm.trans he)
    obtain rfl := Option.some.inj (((h.mem_iff y.1 y.2).mpr hy).symm.trans hf)
    exact hxy
  prev_iff_next := by
    rw [← addresses_unstamp]
    intro a ha b hb
    exact ⟨h.holds.seg.next_of_prev hb, h.holds.seg.prev_of_next ha⟩
  prev_head := by
    intro a ha
    rw [h.holds.head] at ha
    apply h.holds.seg.prev_first ha
  next_last := by
    intro a ha
    rw [← addresses_unstamp, getLast?_addresses] at ha
    apply h.holds.seg.next_last ha
  tail := by
    intro hne
    rw [← addresses_unstamp, getLast?_addresses]
    apply h.holds.tail
    intro hl
    rw [← addresses_unstamp, hl] at hne
    apply hne rfl

end Step

/-- Every sequence of operations that the collection takes, the pointers take, and then
the nodes reached from the head are the timers of the collection in their order. -/
theorem exec_agrees {ops : List TimerOp} {c : Collection}
    (h : Run.exec Collection.step Collection.empty ops = some c) :
  ∃ s l, Run.exec SortTimerList.step SortTimerList.empty ops = some s ∧ Agrees c s l
  := by
  have sim : ∀ c s op c', (∃ l, Models c s l) → Collection.step c op = some c' →
      ∃ s', SortTimerList.step s op = some s' ∧ ∃ l, Models c' s' l := by
    rintro c s op c' ⟨l, hl⟩ hc
    obtain ⟨s', l', hs', hl'⟩ := hl.step hc
    exact ⟨s', hs', l', hl'⟩
  obtain ⟨s, hs, l, hl⟩ := Run.exec_simulation sim ⟨[], empty_models⟩ h
  exact ⟨s, addresses l, hs, hl.agrees⟩

/-- A run with ties, adjustments, a removal and a firing. -/
theorem exec_agrees_ties :
  ∃ c s l,
    Run.exec SortTimerList.step SortTimerList.empty
        [.add 1 ⟨15, 7⟩, .add 2 ⟨15, 8⟩, .add 3 ⟨5, 9⟩, .adjust 3 15, .adjust 1 20, .del 2,
          .tick 15]
      = some s ∧ Agrees c s l
  := by
  obtain ⟨c, hc⟩ := Option.isSome_iff_exists.mp
    (show (Run.exec Collection.step Collection.empty
      [.add 1 ⟨15, 7⟩, .add 2 ⟨15, 8⟩, .add 3 ⟨5, 9⟩, .adjust 3 15, .adjust 1 20, .del 2,
        .tick 15]).isSome = true by decide)
  exact ⟨c, exec_agrees hc⟩

end WebServer
