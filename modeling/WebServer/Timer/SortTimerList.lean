import WebServer.Lib.LinkedList

/-!
# The timer list

`sort_timer_lst` on a heap of timers: a doubly linked list in ascending order of the
`expire` of its timers.  The use of a null pointer or of a timer that was deleted has no
result.  Every loop runs along the list, so it makes at most as many rounds as there are
timers, which the list counts.

`Holds s l` says that the pointers of `s` make up the list `l`; every operation on the
pointers is an operation on `l` (`Holds.addTimer`, `Holds.adjustTimer`, `Holds.delTimer`,
`Holds.tick`).
-/

open LinkedList

namespace WebServer

/-- The fields of `util_timer` other than its links.  The callback is always `cb_func`;
`userData` is the number of the `client_data` it is called with. -/
structure TimerData where
  expire : ℤ
  userData : ℕ
  deriving DecidableEq

/-- `util_timer`. -/
abbrev UtilTimer : Type := Cell ℕ TimerData

/-- `sort_timer_lst`, with the heap of the timers and the number of those that were
constructed and not deleted. -/
structure SortTimerList where
  heap : Heap ℕ TimerData
  count : ℕ
  head : Option ℕ
  tail : Option ℕ

namespace SortTimerList

/-- `sort_timer_lst::sort_timer_lst`. -/
def empty : SortTimerList where
  heap := fun _ => none
  count := 0
  head := none
  tail := none

/-- `new util_timer`, at an address that is not in use. -/
def newTimer (s : SortTimerList) (timer : ℕ) (d : TimerData) : Option SortTimerList :=
  if (s.heap timer).isNone then
    some { s with
      heap := Function.update s.heap timer (some ⟨d, none, none⟩)
      count := s.count + 1 }
  else
    none

/-- `delete timer`. -/
def deleteTimer (s : SortTimerList) (timer : ℕ) : Option SortTimerList := do
  let heap ← free s.heap timer
  some { s with heap := heap, count := s.count - 1 }

/-- The loop of `add_timer(timer, lst_head)`, from the nodes `prev` and `tmp` on. -/
def insertFrom (s : SortTimerList) (timer : ℕ) : ℕ → (prev : ℕ) → (tmp : Option ℕ) →
    Option SortTimerList
  | _, prev, none => do
    let heap ← setNext s.heap prev (some timer)
    let heap ← setPrev heap timer (some prev)
    let heap ← setNext heap timer none
    some { s with heap := heap, tail := some timer }
  | 0, _, some _ => none
  | fuel + 1, prev, some tmp => do
    let t ← s.heap timer
    let n ← s.heap tmp
    if t.value.expire < n.value.expire then
      let heap ← setNext s.heap prev (some timer)
      let heap ← setNext heap timer (some tmp)
      let heap ← setPrev heap tmp (some timer)
      let heap ← setPrev heap timer (some prev)
      some { s with heap := heap }
    else
      s.insertFrom timer fuel tmp n.next

/-- `sort_timer_lst::add_timer(timer, lst_head)`. -/
def addTimerAfter (s : SortTimerList) (timer lstHead : ℕ) : Option SortTimerList := do
  let c ← s.heap lstHead
  s.insertFrom timer s.count lstHead c.next

/-- `sort_timer_lst::add_timer(timer)`. -/
def addTimer (s : SortTimerList) : (timer : Option ℕ) → Option SortTimerList
  | none => some s
  | some timer =>
    match s.head with
    | none => some { s with head := some timer, tail := some timer }
    | some head => do
      let t ← s.heap timer
      let h ← s.heap head
      if t.value.expire < h.value.expire then
        let heap ← setNext s.heap timer (some head)
        let heap ← setPrev heap head (some timer)
        some { s with heap := heap, head := some timer }
      else
        s.addTimerAfter timer head

/-- `sort_timer_lst::adjust_timer`. -/
def adjustTimer (s : SortTimerList) : (timer : Option ℕ) → Option SortTimerList
  | none => some s
  | some timer => do
    let t ← s.heap timer
    match t.next with
    | none => some s
    | some tmp =>
      let n ← s.heap tmp
      if t.value.expire < n.value.expire then
        some s
      else if s.head = some timer then
        let heap ← setPrev s.heap tmp none
        let heap ← setNext heap timer none
        { s with heap := heap, head := some tmp }.addTimerAfter timer tmp
      else
        let prev ← t.prev
        let heap ← setNext s.heap prev (some tmp)
        let heap ← setPrev heap tmp (some prev)
        { s with heap := heap }.addTimerAfter timer tmp

/-- `sort_timer_lst::del_timer`. -/
def delTimer (s : SortTimerList) : (timer : Option ℕ) → Option SortTimerList
  | none => some s
  | some timer =>
    if s.head = some timer ∧ s.tail = some timer then do
      let s ← s.deleteTimer timer
      some { s with head := none, tail := none }
    else if s.head = some timer then do
      let t ← s.heap timer
      let head ← t.next
      let heap ← setPrev s.heap head none
      { s with heap := heap, head := some head }.deleteTimer timer
    else if s.tail = some timer then do
      let t ← s.heap timer
      let tail ← t.prev
      let heap ← setNext s.heap tail none
      { s with heap := heap, tail := some tail }.deleteTimer timer
    else do
      let t ← s.heap timer
      let prev ← t.prev
      let next ← t.next
      let heap ← setNext s.heap prev (some next)
      let heap ← setPrev heap next (some prev)
      { s with heap := heap }.deleteTimer timer

/-- The end of a round of the loop of `tick`: the head is taken out and deleted. -/
def popHead (s : SortTimerList) (tmp : ℕ) (next : Option ℕ) : Option SortTimerList :=
  match next with
  | none => { s with head := none }.deleteTimer tmp
  | some head => do
    let heap ← setPrev s.heap head none
    { s with heap := heap, head := some head }.deleteTimer tmp

/-- The loop of `tick` at the time `cur`.  It returns the timers whose `cb_func` was called,
each with the user data of the call, and the list. -/
def tickFrom (cur : ℤ) : ℕ → SortTimerList → Option (List (ℕ × ℕ) × SortTimerList)
  | fuel, s =>
    match s.head with
    | none => some ([], s)
    | some tmp => do
      let t ← s.heap tmp
      if cur < t.value.expire then
        some ([], s)
      else
        match fuel with
        | 0 => none
        | fuel + 1 =>
          let s ← s.popHead tmp t.next
          let (fired, s) ← tickFrom cur fuel s
          some ((tmp, t.value.userData) :: fired, s)

/-- `sort_timer_lst::tick` at the time `cur`. -/
def tick (s : SortTimerList) (cur : ℤ) : Option (List (ℕ × ℕ) × SortTimerList) :=
  tickFrom cur s.count s

/-- Sets `timer->expire`. -/
def setExpire (s : SortTimerList) (timer : ℕ) (expire : ℤ) : Option SortTimerList := do
  let t ← s.heap timer
  let heap ← setValue s.heap timer { t.value with expire := expire }
  some { s with heap := heap }

/-! ### The list that the pointers make up -/

/-- The pointers of `s` make up the list `l` of the timers with their addresses. -/
structure Holds (s : SortTimerList) (l : List (ℕ × TimerData)) : Prop where
  seg : Seg s.heap none l none
  nodup : (addresses l).Nodup
  head : s.head = first l none
  tail : l ≠ [] → s.tail = last none l
  count : s.count = l.length
  cells : ∀ a, (s.heap a).isSome = true ↔ a ∈ addresses l

/-- A timer is inserted before the first one that expires later. -/
def insertTimer (t : ℕ × TimerData) (l : List (ℕ × TimerData)) : List (ℕ × TimerData) :=
  l.orderedInsert (fun x y => x.2.expire < y.2.expire) t

theorem insertTimer_cons (t x : ℕ × TimerData) (l : List (ℕ × TimerData)) :
  insertTimer t (x :: l)
    = if t.2.expire < x.2.expire then t :: x :: l else x :: insertTimer t l
  := rfl

theorem insertTimer_perm (t : ℕ × TimerData) (l : List (ℕ × TimerData)) :
  (insertTimer t l).Perm (t :: l)
  := List.perm_orderedInsert ..

theorem empty_holds :
  Holds empty []
  where
  seg := trivial
  nodup := List.nodup_nil
  head := rfl
  tail := fun h => absurd rfl h
  count := rfl
  cells := by
    intro a
    simp [empty]

/-- What `insertFrom` makes of a segment of `s` into which it inserts `t`. -/
structure Inserted (s s' : SortTimerList) (l : List (ℕ × TimerData)) : Prop where
  seg : Seg s'.heap none l none
  tail : s'.tail = last none l
  head : s'.head = s.head
  count : s'.count = s.count
  cells : ∀ a, (s'.heap a).isSome = (s.heap a).isSome

/-- The loop of `add_timer(timer, lst_head)` inserts the timer behind the node `y` it
starts from, before the first node that expires later. -/
theorem insertFrom_spec {s : SortTimerList} {a b : List (ℕ × TimerData)}
    {y t : ℕ × TimerData} {p q : Option ℕ} {fuel : ℕ}
    (hseg : Seg s.heap none (a ++ y :: b) none) (ht : s.heap t.1 = some ⟨t.2, p, q⟩)
    (hnodup : (addresses (a ++ y :: b)).Nodup) (hmem : t.1 ∉ addresses (a ++ y :: b))
    (hfuel : b.length ≤ fuel) (htail : s.tail = last none (a ++ y :: b)) :
  ∃ s', s.insertFrom t.1 fuel y.1 (first b none) = some s' ∧
    Inserted s s' (a ++ y :: insertTimer t b)
  := by
  induction b generalizing a y fuel with
  | nil =>
      obtain ⟨h₁, h₂, h₃, e₁, e₂, e₃, hseg'⟩ := hseg.insert_last ht hnodup hmem
      refine ⟨{ s with heap := h₃, tail := some t.1 }, ?_, ⟨hseg', ?_, rfl, rfl, ?_⟩⟩
      · unfold insertFrom
        simp [e₁, e₂, e₃]
      · rw [last_append]
        rfl
      · intro x
        rw [isSome_setNext e₃, isSome_setPrev e₂, isSome_setNext e₁]
  | cons z b ih =>
      cases fuel with
      | zero => cases hfuel
      | succ fuel =>
          have hz : s.heap z.1 = some ⟨z.2, some y.1, first b none⟩ := by
            have hcell := Seg.cell (a := a ++ [y]) (x := z) (by simpa using hseg)
            rwa [last_concat] at hcell
          rw [first_cons, insertFrom, insertTimer_cons, ht, hz]
          dsimp only [Option.bind_eq_bind, Option.bind_some]
          split
          · obtain ⟨h₁, h₂, h₃, h₄, e₁, e₂, e₃, e₄, hseg'⟩ := hseg.insert ht hnodup hmem
            refine ⟨{ s with heap := h₄ }, ?_, ⟨hseg', ?_, rfl, rfl, ?_⟩⟩
            · simp [e₁, e₂, e₃, e₄]
            · rw [htail, last_append, last_append]
              rfl
            · intro x
              rw [isSome_setPrev e₄, isSome_setPrev e₃, isSome_setNext e₂, isSome_setNext e₁]
          · rw [List.append_cons] at hseg hnodup hmem htail ⊢
            apply ih hseg hnodup hmem (Nat.le_of_succ_le_succ hfuel) htail

/-- The list after an insertion has the timers of before and the one inserted. -/
theorem addresses_insertTimer (t : ℕ × TimerData) (a b : List (ℕ × TimerData)) :
  (addresses (a ++ insertTimer t b)).Perm (t.1 :: addresses (a ++ b))
  := by
  have hperm : (a ++ insertTimer t b).Perm (t :: (a ++ b)) :=
    ((insertTimer_perm t b).append_left a).trans List.perm_middle
  apply hperm.map Prod.fst

/-- The pointers of `s` make up the list `l`, and the timer `t` is in the heap but not in
the list. -/
structure Loose (s : SortTimerList) (t : ℕ × TimerData) (l : List (ℕ × TimerData)) : Prop where
  seg : Seg s.heap none l none
  cell : ∃ p q, s.heap t.1 = some ⟨t.2, p, q⟩
  nodup : (t.1 :: addresses l).Nodup
  head : s.head = first l none
  tail : l ≠ [] → s.tail = last none l
  count : s.count = l.length + 1
  cells : ∀ a, (s.heap a).isSome = true ↔ a ∈ t.1 :: addresses l

/-- A timer that is constructed is in no list yet. -/
theorem Holds.newTimer {s : SortTimerList} {l : List (ℕ × TimerData)} (h : Holds s l) {t : ℕ}
    (d : TimerData) (ht : t ∉ addresses l) :
  ∃ s', s.newTimer t d = some s' ∧ Loose s' (t, d) l
  := by
  have hfree : s.heap t = none := by
    rw [← h.cells] at ht
    simpa using ht
  have honly : Only t s.heap (Function.update s.heap t (some ⟨d, none, none⟩)) := by
    intro x hx
    apply Function.update_of_ne hx
  refine ⟨{ s with
    heap := Function.update s.heap t (some ⟨d, none, none⟩)
    count := s.count + 1 }, ?_, ?_⟩
  · rw [SortTimerList.newTimer, hfree]
    rfl
  · refine ⟨h.seg.only honly ht, ⟨none, none, Function.update_self ..⟩,
      List.nodup_cons.mpr ⟨ht, h.nodup⟩, h.head, h.tail, congrArg (· + 1) h.count, ?_⟩
    intro x
    by_cases hx : x = t
    · simp [hx]
    · dsimp only
      rw [honly x hx, h.cells, List.mem_cons, or_iff_right hx]

/-- A timer is constructed at an address that is not in the list. -/
theorem Holds.not_mem_of_newTimer {s s' : SortTimerList} {l : List (ℕ × TimerData)}
    (h : Holds s l) {t : ℕ} {d : TimerData} (hs' : s.newTimer t d = some s') :
  t ∉ addresses l
  := by
  rw [SortTimerList.newTimer] at hs'
  split at hs'
  next hfree =>
    rw [← h.cells]
    simpa using hfree
  next => cases hs'

/-- A timer in no list is inserted behind the node `y`. -/
theorem Loose.addTimerAfter {s : SortTimerList} {a b : List (ℕ × TimerData)}
    {y t : ℕ × TimerData} (h : Loose s t (a ++ y :: b)) :
  ∃ s', s.addTimerAfter t.1 y.1 = some s' ∧ Holds s' (a ++ y :: insertTimer t b)
  := by
  have hperm : (addresses (a ++ y :: insertTimer t b)).Perm (t.1 :: addresses (a ++ y :: b)) := by
    rw [List.append_cons a y (insertTimer t b), List.append_cons a y b]
    apply addresses_insertTimer
  obtain ⟨p, q, hcell⟩ := h.cell
  obtain ⟨hmem, hnodup⟩ := List.nodup_cons.mp h.nodup
  have hcount := h.count
  rw [List.length_append, List.length_cons] at hcount
  obtain ⟨s', hs', hins⟩ := insertFrom_spec h.seg hcell hnodup hmem
    (show b.length ≤ s.count by omega) (h.tail (by simp))
  refine ⟨s', ?_, ⟨hins.seg, hperm.nodup_iff.mpr h.nodup, ?_, fun _ => hins.tail, ?_, ?_⟩⟩
  · rw [SortTimerList.addTimerAfter, h.seg.cell]
    exact hs'
  · rw [hins.head, h.head, first_append, first_append]
    rfl
  · rw [hins.count, h.count]
    simpa [addresses] using hperm.length_eq.symm
  · intro x
    rw [hins.cells, h.cells, hperm.mem_iff]

/-- A timer in no list is put at the front of a list. -/
theorem Loose.setHead {s : SortTimerList} {t y : ℕ × TimerData} {b : List (ℕ × TimerData)}
    (h : Loose s t (y :: b)) (hp : ∃ q, s.heap t.1 = some ⟨t.2, none, q⟩) :
  ∃ h₁ h₂, setNext s.heap t.1 (some y.1) = some h₁ ∧ setPrev h₁ y.1 (some t.1) = some h₂ ∧
    Holds { s with heap := h₂, head := some t.1 } (t :: y :: b)
  := by
  obtain ⟨q, hcell⟩ := hp
  obtain ⟨hmem, hnodup⟩ := List.nodup_cons.mp h.nodup
  obtain ⟨h₁, e₁, ht, o₁⟩ := Seg.setNext_last (l := []) ((seg_singleton ..).mpr hcell)
    List.not_mem_nil (some y.1)
  have hyb := h.seg.only o₁ hmem
  obtain ⟨h₂, e₂, hyb, o₂⟩ := hyb.setPrev_head (List.nodup_cons.mp hnodup).1 (some t.1)
  rw [addresses_cons, List.mem_cons, not_or] at hmem
  have ht := ht.only o₂ (by simpa using Ne.symm hmem.1)
  refine ⟨h₁, h₂, e₁, e₂, ⟨⟨ht.1, hyb⟩, h.nodup, rfl, fun _ => ?_, h.count, ?_⟩⟩
  · apply h.tail (List.cons_ne_nil _ _)
  · intro x
    change (h₂ x).isSome = true ↔ _
    rw [isSome_setPrev e₂, isSome_setNext e₁, h.cells]
    rfl

/-- A timer that was just constructed is inserted by `add_timer`. -/
theorem Loose.addTimer {s : SortTimerList} {t : ℕ × TimerData} {l : List (ℕ × TimerData)}
    (h : Loose s t l) (hcell : s.heap t.1 = some ⟨t.2, none, none⟩) :
  ∃ s', s.addTimer (some t.1) = some s' ∧ Holds s' (insertTimer t l)
  := by
  have hhead := h.head
  cases l with
  | nil =>
      refine ⟨{ s with head := some t.1, tail := some t.1 }, ?_, ?_⟩
      · rw [SortTimerList.addTimer, hhead]
        rfl
      · exact ⟨⟨hcell, trivial⟩, h.nodup, rfl, fun _ => rfl, h.count, h.cells⟩
  | cons y b =>
      rw [SortTimerList.addTimer, hhead, first_cons]
      dsimp only
      rw [hcell, h.seg.1, insertTimer_cons]
      dsimp only [Option.bind_eq_bind, Option.bind_some]
      split
      · obtain ⟨h₁, h₂, e₁, e₂, hs'⟩ := h.setHead ⟨none, hcell⟩
        refine ⟨_, ?_, hs'⟩
        simp [e₁, e₂]
      · apply Loose.addTimerAfter (a := []) h

/-- A timer that is constructed and added is inserted. -/
theorem Holds.addTimer {s : SortTimerList} {l : List (ℕ × TimerData)} (h : Holds s l) {t : ℕ}
    (d : TimerData) (ht : t ∉ addresses l) :
  ∃ s₁ s₂, s.newTimer t d = some s₁ ∧ s₁.addTimer (some t) = some s₂ ∧
    Holds s₂ (insertTimer (t, d) l)
  := by
  obtain ⟨s₁, hs₁, h₁⟩ := h.newTimer d ht
  have hcell : s₁.heap t = some ⟨d, none, none⟩ := by
    rw [SortTimerList.newTimer] at hs₁
    split at hs₁
    · obtain rfl := Option.some.inj hs₁
      apply Function.update_self ..
    · cases hs₁
  obtain ⟨s₂, hs₂, h₂⟩ := h₁.addTimer hcell
  exact ⟨s₁, s₂, hs₁, hs₂, h₂⟩

/-- A timer in no list is deleted. -/
theorem Loose.deleteTimer {s : SortTimerList} {t : ℕ × TimerData} {l : List (ℕ × TimerData)}
    (h : Loose s t l) :
  ∃ s', s.deleteTimer t.1 = some s' ∧ Holds s' l
  := by
  obtain ⟨p, q, hcell⟩ := h.cell
  obtain ⟨hmem, hnodup⟩ := List.nodup_cons.mp h.nodup
  obtain ⟨h', e', hseg, hnone, ho⟩ := h.seg.free hcell hmem
  refine ⟨{ s with heap := h', count := s.count - 1 }, ?_, ⟨hseg, hnodup, h.head, h.tail, ?_, ?_⟩⟩
  · rw [SortTimerList.deleteTimer, e']
    rfl
  · rw [h.count]
    rfl
  · intro x
    change (h' x).isSome = true ↔ _
    by_cases hx : x = t.1
    · rw [hx, hnone]
      exact ⟨nofun, fun hx => absurd hx hmem⟩
    · rw [ho x hx, h.cells, List.mem_cons, or_iff_right hx]

/-! ### Taking a timer out of the list -/

/-- The cells of a list of which one timer is taken out. -/
theorem addresses_middle (a b : List (ℕ × TimerData)) (t : ℕ × TimerData) :
  (addresses (a ++ t :: b)).Perm (t.1 :: addresses (a ++ b))
  := List.perm_middle.map Prod.fst

/-- The only timer is taken out. -/
theorem Holds.unlinkOnly {s : SortTimerList} {t : ℕ × TimerData} (h : Holds s [t])
    (tail : Option ℕ) :
  Loose { s with head := none, tail := tail } t []
  := ⟨trivial, ⟨_, _, h.seg.1⟩, h.nodup, rfl, fun hl => absurd rfl hl, h.count, h.cells⟩

/-- The first of several timers is taken out. -/
theorem Holds.unlinkHead {s : SortTimerList} {t z : ℕ × TimerData} {b : List (ℕ × TimerData)}
    (h : Holds s (t :: z :: b)) :
  ∃ h₁, setPrev s.heap z.1 none = some h₁ ∧
    Loose { s with heap := h₁, head := some z.1 } t (z :: b)
  := by
  obtain ⟨hmem, hnodup⟩ := List.nodup_cons.mp h.nodup
  obtain ⟨h₁, e₁, hzb, o₁⟩ := h.seg.2.setPrev_head (List.nodup_cons.mp hnodup).1 none
  have hne : t.1 ≠ z.1 := fun hz => hmem (hz ▸ List.mem_cons_self)
  refine ⟨h₁, e₁, ⟨hzb, ⟨_, _, (o₁ _ hne).trans h.seg.1⟩, h.nodup, rfl, fun _ => ?_, h.count,
    ?_⟩⟩
  · apply h.tail (List.cons_ne_nil _ _)
  · intro x
    change (h₁ x).isSome = true ↔ _
    rw [isSome_setPrev e₁, h.cells]
    rfl

/-- The last of several timers is taken out. -/
theorem Holds.unlinkTail {s : SortTimerList} {y t : ℕ × TimerData} {a : List (ℕ × TimerData)}
    (h : Holds s (a ++ [y] ++ [t])) :
  ∃ h₁, setNext s.heap y.1 none = some h₁ ∧
    Loose { s with heap := h₁, tail := some y.1 } t (a ++ [y])
  := by
  have hperm := addresses_middle (a ++ [y]) [] t
  rw [List.append_nil] at hperm
  have hnodup := hperm.nodup_iff.mp h.nodup
  have hcell := h.seg.cell
  obtain ⟨hmem, hay⟩ := List.nodup_cons.mp hnodup
  have hy : y.1 ∉ addresses a := by
    rw [addresses_append, List.nodup_append] at hay
    intro hy
    apply hay.2.2 _ hy _ List.mem_cons_self rfl
  obtain ⟨h₁, e₁, hseg, o₁⟩ := ((seg_append ..).mp h.seg).1.setNext_last hy none
  rw [addresses_append, List.mem_append, not_or] at hmem
  refine ⟨h₁, e₁, ⟨hseg, ⟨_, _, (o₁ _ ?_).trans hcell⟩, hnodup, ?_, fun _ => ?_, ?_, ?_⟩⟩
  · simpa using hmem.2
  · rw [h.head, first_append (a ++ [y])]
    simp [first_append]
  · rw [last_concat]
  · rw [h.count, List.length_append]
    rfl
  · intro x
    change (h₁ x).isSome = true ↔ _
    rw [isSome_setNext e₁, h.cells, hperm.mem_iff]

/-- A timer between two others is taken out. -/
theorem Holds.unlinkInner {s : SortTimerList} {y t z : ℕ × TimerData}
    {a b : List (ℕ × TimerData)} (h : Holds s (a ++ [y] ++ t :: z :: b)) :
  ∃ h₁ h₂, setNext s.heap y.1 (some z.1) = some h₁ ∧ setPrev h₁ z.1 (some y.1) = some h₂ ∧
    Loose { s with heap := h₂ } t (a ++ [y] ++ z :: b)
  := by
  have hperm := addresses_middle (a ++ [y]) (z :: b) t
  have hseg := h.seg
  have hnodup := h.nodup
  rw [← List.append_cons] at hseg hnodup
  obtain ⟨h₁, h₂, e₁, e₂, hseg, ht⟩ := hseg.unlink hnodup
  rw [List.append_cons] at hseg
  refine ⟨h₁, h₂, e₁, e₂, ⟨hseg, ⟨_, _, ht⟩, hperm.nodup_iff.mp h.nodup, ?_, fun _ => ?_, ?_, ?_⟩⟩
  · rw [h.head, first_append (a ++ [y]), first_append (a ++ [y])]
    simp [first_append]
  · rw [h.tail (by simp), last_append none (a ++ [y]), last_append none (a ++ [y])]
    rfl
  · rw [h.count]
    simpa [addresses] using hperm.length_eq
  · intro x
    change (h₂ x).isSome = true ↔ _
    rw [isSome_setPrev e₂, isSome_setNext e₁, h.cells, hperm.mem_iff]

/-- The links of a timer in no list are free to be written. -/
theorem Loose.setNext {s : SortTimerList} {t : ℕ × TimerData} {l : List (ℕ × TimerData)}
    (h : Loose s t l) :
  ∃ h', LinkedList.setNext s.heap t.1 none = some h' ∧ Loose { s with heap := h' } t l
  := by
  obtain ⟨p, q, hcell⟩ := h.cell
  obtain ⟨h', e', ht, o'⟩ := Seg.setNext_last (l := []) ((seg_singleton ..).mpr hcell)
    List.not_mem_nil none
  refine ⟨h', e', ⟨h.seg.only o' (List.nodup_cons.mp h.nodup).1, ⟨_, _, ht.1⟩, h.nodup, h.head,
    h.tail, h.count, ?_⟩⟩
  intro x
  change (h' x).isSome = true ↔ _
  rw [isSome_setNext e', h.cells]

/-! ### The operations on the list -/

/-- The timer list after `timer->expire` was set. -/
theorem Holds.setExpire {s : SortTimerList} {a b : List (ℕ × TimerData)} {t : ℕ × TimerData}
    (h : Holds s (a ++ t :: b)) (e : ℤ) :
  ∃ s', s.setExpire t.1 e = some s' ∧ Holds s' (a ++ (t.1, { t.2 with expire := e }) :: b)
  := by
  have haddr : addresses (a ++ (t.1, { t.2 with expire := e }) :: b) = addresses (a ++ t :: b) := by
    simp
  obtain ⟨h', e', hseg⟩ := h.seg.setValue h.nodup { t.2 with expire := e }
  refine ⟨{ s with heap := h' }, ?_, ⟨hseg, ?_, ?_, ?_, ?_, ?_⟩⟩
  · rw [SortTimerList.setExpire, h.seg.cell]
    simp [e']
  · rw [haddr]
    apply h.nodup
  · rw [h.head, first_append, first_append]
    rfl
  · intro _
    rw [h.tail (by simp), last_append, last_append]
    rfl
  · rw [h.count]
    simp
  · intro x
    rw [haddr, ← h.cells, isSome_setValue e']

/-- The head of the list is at its front. -/
theorem Holds.head_eq_iff {s : SortTimerList} {a b : List (ℕ × TimerData)} {t : ℕ × TimerData}
    (h : Holds s (a ++ t :: b)) :
  s.head = some t.1 ↔ a = []
  := by
  rw [h.head]
  cases a with
  | nil => simp
  | cons x a =>
      have hne : x.1 ≠ t.1 := by
        intro hx
        have := h.nodup
        simp [hx] at this
      simp [hne]

/-- The tail of the list is at its end. -/
theorem Holds.tail_eq_iff {s : SortTimerList} {a b : List (ℕ × TimerData)} {t : ℕ × TimerData}
    (h : Holds s (a ++ t :: b)) :
  s.tail = some t.1 ↔ b = []
  := by
  rw [h.tail (by simp), last_append, last_cons]
  rcases List.eq_nil_or_concat' b with rfl | ⟨b, z, rfl⟩
  · simp
  · have hne : z.1 ≠ t.1 := by
      intro hz
      have hnodup := h.nodup
      rw [addresses_append, addresses_cons, ← hz] at hnodup
      simp [List.nodup_append] at hnodup
    simp [hne]

/-- `adjust_timer` moves a timer behind the timers that follow it and do not expire
later. -/
theorem Holds.adjustTimer {s : SortTimerList} {a b : List (ℕ × TimerData)} {t : ℕ × TimerData}
    (h : Holds s (a ++ t :: b)) :
  ∃ s', s.adjustTimer (some t.1) = some s' ∧ Holds s' (a ++ insertTimer t b)
  := by
  have hcell := h.seg.cell
  cases b with
  | nil =>
      refine ⟨s, ?_, h⟩
      rw [SortTimerList.adjustTimer, hcell]
      rfl
  | cons z b =>
      have hz := Seg.cell (a := a ++ [t]) (x := z) (by simpa using h.seg)
      rw [SortTimerList.adjustTimer, hcell, first_cons]
      dsimp only [Option.bind_eq_bind, Option.bind_some]
      rw [hz, insertTimer_cons]
      dsimp only [Option.bind_eq_bind, Option.bind_some]
      split
      · exact ⟨s, rfl, h⟩
      · rcases List.eq_nil_or_concat' a with rfl | ⟨a, y, rfl⟩
        · rw [if_pos (h.head_eq_iff.mpr rfl)]
          obtain ⟨h₁, e₁, hl⟩ := h.unlinkHead
          obtain ⟨h₂, e₂, hl⟩ := hl.setNext
          obtain ⟨s', hs', hholds⟩ := Loose.addTimerAfter (a := []) hl
          refine ⟨s', ?_, hholds⟩
          rw [e₁, Option.bind_some, e₂]
          exact hs'
        · rw [if_neg (fun hh => by simpa using h.head_eq_iff.mp hh), last_concat]
          obtain ⟨h₁, h₂, e₁, e₂, hl⟩ := h.unlinkInner
          obtain ⟨s', hs', hholds⟩ := hl.addTimerAfter
          refine ⟨s', ?_, hholds⟩
          rw [Option.bind_some, e₁, Option.bind_some, e₂]
          exact hs'

/-- `del_timer` takes a timer out of the list. -/
theorem Holds.delTimer {s : SortTimerList} {a b : List (ℕ × TimerData)} {t : ℕ × TimerData}
    (h : Holds s (a ++ t :: b)) :
  ∃ s', s.delTimer (some t.1) = some s' ∧ Holds s' (a ++ b)
  := by
  have hcell := h.seg.cell
  rcases List.eq_nil_or_concat' a with rfl | ⟨a, y, rfl⟩
  · have hhead := h.head_eq_iff.mpr rfl
    cases b with
    | nil =>
        have htail := h.tail_eq_iff.mpr rfl
        obtain ⟨s', hs', hholds⟩ := (h.unlinkOnly none).deleteTimer
        refine ⟨s', ?_, hholds⟩
        rw [SortTimerList.delTimer, if_pos ⟨hhead, htail⟩]
        rw [SortTimerList.deleteTimer] at hs' ⊢
        obtain ⟨h', e', hs'⟩ := Option.bind_eq_some_iff.mp hs'
        change free s.heap t.1 = some h' at e'
        rw [e']
        exact hs'
    | cons z b =>
        have htail : s.tail ≠ some t.1 := fun hh => by simpa using h.tail_eq_iff.mp hh
        obtain ⟨h₁, e₁, hl⟩ := h.unlinkHead
        obtain ⟨s', hs', hholds⟩ := hl.deleteTimer
        refine ⟨s', ?_, hholds⟩
        rw [SortTimerList.delTimer, if_neg (fun hh => htail hh.2), if_pos hhead, hcell, first_cons]
        dsimp only [Option.bind_eq_bind, Option.bind_some]
        rw [e₁]
        exact hs'
  · have hhead : s.head ≠ some t.1 := fun hh => by simpa using h.head_eq_iff.mp hh
    rw [SortTimerList.delTimer, if_neg (fun hh => hhead hh.1), if_neg hhead, hcell, last_concat]
    dsimp only [Option.bind_eq_bind, Option.bind_some]
    cases b with
    | nil =>
        have htail := h.tail_eq_iff.mpr rfl
        obtain ⟨h₁, e₁, hl⟩ := h.unlinkTail
        obtain ⟨s', hs', hholds⟩ := hl.deleteTimer
        rw [List.append_nil]
        refine ⟨s', ?_, hholds⟩
        rw [if_pos htail, e₁]
        exact hs'
    | cons z b =>
        have htail : s.tail ≠ some t.1 := fun hh => by simpa using h.tail_eq_iff.mp hh
        obtain ⟨h₁, h₂, e₁, e₂, hl⟩ := h.unlinkInner
        obtain ⟨s', hs', hholds⟩ := hl.deleteTimer
        refine ⟨s', ?_, hholds⟩
        rw [if_neg htail, first_cons, Option.bind_some, e₁, Option.bind_some, e₂]
        exact hs'

/-- A round of the loop of `tick` takes the head out. -/
theorem Holds.popHead {s : SortTimerList} {t : ℕ × TimerData} {l : List (ℕ × TimerData)}
    (h : Holds s (t :: l)) :
  ∃ s', s.popHead t.1 (first l none) = some s' ∧ Holds s' l
  := by
  cases l with
  | nil => exact (h.unlinkOnly s.tail).deleteTimer
  | cons z b =>
      obtain ⟨h₁, e₁, hl⟩ := h.unlinkHead
      obtain ⟨s', hs', hholds⟩ := hl.deleteTimer
      refine ⟨s', ?_, hholds⟩
      change (setPrev s.heap z.1 none).bind _ = _
      rw [e₁]
      exact hs'

/-- Whether a timer fires at the time `cur`. -/
def expired (cur : ℤ) (t : ℕ × TimerData) : Bool := t.2.expire ≤ cur

/-- The calls of `cb_func` for timers that fire. -/
def calls (l : List (ℕ × TimerData)) : List (ℕ × ℕ) := l.map fun t => (t.1, t.2.userData)

/-- The loop of `tick` takes the expired timers out, from the head up to the first one
that is not expired, and calls their callbacks in this order. -/
theorem Holds.tickFrom {s : SortTimerList} {l : List (ℕ × TimerData)} (h : Holds s l) (cur : ℤ)
    {fuel : ℕ} (hfuel : l.length ≤ fuel) :
  ∃ s', SortTimerList.tickFrom cur fuel s
      = some (calls (l.takeWhile (expired cur)), s') ∧
    Holds s' (l.dropWhile (expired cur))
  := by
  induction l generalizing s fuel with
  | nil =>
      refine ⟨s, ?_, h⟩
      rw [SortTimerList.tickFrom]
      rw [h.head]
      rfl
  | cons t l ih =>
      rw [SortTimerList.tickFrom]
      rw [h.head, first_cons]
      dsimp only [Option.bind_eq_bind]
      rw [h.seg.1, Option.bind_some]
      dsimp only
      split
      next hcur =>
        have hexp : expired cur t = false := by
          simpa [expired] using hcur
        refine ⟨s, ?_, ?_⟩
        · rw [List.takeWhile_cons, hexp]
          rfl
        · rw [List.dropWhile_cons, hexp]
          exact h
      next hcur =>
        have hexp : expired cur t = true := by
          simpa [expired] using hcur
        cases fuel with
        | zero => cases hfuel
        | succ fuel =>
            obtain ⟨s₁, hs₁, h₁⟩ := h.popHead
            obtain ⟨s', hs', h'⟩ := ih h₁ (Nat.le_of_succ_le_succ hfuel)
            refine ⟨s', ?_, ?_⟩
            · dsimp only
              rw [hs₁, Option.bind_some, hs', List.takeWhile_cons, hexp]
              rfl
            · rw [List.dropWhile_cons, hexp]
              exact h'

/-- `tick` takes the expired timers at the front of the list out. -/
theorem Holds.tick {s : SortTimerList} {l : List (ℕ × TimerData)} (h : Holds s l) (cur : ℤ) :
  ∃ s', s.tick cur = some (calls (l.takeWhile (expired cur)), s') ∧
    Holds s' (l.dropWhile (expired cur))
  := h.tickFrom cur h.count.ge

end SortTimerList

end WebServer
