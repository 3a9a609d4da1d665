import WebServer.Lib.Ring

/-!
# The blocking queue

`block_queue`: a ring buffer under a mutex.  What a call does while it holds the mutex is
one step.  A `pop` that finds the queue empty waits on the condition variable; when it
gets the mutex back it goes on with `woken`, which gets what `pthread_cond_wait` returned.

`BlockQueue.Valid` is kept by all operations, and `toList` is the queue as a list, the
oldest element first (`toList_push`, `toList_pop`).
-/

namespace WebServer

universe u

/-- `block_queue`, but for the mutex and the condition variable. -/
structure BlockQueue (α : Type u) where
  mArray : ℕ → α
  mSize : ℤ
  mMaxSize : ℤ
  mFront : ℤ
  mBack : ℤ

/-- How a call of `pop` leaves the mutex: it returns true with an item, it returns false,
or it waits on the condition variable. -/
inductive PopResult (α : Type u) where
  | taken (item : α)
  | gaveUp
  | waits
  deriving DecidableEq

/-- `cond::wait`, when `pthread_cond_wait` returns `ret`. -/
def condWait (ret : ℤ) : Bool := ret = 0

namespace BlockQueue

variable {α : Type u}

/-- `block_queue::block_queue`.  A size that is not positive ends the program. -/
def ofMaxSize [Inhabited α] (maxSize : ℤ) : Option (BlockQueue α) :=
  if maxSize ≤ 0 then
    none
  else
    some {
      mArray := fun _ => default
      mSize := 0
      mMaxSize := maxSize
      mFront := -1
      mBack := -1 }

/-- `block_queue::full`. -/
def full (q : BlockQueue α) : Bool := q.mMaxSize ≤ q.mSize

/-- `block_queue::push`. -/
def push (q : BlockQueue α) (item : α) : Bool × BlockQueue α :=
  if q.mMaxSize ≤ q.mSize then
    (false, q)
  else
    let back := (q.mBack + 1) % q.mMaxSize
    (true, { q with
      mArray := Function.update q.mArray back.toNat item
      mSize := q.mSize + 1
      mBack := back })

/-- `block_queue::pop`, from the test of the size on. -/
def pop (q : BlockQueue α) : PopResult α × BlockQueue α :=
  if q.mSize ≤ 0 then
    (.waits, q)
  else
    let front := (q.mFront + 1) % q.mMaxSize
    (.taken (q.mArray front.toNat), { q with mSize := q.mSize - 1, mFront := front })

/-- `block_queue::pop`, from the return of `pthread_cond_wait` on. -/
def woken (q : BlockQueue α) (ret : ℤ) : PopResult α × BlockQueue α :=
  if 0 ≠ (condWait ret).toNat then
    (.gaveUp, q)
  else
    q.pop

/-- `block_queue::clear`.  The elements stay in the array. -/
def clear (q : BlockQueue α) : BlockQueue α :=
  { q with mSize := 0, mFront := -1, mBack := -1 }

/-- `block_queue::empty`. -/
def empty (q : BlockQueue α) : Bool := q.mSize ≤ 0

/-- `block_queue::size`. -/
def size (q : BlockQueue α) : ℤ := q.mSize

/-- `block_queue::back`, with the value when it returns true. -/
def back (q : BlockQueue α) : Option α :=
  if 0 = q.mSize then none else some (q.mArray q.mBack.toNat)

/-! ### The queue as a list -/

/-- The indices are in the array, and the last element is `mSize` places behind the
front. -/
structure Valid (q : BlockQueue α) : Prop where
  pos : 0 < q.mMaxSize
  nonneg : 0 ≤ q.mSize
  le : q.mSize ≤ q.mMaxSize
  front : -1 ≤ q.mFront
  back : (q.mBack + 1) % q.mMaxSize = (q.mFront + 1 + q.mSize) % q.mMaxSize

/-- The elements, the oldest first. -/
def toList (q : BlockQueue α) : List α :=
  Ring.window q.mArray q.mMaxSize.toNat (q.mFront + 1).toNat q.mSize.toNat

theorem ofMaxSize_valid [Inhabited α] {maxSize : ℤ} {q : BlockQueue α}
    (h : ofMaxSize maxSize = some q) :
  q.Valid ∧ q.toList = []
  := by
  rw [ofMaxSize] at h
  split at h
  next => cases h
  next hpos =>
    obtain rfl := Option.some.inj h
    rw [not_le] at hpos
    exact ⟨⟨hpos, le_rfl, hpos.le, le_rfl, rfl⟩, rfl⟩

/-- The length of the list is the size of the queue. -/
theorem length_toList {q : BlockQueue α} (h : q.Valid) :
  (q.toList.length : ℤ) = q.mSize
  := by
  rw [toList, Ring.length_window]
  apply Int.toNat_of_nonneg h.nonneg

/-- A queue that is not full takes an element at its end. -/
theorem toList_push {q : BlockQueue α} (h : q.Valid) (hfull : q.full = false) (item : α) :
  ∃ q', q.push item = (true, q') ∧ q'.Valid ∧ q'.toList = q.toList ++ [item]
  := by
  have hlt : q.mSize < q.mMaxSize := not_le.mp (of_decide_eq_false hfull)
  have hpos := h.pos
  have hsize := h.nonneg
  have hfront := h.front
  refine ⟨_, if_neg (not_le.mpr hlt), ⟨h.pos, ?_, ?_, h.front, ?_⟩, ?_⟩
  · dsimp only
    omega
  · dsimp only
    omega
  · dsimp only
    rw [h.back, Int.emod_add_emod, add_assoc]
  · rw [toList]
    dsimp only
    rw [h.back]
    have hplace : ((q.mFront + 1 + q.mSize) % q.mMaxSize).toNat
        = ((q.mFront + 1).toNat + q.mSize.toNat) % q.mMaxSize.toNat := by
      rw [Int.toNat_emod (by omega) h.pos.le, Int.toNat_add (by omega) h.nonneg]
    rw [hplace, Int.toNat_add h.nonneg (by omega)]
    apply Ring.window_update
    omega

/-- A full queue takes no element. -/
theorem push_full {q : BlockQueue α} (hfull : q.full = true) (item : α) :
  q.push item = (false, q)
  := if_pos (of_decide_eq_true hfull)

/-- An empty queue has no element to take out. -/
theorem pop_nil {q : BlockQueue α} (h : q.Valid) (hnil : q.toList = []) :
  q.pop = (.waits, q)
  := by
  apply if_pos
  rw [← length_toList h, hnil]
  rfl

/-- The oldest element is taken out. -/
theorem toList_pop {q : BlockQueue α} (h : q.Valid) {x : α} {l : List α}
    (hl : q.toList = x :: l) :
  ∃ q', q.pop = (.taken x, q') ∧ q'.Valid ∧ q'.toList = l
  := by
  have hlen := length_toList h
  rw [hl, List.length_cons] at hlen
  have hpos := h.pos
  have hle := h.le
  have hfront := h.front
  have hstart : ((q.mFront + 1) % q.mMaxSize).toNat = (q.mFront + 1).toNat % q.mMaxSize.toNat :=
    Int.toNat_emod (by omega) h.pos.le
  have hnonneg : 0 ≤ (q.mFront + 1) % q.mMaxSize := Int.emod_nonneg _ (by omega)
  have hsize : q.mSize.toNat = (q.mSize - 1).toNat + 1 := by omega
  rw [toList, hsize, Ring.window_succ, ← hstart] at hl
  obtain ⟨rfl, rfl⟩ := List.cons.inj hl
  refine ⟨_, if_neg (by omega), ⟨h.pos, ?_, ?_, ?_, ?_⟩, ?_⟩
  · dsimp only
    omega
  · dsimp only
    omega
  · dsimp only
    omega
  · dsimp only
    have hadd : (q.mFront + 1) % q.mMaxSize + 1 + (q.mSize - 1)
        = (q.mFront + 1) % q.mMaxSize + q.mSize := by omega
    rw [h.back, hadd, Int.emod_add_emod]
  · rw [toList]
    dsimp only
    rw [Int.toNat_add hnonneg (by omega), hstart, ← Ring.window_mod, Int.toNat_one,
      Nat.mod_add_mod, Ring.window_mod]

/-- What a call of `pop` does on a valid queue: it takes the oldest element out, or waits
on an empty queue. -/
theorem pop_cases {q : BlockQueue α} (h : q.Valid) :
  (∃ x q', q.pop = (.taken x, q') ∧ q'.Valid ∧ q.toList = x :: q'.toList) ∨
    (q.pop = (.waits, q) ∧ q.toList = [])
  := by
  cases hl : q.toList with
  | nil => exact Or.inr ⟨pop_nil h hl, rfl⟩
  | cons x l =>
      obtain ⟨q', hq', hvalid, rfl⟩ := toList_pop h hl
      apply Or.inl ⟨x, q', hq', hvalid, rfl⟩

/-- A queue that is cleared is valid whatever its array holds. -/
theorem toList_clear {q : BlockQueue α} (h : q.Valid) :
  q.clear.Valid ∧ q.clear.toList = []
  := ⟨⟨h.pos, le_rfl, h.pos.le, le_rfl, rfl⟩, rfl⟩

/-- A call of `pop` that is woken returns false, also when there is an element. -/
theorem woken_zero (q : BlockQueue α) :
  q.woken 0 = (.gaveUp, q)
  := rfl

end BlockQueue

end WebServer
