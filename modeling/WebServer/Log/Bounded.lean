import WebServer.Lib.Run
import WebServer.Log.BlockQueue

/-!
# The blocking queue as a bounded queue

The calls of `push`, `pop`, `clear`, `size`, `full`, `empty` and `back` that one thread
makes.  `Fifo.call` says what a bounded first-in-first-out queue answers to them, and
`block_queue` answers the same (`call_rel`, `refines_fifo`).  `m_front` and `m_back` turn
around the array on their own and `clear` sets both back, so a lap of theirs means nothing;
what ties them together is `BlockQueue.Valid`, and `Lap` says where `m_back` may be.
-/

namespace WebServer

universe u

/-- A call that changes the queue. -/
inductive QueueCall (α : Type u) where
  | push (item : α)
  | pop
  | clear
  deriving DecidableEq

/-- What a call returns. -/
inductive QueueReturn (α : Type u) where
  | pushed (ok : Bool)
  | popped (item : α)
  | cleared
  deriving DecidableEq

/-- A bounded first-in-first-out queue, as a list.  It has nothing to answer to `pop` when
it is empty. -/
def Fifo.call {α : Type u} (maxSize : ℕ) (l : List α) :
    QueueCall α → Option (QueueReturn α × List α)
  | .push item =>
    if l.length < maxSize then some (.pushed true, l ++ [item]) else some (.pushed false, l)
  | .pop =>
    match l with
    | [] => none
    | x :: l => some (.popped x, l)
  | .clear => some (.cleared, [])

namespace BlockQueue

variable {α : Type u}

/-- A call that changes the queue.  A `pop` that waits does not return. -/
def call (q : BlockQueue α) : QueueCall α → Option (QueueReturn α × BlockQueue α)
  | .push item => some (.pushed (q.push item).1, (q.push item).2)
  | .pop =>
    match q.pop with
    | (.taken item, q) => some (.popped item, q)
    | _ => none
  | .clear => some (.cleared, q.clear)

/-- The functions that only look at the queue agree with the list `l`. -/
structure Agrees (maxSize : ℕ) (q : BlockQueue α) (l : List α) : Prop where
  size : q.size = l.length
  full : q.full = decide (maxSize ≤ l.length)
  empty : q.empty = l.isEmpty
  back : q.back = l.getLast?

/-- The places of `m_array` that `push`, `pop` and `back` use are in the array. -/
structure InArray (maxSize : ℕ) (q : BlockQueue α) : Prop where
  push : ∀ item q', q.push item = (true, q') → 0 ≤ q'.mBack ∧ q'.mBack < maxSize ∧
    q'.mArray = Function.update q.mArray q'.mBack.toNat item
  pop : ∀ item q', q.pop = (.taken item, q') → 0 ≤ q'.mFront ∧ q'.mFront < maxSize ∧
    item = q.mArray q'.mFront.toNat
  back : ∀ item, q.back = some item → 0 ≤ q.mBack ∧ q.mBack < maxSize ∧
    item = q.mArray q.mBack.toNat

/-- Where `m_back` is: in the array, unless nothing was pushed since the beginning or the
last `clear`. -/
structure Lap (q : BlockQueue α) : Prop where
  neg : -1 ≤ q.mBack
  lt : q.mBack < q.mMaxSize
  nonneg : 0 < q.mSize → 0 ≤ q.mBack

/-- The queue stands for the list `l`. -/
structure Stands (maxSize : ℕ) (q : BlockQueue α) (l : List α) : Prop where
  valid : q.Valid
  lap : q.Lap
  maxSize : q.mMaxSize = maxSize
  toList : q.toList = l

/-! ### Looking at the queue -/

/-- The last element is at `m_back`. -/
theorem back_eq {q : BlockQueue α} (h : q.Valid) (hlap : q.Lap) :
  q.back = q.toList.getLast?
  := by
  have hfront := h.front
  have hnonneg := h.nonneg
  rw [back]
  split
  next hsize =>
    have hnil : q.toList = [] := by
      apply List.eq_nil_of_length_eq_zero
      have hlen := length_toList h
      omega
    rw [hnil, List.getLast?_nil]
  next hsize =>
    have hpos : 0 < q.mSize := by omega
    have hback := hlap.nonneg hpos
    have hlen : q.mSize.toNat = (q.mSize - 1).toNat + 1 := by omega
    have hplace : ((q.mFront + 1).toNat + (q.mSize - 1).toNat) % q.mMaxSize.toNat
        = q.mBack.toNat := by
      rw [← Int.toNat_add (by omega) (by omega), ← Int.toNat_emod (by omega) h.pos.le]
      congr 1
      -- `m_back + 1` and the place behind the last element differ by whole laps
      have hmod : q.mBack % q.mMaxSize = (q.mFront + 1 + (q.mSize - 1)) % q.mMaxSize := by
        apply Int.ModEq.add_right_cancel' 1
        rw [Int.ModEq, h.back]
        congr 1
        omega
      rw [← hmod, Int.emod_eq_of_lt hback hlap.lt]
    rw [toList, hlen, Ring.getLast?_window, hplace]

theorem Stands.agrees {maxSize : ℕ} {q : BlockQueue α} {l : List α} (h : q.Stands maxSize l) :
  q.Agrees maxSize l
  := by
  have hlen := length_toList h.valid
  rw [h.toList] at hlen
  constructor
  · rw [size, hlen]
  · rw [full, h.maxSize, ← hlen]
    simp only [Nat.cast_le]
  · rw [empty, ← hlen]
    cases l with
    | nil => rfl
    | cons x l => simp
  · rw [back_eq h.valid h.lap, h.toList]

theorem Stands.inArray {maxSize : ℕ} {q : BlockQueue α} {l : List α} (h : q.Stands maxSize l) :
  q.InArray maxSize
  := by
  have hpos := h.valid.pos
  have hmod (n : ℤ) : 0 ≤ n % q.mMaxSize ∧ n % q.mMaxSize < maxSize := by
    constructor
    · apply Int.emod_nonneg n hpos.ne'
    · rw [← h.maxSize]
      apply Int.emod_lt_of_pos n hpos
  constructor
  · intro item q' hq'
    rw [push] at hq'
    split at hq'
    next => cases hq'
    next =>
      obtain rfl := (Prod.mk.inj hq').2
      exact ⟨(hmod _).1, (hmod _).2, rfl⟩
  · intro item q' hq'
    rw [pop] at hq'
    split at hq'
    next => cases hq'
    next =>
      obtain ⟨hitem, rfl⟩ := Prod.mk.inj hq'
      exact ⟨(hmod _).1, (hmod _).2, (PopResult.taken.inj hitem).symm⟩
  · intro item hitem
    rw [back] at hitem
    split at hitem
    next => cases hitem
    next hsize =>
      have hnonneg := h.valid.nonneg
      refine ⟨h.lap.nonneg (by omega), ?_, (Option.some.inj hitem).symm⟩
      rw [← h.maxSize]
      apply h.lap.lt

/-! ### What a call does -/

theorem ofMaxSize_stands [Inhabited α] {maxSize : ℕ} (hpos : 1 ≤ maxSize) :
  ∃ q : BlockQueue α, ofMaxSize maxSize = some q ∧ q.Stands maxSize []
  := by
  have hne : ¬ (maxSize : ℤ) ≤ 0 := by omega
  have hq : ofMaxSize maxSize = some (⟨fun _ => default, 0, maxSize, -1, -1⟩ : BlockQueue α) :=
    if_neg hne
  obtain ⟨hvalid, hnil⟩ := ofMaxSize_valid hq
  refine ⟨_, hq, hvalid, ⟨le_rfl, ?_, ?_⟩, rfl, hnil⟩
  · dsimp only
    omega
  · intro h
    apply absurd h (lt_irrefl _)

/-- `push` on a queue with room. -/
theorem Stands.push {maxSize : ℕ} {q : BlockQueue α} {l : List α} (h : q.Stands maxSize l)
    (hroom : l.length < maxSize) (item : α) :
  ∃ q', q.push item = (true, q') ∧ q'.Stands maxSize (l ++ [item])
  := by
  have hfull : q.full = false := by
    rw [h.agrees.full]
    apply decide_eq_false (Nat.not_le.mpr hroom)
  obtain ⟨q', hq', hvalid, hlist⟩ := toList_push h.valid hfull item
  rw [h.toList] at hlist
  obtain ⟨hnonneg, hlt, -⟩ := h.inArray.push item q' hq'
  have hmax : q'.mMaxSize = maxSize := by
    rw [BlockQueue.push, if_neg (not_le.mpr (not_le.mp (of_decide_eq_false hfull)))] at hq'
    rw [← (Prod.mk.inj hq').2, ← h.maxSize]
  refine ⟨q', hq', hvalid, ⟨by omega, ?_, fun _ => hnonneg⟩, hmax, hlist⟩
  rw [hmax]
  exact hlt

/-- `push` on a full queue. -/
theorem Stands.push_full {maxSize : ℕ} {q : BlockQueue α} {l : List α} (h : q.Stands maxSize l)
    (hfull : maxSize ≤ l.length) (item : α) :
  q.push item = (false, q)
  := by
  apply BlockQueue.push_full
  rw [h.agrees.full]
  apply decide_eq_true hfull

/-- `pop` on a queue with an element. -/
theorem Stands.pop {maxSize : ℕ} {q : BlockQueue α} {x : α} {l : List α}
    (h : q.Stands maxSize (x :: l)) :
  ∃ q', q.pop = (.taken x, q') ∧ q'.Stands maxSize l
  := by
  obtain ⟨q', hq', hvalid, hlist⟩ := toList_pop h.valid h.toList
  refine ⟨q', hq', hvalid, ?_, ?_, hlist⟩
  · rw [BlockQueue.pop] at hq'
    split at hq'
    next => cases hq'
    next hsize =>
      rw [← (Prod.mk.inj hq').2]
      exact ⟨h.lap.neg, h.lap.lt, fun _ => h.lap.nonneg (not_le.mp hsize)⟩
  · rw [BlockQueue.pop] at hq'
    split at hq'
    next => cases hq'
    next =>
      rw [← (Prod.mk.inj hq').2]
      apply h.maxSize

theorem Stands.clear {maxSize : ℕ} {q : BlockQueue α} {l : List α} (h : q.Stands maxSize l) :
  q.clear.Stands maxSize []
  := by
  obtain ⟨hvalid, hnil⟩ := toList_clear h.valid
  refine ⟨hvalid, ⟨le_rfl, ?_, ?_⟩, h.maxSize, hnil⟩
  · have hpos := h.valid.pos
    change -1 < q.mMaxSize
    omega
  · intro hlt
    apply absurd hlt (lt_irrefl _)

/-- Each call returns what it returns on the list, and leaves what it leaves there. -/
theorem call_rel {maxSize : ℕ} {q : BlockQueue α} {l : List α} (h : q.Stands maxSize l)
    (c : QueueCall α) :
  Option.Rel (Run.SameAnswer (Stands maxSize)) (q.call c) (Fifo.call maxSize l c)
  := by
  cases c with
  | push item =>
      rw [call, Fifo.call]
      split
      next hroom =>
        obtain ⟨q', hq', hstands⟩ := h.push hroom item
        rw [hq']
        exact .some ⟨rfl, hstands⟩
      next hfull =>
        rw [h.push_full (not_lt.mp hfull)]
        exact .some ⟨rfl, h⟩
  | pop =>
      rw [call]
      cases l with
      | nil =>
          rw [pop_nil h.valid h.toList]
          exact .none
      | cons x l =>
          obtain ⟨q', hq', hstands⟩ := h.pop
          rw [hq']
          exact .some ⟨rfl, hstands⟩
  | clear => exact .some ⟨rfl, h.clear⟩

/-- A `block_queue` refines a bounded first-in-first-out queue: the same calls return, with
the same results, and behind them what can be seen of the queue agrees with the list and
the places used next are in the array. -/
theorem refines_fifo [Inhabited α] {maxSize : ℕ} (hpos : 1 ≤ maxSize) :
  ∃ q₀ : BlockQueue α, ofMaxSize maxSize = some q₀ ∧ ∀ calls,
    Option.Rel (Run.SameAnswer fun q l => q.Agrees maxSize l ∧ q.InArray maxSize)
      (Run.answers call q₀ calls) (Run.answers (Fifo.call maxSize) [] calls)
  := by
  obtain ⟨q₀, hq₀, hstands⟩ : ∃ q : BlockQueue α, _ ∧ _ := ofMaxSize_stands hpos
  refine ⟨q₀, hq₀, ?_⟩
  intro calls
  apply Run.rel_imp (Run.answers_rel (fun _ _ c h => call_rel h c) hstands calls)
  rintro a b ⟨hanswer, h⟩
  exact ⟨hanswer, h.agrees, h.inArray⟩

/-- The queue of three places. -/
theorem refines_fifo_three :
  ∃ q₀ : BlockQueue ℕ, ofMaxSize (3 : ℕ) = some q₀ ∧ ∀ calls,
    Option.Rel (Run.SameAnswer fun q l => q.Agrees 3 l ∧ q.InArray 3)
      (Run.answers call q₀ calls) (Run.answers (Fifo.call 3) [] calls)
  := refines_fifo (by decide)

end BlockQueue

end WebServer
