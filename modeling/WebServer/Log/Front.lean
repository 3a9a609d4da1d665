import WebServer.Log.Bounded

/-!
# Looking at the front of the queue

`m_front` is the place in front of the oldest element: `pop` goes on to the next place and
takes the element there.  `front` looks at `m_front` itself.  That is no place of the array
before the first `pop` and behind a `clear`; later it is the place of the element that was
taken out last, and in a full queue that of the newest element (`Trails`).
-/

namespace WebServer

universe u

/-- The element that was taken out last, unless the queue was cleared since. -/
def QueueReturn.lastTaken {α : Type u} (last : Option α) : QueueReturn α → Option α
  | .pushed _ => last
  | .popped item => some item
  | .cleared => none

namespace BlockQueue

variable {α : Type u}

/-- `block_queue::front`, with the value when it returns true.  A place that is not in the
array has no result. -/
def front (q : BlockQueue α) : Option (Option α) :=
  if 0 = q.mSize then
    some none
  else if 0 ≤ q.mFront ∧ q.mFront < q.mMaxSize then
    some (some (q.mArray q.mFront.toNat))
  else
    none

/-- `front` returns what the next `pop` takes out, and looks at a place of the array. -/
def PeeksNext (q : BlockQueue α) : Prop :=
  0 ≤ q.mFront ∧ q.mFront < q.mMaxSize ∧
    ∃ x q', q.front = some (some x) ∧ q.pop = (.taken x, q')

/-- An element was taken out since the beginning or the last `clear`, and the oldest element
is equal to the last of those, or to the newest element when the queue is full. -/
def Repeats (maxSize : ℕ) (l : List α) (last : Option α) : Prop :=
  last.isSome = true ∧ l.head? = if l.length < maxSize then last else l.getLast?

/-- `m_front` is the place of the element that was taken out last, which stays there until
the queue is full. -/
structure Trails (q : BlockQueue α) (last : Option α) : Prop where
  untaken : last = none → q.mFront = -1
  taken : ∀ y, last = some y → 0 ≤ q.mFront ∧ q.mFront < q.mMaxSize ∧
    (q.mSize < q.mMaxSize → q.mArray q.mFront.toNat = y)

/-- Nothing was taken out while `m_front` is in front of the array. -/
theorem trails_none {q : BlockQueue α} (h : q.mFront = -1) :
  q.Trails none
  := ⟨fun _ => h, fun y hy => absurd hy (Option.some_ne_none y).symm⟩

theorem ofMaxSize_trails [Inhabited α] {maxSize : ℤ} {q : BlockQueue α}
    (h : ofMaxSize maxSize = some q) :
  q.Trails none
  := by
  rw [ofMaxSize] at h
  split at h
  next => cases h
  next =>
    obtain rfl := Option.some.inj h
    apply trails_none rfl

/-! ### What a call does -/

/-- A place behind `m_front` by less than the size of the array is another place. -/
theorem place_ne {n front k : ℤ} (hnonneg : 0 ≤ front) (hlt : front < n) (hk : 0 < k)
    (hkn : k < n) :
  (front + k) % n ≠ front
  := by
  intro h
  have hmod : front + k ≡ front + 0 [ZMOD n] := by
    rw [Int.ModEq, add_zero, h, Int.emod_eq_of_lt hnonneg hlt]
  have hzero := Int.ModEq.add_left_cancel' front hmod
  rw [Int.ModEq, Int.emod_eq_of_lt hk.le hkn, Int.zero_emod] at hzero
  apply hk.ne' hzero

/-- `push` puts nothing at `m_front` unless it makes the queue full. -/
theorem Trails.push {q : BlockQueue α} {last : Option α} (h : q.Trails last) (hq : q.Valid)
    (item : α) :
  (q.push item).2.Trails last
  := by
  rw [BlockQueue.push]
  split
  next => exact h
  next hroom =>
    refine ⟨h.untaken, ?_⟩
    intro y hy
    obtain ⟨hnonneg, hlt, hcell⟩ := h.taken y hy
    refine ⟨hnonneg, hlt, ?_⟩
    intro hleft
    dsimp only at hleft ⊢
    have hsize := hq.nonneg
    have hback : (q.mBack + 1) % q.mMaxSize ≠ q.mFront := by
      rw [hq.back, add_assoc]
      apply place_ne hnonneg hlt
      · omega
      · omega
    rw [Function.update_of_ne, hcell (by omega)]
    intro heq
    apply hback
    have hpos := Int.emod_nonneg (q.mBack + 1) hq.pos.ne'
    omega

/-- `pop` leaves `m_front` at the place of the element it takes out. -/
theorem pop_trails {q q' : BlockQueue α} (hq : q.Valid) {item : α}
    (h : q.pop = (.taken item, q')) :
  q'.Trails (some item)
  := by
  rw [pop] at h
  split at h
  next => cases h
  next =>
    obtain ⟨hitem, rfl⟩ := Prod.mk.inj h
    refine ⟨fun hnone => absurd hnone (Option.some_ne_none item), ?_⟩
    intro y hy
    refine ⟨Int.emod_nonneg _ hq.pos.ne', Int.emod_lt_of_pos _ hq.pos, ?_⟩
    intro _
    rw [← Option.some.inj hy]
    apply PopResult.taken.inj hitem

/-- What one call makes of `m_front`. -/
theorem Trails.call {q q' : BlockQueue α} {last : Option α} (h : q.Trails last) (hq : q.Valid)
    {c : QueueCall α} {r : QueueReturn α} (hc : q.call c = some (r, q')) :
  q'.Trails (r.lastTaken last)
  := by
  cases c with
  | push item =>
      cases hc
      apply h.push hq
  | pop =>
      rw [BlockQueue.call] at hc
      split at hc
      next item q₁ hpop =>
        cases hc
        apply pop_trails hq hpop
      next => cases hc
  | clear =>
      cases hc
      apply trails_none rfl

/-- The queue stands for a list again. -/
theorem Stands.call {maxSize : ℕ} {q q' : BlockQueue α} {l : List α} (h : q.Stands maxSize l)
    {c : QueueCall α} {r : QueueReturn α} (hc : q.call c = some (r, q')) :
  ∃ l', q'.Stands maxSize l'
  := by
  have hrel := call_rel h c
  rw [hc] at hrel
  generalize Fifo.call maxSize l c = answer at hrel
  cases hrel with
  | some hanswer => exact ⟨_, hanswer.2⟩

/-- What is at `m_front` when there is an element. -/
theorem Trails.cell {maxSize : ℕ} {q : BlockQueue α} {y : α} {l : List α}
    (h : q.Trails (some y)) (hq : q.Stands maxSize l) (hne : l ≠ []) :
  some (q.mArray q.mFront.toNat) = if l.length < maxSize then some y else l.getLast?
  := by
  obtain ⟨hnonneg, hlt, hcell⟩ := h.taken y rfl
  have hlen := length_toList hq.valid
  have hmax := hq.maxSize
  have hle := hq.valid.le
  rw [hq.toList] at hlen
  split
  next hroom => rw [hcell (by omega)]
  next hfull =>
    have hpos := List.length_pos_of_ne_nil hne
    have hsize : q.mSize.toNat = (maxSize - 1) + 1 := by omega
    have hplace : ((q.mFront + 1).toNat + (maxSize - 1)) % maxSize = q.mFront.toNat := by
      have hsum : (q.mFront + 1).toNat + (maxSize - 1) = q.mFront.toNat + maxSize := by omega
      rw [hsum, Nat.add_mod_right, Nat.mod_eq_of_lt (by omega)]
    rw [← hq.toList, toList, hsize, Ring.getLast?_window, hmax, Int.toNat_natCast, hplace]

/-- `front` agrees with `pop` exactly when the queue repeats an element. -/
theorem Trails.peeks_iff {maxSize : ℕ} {q : BlockQueue α} {last : Option α} {l : List α}
    (h : q.Trails last) (hq : q.Stands maxSize l) (hne : l ≠ []) :
  q.PeeksNext ↔ Repeats maxSize l last
  := by
  obtain ⟨x, l, rfl⟩ := List.exists_cons_of_ne_nil hne
  obtain ⟨q', hpop, -⟩ := hq.pop
  cases last with
  | none =>
      have hfront := h.untaken rfl
      constructor
      · rintro ⟨hnonneg, -⟩
        omega
      · rintro ⟨hsome, -⟩
        cases hsome
  | some y =>
      have hcell := h.cell hq hne
      obtain ⟨hnonneg, hlt, -⟩ := h.taken y rfl
      have hfront : q.front = some (some (q.mArray q.mFront.toNat)) := by
        have hlen := length_toList hq.valid
        rw [hq.toList, List.length_cons] at hlen
        rw [front, if_neg (by omega), if_pos ⟨hnonneg, hlt⟩]
      rw [Repeats, ← hcell, List.head?_cons]
      constructor
      · rintro ⟨-, -, z, q₁, hz, hpop₁⟩
        refine ⟨rfl, ?_⟩
        rw [hpop] at hpop₁
        cases hpop₁
        apply Option.some.inj (hz.symm.trans hfront)
      · rintro ⟨-, hx⟩
        refine ⟨hnonneg, hlt, x, q', ?_, hpop⟩
        rw [hfront, hx]

/-- After any calls that leave an element in the queue, `front` returns what the next `pop`
takes out exactly when some element was taken out since the beginning or the last `clear`,
and the oldest element is equal to the last of those, or to the newest element when the queue
is full. -/
theorem peeksNext_iff [Inhabited α] {maxSize : ℕ} {q₀ q : BlockQueue α}
    {calls : List (QueueCall α)} {returns : List (QueueReturn α)}
    (hq₀ : ofMaxSize maxSize = some q₀) (h : Run.answers call q₀ calls = some (returns, q))
    (hne : q.toList ≠ []) :
  q.PeeksNext ↔ Repeats maxSize q.toList (returns.foldl QueueReturn.lastTaken none)
  := by
  have hpos : 1 ≤ maxSize := by
    rw [ofMaxSize] at hq₀
    split at hq₀
    next => cases hq₀
    next hpos => omega
  obtain ⟨q₁, hq₁, hstands⟩ : ∃ q : BlockQueue α, _ ∧ _ := ofMaxSize_stands hpos
  obtain rfl := Option.some.inj (hq₀.symm.trans hq₁)
  obtain ⟨⟨l, hl⟩, htrails⟩ := Run.answers_foldl
    (I := fun q last => (∃ l, Stands maxSize q l) ∧ Trails q last) (fun q last c r q' hq hc =>
      ⟨hq.1.elim fun l hl => hl.call hc, hq.1.elim fun l hl => hq.2.call hl.valid hc⟩)
    ⟨⟨[], hstands⟩, ofMaxSize_trails hq₀⟩ h
  obtain rfl := hl.toList
  apply htrails.peeks_iff hl hne

/-- The same element twice, of which one is taken out. -/
theorem peeksNext_iff_twice :
  ∃ (q₀ q : BlockQueue ℕ) (returns : List (QueueReturn ℕ)),
    ofMaxSize (2 : ℕ) = some q₀ ∧
      Run.answers call q₀ [.push 7, .push 7, .pop] = some (returns, q) ∧
      (q.PeeksNext ↔ Repeats 2 q.toList (returns.foldl QueueReturn.lastTaken none))
  := ⟨_, _, _, rfl, rfl, @peeksNext_iff ℕ _ 2 _ _ [.push 7, .push 7, .pop] _ rfl rfl (by decide)⟩

/-- After two elements were pushed and one was taken out, `front` returns that one. -/
theorem not_peeksNext :
  ¬ ∀ (maxSize : ℕ) (q₀ q : BlockQueue ℕ) (calls : List (QueueCall ℕ))
    (returns : List (QueueReturn ℕ)), ofMaxSize maxSize = some q₀ →
      Run.answers call q₀ calls = some (returns, q) → q.toList ≠ [] → q.PeeksNext
  := by
  intro h
  obtain ⟨-, -, x, q', hfront, hpop⟩ :=
    h 2 _ _ [.push 7, .push 8, .pop] _ rfl rfl (by decide)
  cases hfront
  cases hpop

end BlockQueue

end WebServer
