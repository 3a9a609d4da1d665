import WebServer.Log.BlockQueue

/-!
# Waiting on the queue for a limited time

`pop` with a timeout waits once, until a deadline that it makes of the time of day and the
timeout.  The parts of a second of the time of day are left out of it, and those of the
timeout are taken for microseconds, so that the deadline is right on whole seconds only.
What it then gets from `cond::timewait` is true when the wait has succeeded, and it returns
false on this; on a timeout it goes on and looks at the queue again (`timely_iff`).
-/

namespace WebServer

universe u

/-- `struct timeval`. -/
structure Timeval where
  tvSec : ℤ
  tvUsec : ℤ

/-- `struct timespec`. -/
structure Timespec where
  tvSec : ℤ
  tvNsec : ℤ

/-- The time in nanoseconds. -/
def Timeval.nanoseconds (t : Timeval) : ℤ := t.tvSec * 10 ^ 9 + t.tvUsec * 10 ^ 3

/-- The time in nanoseconds. -/
def Timespec.nanoseconds (t : Timespec) : ℤ := t.tvSec * 10 ^ 9 + t.tvNsec

/-- `cond::timewait`, when `pthread_cond_timedwait` returns `ret`. -/
def timewait (ret : ℤ) : Bool := ret = 0

/-- How a call of `pop` with a timeout leaves the mutex: it returns true with an item, it
returns false, or it waits on the condition variable until a time. -/
inductive TimedPopResult (α : Type u) where
  | taken (item : α)
  | gaveUp
  | waits (t : Timespec)

namespace BlockQueue

variable {α : Type u}

/-- The time until which `pop` waits when it is called at the time `now`. -/
def deadline (now : Timeval) (msTimeout : ℤ) : Timespec where
  tvSec := now.tvSec + msTimeout.tdiv 1000
  tvNsec := msTimeout.tmod 1000 * 1000

/-- `block_queue::pop` with a timeout, from the second test of the size on. -/
def popNow (q : BlockQueue α) : TimedPopResult α × BlockQueue α :=
  if q.mSize ≤ 0 then
    (.gaveUp, q)
  else
    let front := (q.mFront + 1) % q.mMaxSize
    (.taken (q.mArray front.toNat), { q with mSize := q.mSize - 1, mFront := front })

/-- `block_queue::pop` with a timeout, up to its wait. -/
def popTimed (q : BlockQueue α) (now : Timeval) (msTimeout : ℤ) :
    TimedPopResult α × BlockQueue α :=
  if q.mSize ≤ 0 then (.waits (deadline now msTimeout), q) else q.popNow

/-- `block_queue::pop` with a timeout, from the return of `pthread_cond_timedwait` on. -/
def wokenTimed (q : BlockQueue α) (ret : ℤ) : TimedPopResult α × BlockQueue α :=
  if 0 ≠ (timewait ret).toNat then (.gaveUp, q) else q.popNow

/-- The oldest element is taken out. -/
def TakesOldest (q : BlockQueue α) (r : TimedPopResult α × BlockQueue α) : Prop :=
  ∃ x, r.1 = .taken x ∧ q.toList = x :: r.2.toList ∧ r.2.Valid

/-- A call of `pop` with a timeout on the queue `q`, at the time `now`, is as it should be.
If it waits, `pthread_cond_timedwait` returns `ret` and the queue is `woken` by then. -/
structure Timely (q : BlockQueue α) (now : Timeval) (msTimeout ret : ℤ)
    (woken : BlockQueue α) : Prop where
  /-- It does not wait on a queue with an element. -/
  atOnce : q.toList ≠ [] → q.TakesOldest (q.popTimed now msTimeout)
  /-- The deadline is the time of the call and the timeout together. -/
  deadline : ∀ t, (q.popTimed now msTimeout).1 = .waits t →
    t.nanoseconds = now.nanoseconds + msTimeout * 10 ^ 6 ∧ 0 ≤ t.tvNsec ∧ t.tvNsec < 10 ^ 9
  /-- A wait that succeeds with an element in the queue is followed by its removal. -/
  delivers : ∀ t, (q.popTimed now msTimeout).1 = .waits t → ret = 0 → woken.toList ≠ [] →
    woken.TakesOldest (woken.wokenTimed ret)
  /-- It returns false after a timeout or with the queue empty, and leaves the queue. -/
  givesUp : ∀ t, (q.popTimed now msTimeout).1 = .waits t →
    (woken.wokenTimed ret).1 = .gaveUp →
    (woken.wokenTimed ret).2 = woken ∧ (ret ≠ 0 ∨ woken.toList = [])

/-- There is an element in the queue, or the time and the timeout are whole seconds and the
wait does not succeed with an element in the queue. -/
def OnTime (q : BlockQueue α) (now : Timeval) (msTimeout ret : ℤ) (woken : BlockQueue α) :
    Prop :=
  q.toList ≠ [] ∨ now.tvUsec = 0 ∧ 1000 ∣ msTimeout ∧ (ret = 0 → woken.toList = [])

/-! ### The parts of a call -/

/-- The deadline is the right one when the time and the timeout are whole seconds. -/
theorem deadline_iff {now : Timeval} {msTimeout : ℤ} (hnow : 0 ≤ now.tvUsec)
    (hms : 0 ≤ msTimeout) :
  (deadline now msTimeout).nanoseconds = now.nanoseconds + msTimeout * 10 ^ 6 ↔
    now.tvUsec = 0 ∧ 1000 ∣ msTimeout
  := by
  rw [deadline, Timespec.nanoseconds, Timeval.nanoseconds, Int.tdiv_eq_ediv_of_nonneg hms,
    Int.tmod_eq_emod_of_nonneg hms]
  dsimp only
  constructor
  · intro h
    constructor
    · omega
    · omega
  · rintro ⟨husec, hseconds⟩
    omega

/-- The parts of a second of the deadline are in range. -/
theorem deadline_range (now : Timeval) {msTimeout : ℤ} (hms : 0 ≤ msTimeout) :
  0 ≤ (deadline now msTimeout).tvNsec ∧ (deadline now msTimeout).tvNsec < 10 ^ 9
  := by
  rw [deadline, Int.tmod_eq_emod_of_nonneg hms]
  dsimp only
  constructor
  · omega
  · omega

/-- The size is zero when there is no element. -/
theorem mSize_le_iff {q : BlockQueue α} (h : q.Valid) :
  q.mSize ≤ 0 ↔ q.toList = []
  := by
  have hlen := length_toList h
  rw [← List.length_eq_zero_iff]
  omega

theorem popNow_nil {q : BlockQueue α} (h : q.Valid) (hnil : q.toList = []) :
  q.popNow = (.gaveUp, q)
  := if_pos ((mSize_le_iff h).mpr hnil)

/-- With an element in the queue, `pop` with a timeout does what `pop` does. -/
theorem popNow_takesOldest {q : BlockQueue α} (h : q.Valid) (hne : q.toList ≠ []) :
  q.TakesOldest q.popNow
  := by
  obtain ⟨x, l, hl⟩ := List.exists_cons_of_ne_nil hne
  obtain ⟨q', hq', hvalid, rfl⟩ := toList_pop h hl
  have hsize : ¬ q.mSize ≤ 0 := fun hle => hne ((mSize_le_iff h).mp hle)
  rw [pop, if_neg hsize] at hq'
  rw [popNow, if_neg hsize]
  obtain ⟨hitem, rfl⟩ := Prod.mk.inj hq'
  exact ⟨x, congrArg _ (PopResult.taken.inj hitem), hl, hvalid⟩

/-- A wait that has succeeded is followed by a return of false. -/
theorem wokenTimed_zero (q : BlockQueue α) :
  q.wokenTimed 0 = (.gaveUp, q)
  := rfl

theorem wokenTimed_of_ne (q : BlockQueue α) {ret : ℤ} (hret : ret ≠ 0) :
  q.wokenTimed ret = q.popNow
  := by
  rw [wokenTimed, timewait, decide_eq_false hret]
  rfl

/-- `pop` waits on an empty queue only. -/
theorem popTimed_waits {q : BlockQueue α} (h : q.Valid) {now : Timeval} {msTimeout : ℤ}
    {t : Timespec} (ht : (q.popTimed now msTimeout).1 = .waits t) :
  q.toList = [] ∧ t = BlockQueue.deadline now msTimeout
  := by
  rw [popTimed] at ht
  split at ht
  next hle => exact ⟨(mSize_le_iff h).mp hle, (TimedPopResult.waits.inj ht).symm⟩
  next hlt =>
    rw [popNow, if_neg hlt] at ht
    cases ht

theorem popTimed_nil {q : BlockQueue α} (h : q.Valid) (now : Timeval) (msTimeout : ℤ)
    (hnil : q.toList = []) :
  (q.popTimed now msTimeout).1 = .waits (BlockQueue.deadline now msTimeout)
  := by
  rw [popTimed, if_pos ((mSize_le_iff h).mpr hnil)]

/-- It returns false after a timeout only if the queue is empty. -/
theorem wokenTimed_gaveUp {q : BlockQueue α} (h : q.Valid) {ret : ℤ}
    (hgave : (q.wokenTimed ret).1 = .gaveUp) :
  (q.wokenTimed ret).2 = q ∧ (ret = 0 ∨ q.toList = [])
  := by
  by_cases hret : ret = 0
  · rw [hret, wokenTimed_zero]
    exact ⟨rfl, Or.inl rfl⟩
  · rw [wokenTimed_of_ne q hret] at hgave ⊢
    by_cases hnil : q.toList = []
    · rw [popNow_nil h hnil]
      exact ⟨rfl, Or.inr hnil⟩
    · obtain ⟨x, hx, -⟩ := popNow_takesOldest h hnil
      cases hx.symm.trans hgave

/-- A call of `pop` with a timeout is as it should be exactly when it does not wait, or is
made at a whole second for whole seconds and its wait does not succeed with an element in the
queue. -/
theorem timely_iff {q woken : BlockQueue α} (hq : q.Valid) (hwoken : woken.Valid)
    {now : Timeval} (hnow : 0 ≤ now.tvUsec ∧ now.tvUsec < 10 ^ 6) {msTimeout : ℤ}
    (hms : 0 ≤ msTimeout) (ret : ℤ) :
  q.Timely now msTimeout ret woken ↔ q.OnTime now msTimeout ret woken
  := by
  constructor
  · intro h
    by_cases hnil : q.toList = []
    · have hwaits := popTimed_nil hq now msTimeout hnil
      obtain ⟨husec, hseconds⟩ := (deadline_iff hnow.1 hms).mp (h.deadline _ hwaits).1
      refine Or.inr ⟨husec, hseconds, ?_⟩
      rintro rfl
      by_contra hne
      obtain ⟨x, hx, -⟩ := h.delivers _ hwaits rfl hne
      rw [wokenTimed_zero] at hx
      cases hx
    · apply Or.inl hnil
  · intro h
    constructor
    · intro hne
      rw [popTimed, if_neg (fun hle => hne ((mSize_le_iff hq).mp hle))]
      apply popNow_takesOldest hq hne
    · intro t ht
      obtain ⟨hnil, rfl⟩ := popTimed_waits hq ht
      obtain hne | ⟨husec, hseconds, -⟩ := h
      · apply absurd hnil hne
      · exact ⟨(deadline_iff hnow.1 hms).mpr ⟨husec, hseconds⟩, deadline_range now hms⟩
    · intro t ht hret hne
      obtain ⟨hnil, rfl⟩ := popTimed_waits hq ht
      obtain hne' | ⟨-, -, hempty⟩ := h
      · apply absurd hnil hne'
      · apply absurd (hempty hret) hne
    · intro t ht hgave
      obtain ⟨hnil, rfl⟩ := popTimed_waits hq ht
      obtain ⟨hsame, hret | hempty⟩ := wokenTimed_gaveUp hwoken hgave
      · obtain hne | ⟨-, -, hempty⟩ := h
        · apply absurd hnil hne
        · exact ⟨hsame, Or.inr (hempty hret)⟩
      · exact ⟨hsame, Or.inr hempty⟩

/-- The queue with two places and no element. -/
def twoPlaces : BlockQueue ℕ := ⟨fun _ => 0, 0, 2, -1, -1⟩

theorem twoPlaces_valid :
  twoPlaces.Valid
  := (@ofMaxSize_valid ℕ _ 2 twoPlaces rfl).1

/-- A timeout of two seconds runs out. -/
theorem timely_iff_timeout :
  twoPlaces.Timely ⟨5, 0⟩ 2000 110 twoPlaces ↔ twoPlaces.OnTime ⟨5, 0⟩ 2000 110 twoPlaces
  := timely_iff twoPlaces_valid twoPlaces_valid (by decide) (by decide) 110

/-- The deadline for a timeout of a millisecond is a microsecond away. -/
theorem not_timely :
  ¬ ∀ q woken : BlockQueue ℕ, q.Valid → woken.Valid → ∀ now : Timeval,
    0 ≤ now.tvUsec ∧ now.tvUsec < 10 ^ 6 → ∀ msTimeout : ℤ, 0 ≤ msTimeout → ∀ ret : ℤ,
    q.Timely now msTimeout ret woken
  := by
  intro h
  have htimely := h twoPlaces twoPlaces twoPlaces_valid twoPlaces_valid ⟨5, 0⟩ (by decide) 1
    (by decide) 110
  apply absurd (htimely.deadline _ rfl).1 (by decide)

end BlockQueue

end WebServer
