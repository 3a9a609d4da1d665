import WebServer.Timer.Collection

/-!
# What the timers fire

A run of operations on the timer list, with a record of what was done to each timer.  An
address may be used again after its timer was deleted, so the record numbers the timers in
the order in which they were constructed.

`tick` calls the callbacks of the timers that are due, and of no others, in the order of the
list.  Over a whole run a timer is fired or deleted at most once, and the call gets the user
data that the timer was made with (`tick_fires_due`).
-/

open LinkedList

namespace WebServer

/-- The timer list with a record: the user data of the timers made so far, the number of the
timer last made at an address, the calls of `cb_func` with the number of their timer, and
the numbers of the timers passed to `del_timer`. -/
structure TimerLog where
  timers : SortTimerList
  made : List ℕ
  serial : ℕ → ℕ
  fired : List (ℕ × ℕ)
  deleted : List ℕ

namespace TimerLog

/-- Before the first operation. -/
def start : TimerLog where
  timers := SortTimerList.empty
  made := []
  serial := fun _ => 0
  fired := []
  deleted := []

/-- An operation on the timer list, recorded. -/
def step (w : TimerLog) : TimerOp → Option TimerLog
  | .add timer d => do
    let s ← w.timers.step (.add timer d)
    some { w with
      timers := s
      made := w.made ++ [d.userData]
      serial := Function.update w.serial timer w.made.length }
  | .adjust timer expire => do
    let s ← w.timers.step (.adjust timer expire)
    some { w with timers := s }
  | .del timer => do
    let s ← w.timers.step (.del timer)
    some { w with timers := s, deleted := w.deleted ++ [w.serial timer] }
  | .tick cur => do
    let (calls, s) ← w.timers.tick cur
    some { w with timers := s, fired := w.fired ++ calls.map fun call => (w.serial call.1, call.2) }

/-- The numbers of the timers that are no more. -/
def ended (w : TimerLog) : List ℕ := w.fired.map Prod.fst ++ w.deleted

/-- What is kept along a run: the timers in the list have numbers of their own, which are not
among those that ended. -/
structure Tracks (c : Collection) (w : TimerLog) : Prop where
  models : ∃ l, Models c w.timers l
  own : ∀ a x, c.timers a = some x → w.made[w.serial a]? = some x.data.userData
  inj : ∀ a b x y, c.timers a = some x → c.timers b = some y → w.serial a = w.serial b → a = b
  alive : ∀ a x, c.timers a = some x → w.serial a ∉ w.ended
  ended_lt : ∀ n ∈ w.ended, n < w.made.length
  nodup : w.ended.Nodup
  fired_own : ∀ call ∈ w.fired, w.made[call.1]? = some call.2

end TimerLog

/-! ### The callbacks of a tick -/

/-- In a list in order, the timers that fire are those at the front. -/
theorem Ascending.takeWhile_expired {l : List (ℕ × Entry)} (hl : Ascending l) (cur : ℤ) :
  (l.map unstamp).takeWhile (SortTimerList.expired cur)
    = (l.map unstamp).filter (SortTimerList.expired cur)
  := by
  induction l with
  | nil => rfl
  | cons x l ih =>
      obtain ⟨hx, hl⟩ := List.pairwise_cons.mp hl
      rw [List.map_cons, List.takeWhile_cons, List.filter_cons]
      split
      next => rw [ih hl]
      next hexp =>
        have hlt : cur < x.2.data.expire :=
          not_le.mp (of_decide_eq_false (Bool.eq_false_iff.mpr hexp))
        symm
        rw [List.filter_eq_nil_iff, List.forall_mem_map]
        intro y hy hexp'
        apply absurd (of_decide_eq_true hexp')
          (not_le.mpr (lt_of_lt_of_le hlt (hx y hy).expire_le))

/-- The timers are in the order in which they expire. -/
theorem Ascending.expire_le {l : List (ℕ × Entry)} (hl : Ascending l) :
  (l.map unstamp).Pairwise fun x y => x.2.expire ≤ y.2.expire
  := by
  rw [List.pairwise_map]
  apply List.Pairwise.imp _ hl
  intro x y h
  apply h.expire_le

/-- `tick` calls the callbacks of the timers that are due and leaves the others. -/
theorem Models.tick_calls {c : Collection} {s : SortTimerList} {l : List (ℕ × Entry)}
    (h : Models c s l) (cur : ℤ) :
  ∃ s', s.tick cur
      = some (SortTimerList.calls ((l.map unstamp).filter (SortTimerList.expired cur)), s') ∧
    s'.Holds ((l.map unstamp).filter fun t => !SortTimerList.expired cur t)
  := by
  obtain ⟨s', hs', hholds⟩ := h.holds.tick cur
  rw [h.ascending.takeWhile_expired] at hs'
  refine ⟨s', hs', ?_⟩
  have hleft : (l.map unstamp).dropWhile (SortTimerList.expired cur)
      = (l.map unstamp).filter fun t => !SortTimerList.expired cur t := by
    rw [h.ascending.dropWhile_expired, List.filter_map]
    congr 1
    apply List.filter_congr
    intro x _
    rw [Bool.eq_iff_iff]
    simp only [SortTimerList.expired, unstamp, Function.comp_apply, Bool.not_eq_true',
      decide_eq_true_eq]
    exact ⟨fun hlt => decide_eq_false (not_le.mpr hlt),
      fun hle => not_le.mp (of_decide_eq_false hle)⟩
  rw [← hleft]
  exact hholds

/-- The timers that are due are in the collection. -/
theorem Models.mem_due {c : Collection} {s : SortTimerList} {l : List (ℕ × Entry)}
    (h : Models c s l) {cur : ℤ} {t : ℕ × TimerData}
    (ht : t ∈ (l.map unstamp).filter (SortTimerList.expired cur)) :
  ∃ x, c.timers t.1 = some x ∧ x.data = t.2 ∧ x.data.expire ≤ cur
  := by
  obtain ⟨hmem, hexp⟩ := List.mem_filter.mp ht
  obtain ⟨x, hx, rfl⟩ := List.mem_map.mp hmem
  exact ⟨x.2, (h.mem_iff x.1 x.2).mpr hx, rfl, of_decide_eq_true hexp⟩

namespace TimerLog

/-- The numbers in the record of the calls for some timers. -/
theorem map_calls (serial : ℕ → ℕ) (l : List (ℕ × TimerData)) :
  ((SortTimerList.calls l).map fun call => (serial call.1, call.2)).map Prod.fst
    = (addresses l).map serial
  := by
  rw [SortTimerList.calls, addresses, List.map_map, List.map_map, List.map_map]
  rfl

/-! ### What one operation keeps -/

theorem start_tracks :
  Tracks Collection.empty start
  where
  models := ⟨[], empty_models⟩
  own := nofun
  inj := nofun
  alive := nofun
  ended_lt := nofun
  nodup := List.nodup_nil
  fired_own := nofun

/-- The number of a timer in the list is one of those given out. -/
theorem Tracks.serial_lt {c : Collection} {w : TimerLog} (h : Tracks c w) {a : ℕ} {x : Entry}
    (ha : c.timers a = some x) :
  w.serial a < w.made.length
  := by
  obtain ⟨hlt, -⟩ := List.getElem?_eq_some_iff.mp (h.own a x ha)
  exact hlt

/-- The timers after one was put into the collection. -/
theorem put_eq_some {c : Collection} {a b : ℕ} {d : TimerData} {y : Entry}
    (h : (c.put a d).timers b = some y) :
  (b = a ∧ y.data = d) ∨ (b ≠ a ∧ c.timers b = some y)
  := by
  rw [Collection.put] at h
  dsimp only at h
  rw [Function.update_apply] at h
  split at h
  next hb =>
    obtain rfl := Option.some.inj h
    apply Or.inl ⟨hb, rfl⟩
  next hb => exact Or.inr ⟨hb, h⟩

/-- A timer is made, with the next number. -/
theorem Tracks.add {c : Collection} {w : TimerLog} (h : Tracks c w) {a : ℕ}
    (ha : c.timers a = none) (d : TimerData) :
  ∃ w', w.step (.add a d) = some w' ∧ Tracks (c.put a d) w'
  := by
  obtain ⟨l, hl⟩ := h.models
  obtain ⟨s, hs, hmodels⟩ := hl.add ha d
  have hnew : Function.update w.serial a w.made.length a = w.made.length :=
    Function.update_self ..
  have hold {b : ℕ} (hb : b ≠ a) : Function.update w.serial a w.made.length b = w.serial b :=
    Function.update_of_ne hb ..
  have hstays {n u : ℕ} (hn : w.made[n]? = some u) : (w.made ++ [d.userData])[n]? = some u := by
    rw [List.getElem?_append_left (List.getElem?_eq_some_iff.mp hn).1]
    exact hn
  refine ⟨{ w with
    timers := s
    made := w.made ++ [d.userData]
    serial := Function.update w.serial a w.made.length }, ?_, ⟨_, hmodels⟩, ?_, ?_, ?_, ?_, h.nodup,
      ?_⟩
  · rw [step, hs]
    rfl
  · intro b y hb
    dsimp only
    rcases put_eq_some hb with ⟨rfl, hy⟩ | ⟨hne, hb⟩
    · rw [hnew, hy, List.getElem?_concat_length]
    · rw [hold hne]
      apply hstays (h.own b y hb)
  · intro b b' y y' hb hb' hserial
    dsimp only at hserial
    rcases put_eq_some hb with ⟨hba, -⟩ | ⟨hne, hbefore⟩
    · rcases put_eq_some hb' with ⟨hba', -⟩ | ⟨hne', hbefore'⟩
      · apply hba.trans hba'.symm
      · rw [hba, hnew, hold hne'] at hserial
        apply absurd hserial (h.serial_lt hbefore').ne'
    · rw [hold hne] at hserial
      rcases put_eq_some hb' with ⟨hba', -⟩ | ⟨hne', hbefore'⟩
      · rw [hba', hnew] at hserial
        apply absurd hserial (h.serial_lt hbefore).ne
      · rw [hold hne'] at hserial
        apply h.inj b b' y y' hbefore hbefore' hserial
  · intro b y hb
    dsimp only
    rcases put_eq_some hb with ⟨rfl, -⟩ | ⟨hne, hb⟩
    · rw [hnew]
      intro hmem
      apply absurd (h.ended_lt _ hmem) (lt_irrefl _)
    · rw [hold hne]
      apply h.alive b y hb
  · intro n hn
    dsimp only
    rw [List.length_append]
    exact (h.ended_lt n hn).trans_le (Nat.le_add_right _ _)
  · intro call hcall
    apply hstays (h.fired_own call hcall)

/-- A timer goes on with its number and its user data. -/
theorem Tracks.adjust {c : Collection} {w : TimerLog} (h : Tracks c w) {a : ℕ} {x : Entry}
    (ha : c.timers a = some x) {expire : ℤ} (hle : x.data.expire ≤ expire) :
  ∃ w', w.step (.adjust a expire) = some w' ∧
    Tracks (c.put a { x.data with expire := expire }) w'
  := by
  obtain ⟨l, hl⟩ := h.models
  obtain ⟨s, l', hs, hmodels⟩ := hl.adjust ha hle
  have hbefore : ∀ b y, (c.put a { x.data with expire := expire }).timers b = some y →
      ∃ z, c.timers b = some z ∧ z.data.userData = y.data.userData := by
    intro b y hb
    rcases put_eq_some hb with ⟨rfl, hy⟩ | ⟨-, hb⟩
    · exact ⟨x, ha, by rw [hy]⟩
    · exact ⟨y, hb, rfl⟩
  refine ⟨{ w with timers := s }, ?_, ⟨l', hmodels⟩, ?_, ?_, ?_, h.ended_lt, h.nodup,
    h.fired_own⟩
  · rw [step, hs]
    rfl
  · intro b y hb
    obtain ⟨z, hz, hdata⟩ := hbefore b y hb
    rw [← hdata]
    apply h.own b z hz
  · intro b b' y y' hb hb'
    obtain ⟨z, hz, -⟩ := hbefore b y hb
    obtain ⟨z', hz', -⟩ := hbefore b' y' hb'
    apply h.inj b b' z z' hz hz'
  · intro b y hb
    obtain ⟨z, hz, -⟩ := hbefore b y hb
    apply h.alive b z hz

/-- The timers at the addresses `gone` are fired or deleted. -/
theorem Tracks.finish {c c' : Collection} {w w' : TimerLog} (h : Tracks c w)
    (hmodels : ∃ l, Models c' w'.timers l) (hmade : w'.made = w.made)
    (hserial : w'.serial = w.serial) {gone : List ℕ} (hgone : gone.Nodup)
    (hended : w'.ended.Perm (gone.map w.serial ++ w.ended))
    (hlive : ∀ a ∈ gone, ∃ x, c.timers a = some x)
    (hrest : ∀ a x, c'.timers a = some x → c.timers a = some x ∧ a ∉ gone)
    (hfired : ∀ call ∈ w'.fired, w.made[call.1]? = some call.2) :
  Tracks c' w'
  := by
  have hmem (n : ℕ) : n ∈ w'.ended ↔ (∃ a ∈ gone, w.serial a = n) ∨ n ∈ w.ended := by
    rw [hended.mem_iff, List.mem_append, List.mem_map]
  refine ⟨hmodels, ?_, ?_, ?_, ?_, ?_, ?_⟩
  · intro a x ha
    rw [hmade, hserial]
    apply h.own a x (hrest a x ha).1
  · intro a b x y ha hb
    rw [hserial]
    apply h.inj a b x y (hrest a x ha).1 (hrest b y hb).1
  · intro a x ha
    obtain ⟨hbefore, hstays⟩ := hrest a x ha
    rw [hserial, hmem]
    rintro (⟨b, hb, heq⟩ | hold)
    · obtain ⟨y, hy⟩ := hlive b hb
      apply hstays
      rw [← h.inj b a y x hy hbefore heq]
      exact hb
    · apply h.alive a x hbefore hold
  · intro n hn
    rw [hmade]
    rcases (hmem n).mp hn with ⟨a, ha, rfl⟩ | hold
    · obtain ⟨x, hx⟩ := hlive a ha
      apply h.serial_lt hx
    · apply h.ended_lt n hold
  · rw [hended.nodup_iff, List.nodup_append]
    refine ⟨?_, h.nodup, ?_⟩
    · apply hgone.map_on
      intro a ha b hb
      obtain ⟨x, hx⟩ := hlive a ha
      obtain ⟨y, hy⟩ := hlive b hb
      apply h.inj a b x y hx hy
    · rintro n hn m hm rfl
      obtain ⟨a, ha, rfl⟩ := List.mem_map.mp hn
      obtain ⟨x, hx⟩ := hlive a ha
      apply h.alive a x hx hm
  · rw [hmade]
    exact hfired

/-- A timer is deleted. -/
theorem Tracks.del {c : Collection} {w : TimerLog} (h : Tracks c w) {a : ℕ} {x : Entry}
    (ha : c.timers a = some x) :
  ∃ w', w.step (.del a) = some w' ∧
    Tracks { c with timers := Function.update c.timers a none } w'
  := by
  obtain ⟨l, hl⟩ := h.models
  obtain ⟨s, l', hs, hmodels⟩ := hl.del ha
  refine ⟨{ w with timers := s, deleted := w.deleted ++ [w.serial a] }, ?_, ?_⟩
  · rw [step, hs]
    rfl
  · refine h.finish ⟨l', hmodels⟩ rfl rfl (List.nodup_singleton a) ?_ ?_ ?_ h.fired_own
    · change (w.fired.map Prod.fst ++ (w.deleted ++ [w.serial a])).Perm _
      rw [← List.append_assoc]
      apply List.perm_append_comm
    · intro b hb
      rw [List.mem_singleton.mp hb]
      exact ⟨x, ha⟩
    · intro b y hb
      dsimp only at hb
      rw [Function.update_apply] at hb
      split at hb
      next => cases hb
      next hne => exact ⟨hb, fun hmem => hne (List.mem_singleton.mp hmem)⟩

/-- The timers that are due are fired. -/
theorem Tracks.tick {c : Collection} {w : TimerLog} (h : Tracks c w) (cur : ℤ) :
  ∃ w', w.step (.tick cur) = some w' ∧
    Tracks { c with timers := fun a => (c.timers a).filter (cur < ·.data.expire) } w'
  := by
  obtain ⟨l, hl⟩ := h.models
  obtain ⟨s, l', hs, hmodels⟩ := hl.tick cur
  obtain ⟨s', hs', -⟩ := hl.tick_calls cur
  rw [SortTimerList.step, hs', Option.map_some] at hs
  obtain rfl := Option.some.inj hs
  let due := (l.map unstamp).filter (SortTimerList.expired cur)
  refine ⟨{ w with
    timers := s'
    fired := w.fired ++ (SortTimerList.calls due).map fun call => (w.serial call.1, call.2) },
      ?_, ?_⟩
  · rw [step, hs']
    rfl
  · have hgone : (addresses due).Nodup := by
      apply List.Nodup.sublist (List.filter_sublist.map Prod.fst)
      apply hl.holds.nodup
    refine h.finish ⟨l', hmodels⟩ rfl rfl hgone ?_ ?_ ?_ ?_
    · change ((w.fired ++ _).map Prod.fst ++ w.deleted).Perm _
      rw [List.map_append, ended, map_calls]
      apply (List.perm_append_comm.append_right _).trans
      rw [List.append_assoc]
    · intro a ha
      obtain ⟨t, ht, rfl⟩ := List.mem_map.mp ha
      obtain ⟨x, hx, -⟩ := hl.mem_due ht
      exact ⟨x, hx⟩
    · intro a x ha
      obtain ⟨hx, hlater⟩ := Option.filter_eq_some_iff.mp ha
      refine ⟨hx, ?_⟩
      intro hmem
      obtain ⟨t, ht, rfl⟩ := List.mem_map.mp hmem
      obtain ⟨y, hy, -, hle⟩ := hl.mem_due ht
      obtain rfl := Option.some.inj (hx.symm.trans hy)
      apply absurd (of_decide_eq_true hlater) (not_lt.mpr hle)
    · intro call hcall
      rcases List.mem_append.mp hcall with hcall | hcall
      · apply h.fired_own call hcall
      · rw [SortTimerList.calls, List.map_map] at hcall
        obtain ⟨t, ht, rfl⟩ := List.mem_map.mp hcall
        obtain ⟨x, hx, hdata, -⟩ := hl.mem_due ht
        have hown := h.own t.1 x hx
        rw [hdata] at hown
        exact hown

/-- An operation that the collection takes keeps the record right. -/
theorem Tracks.step {c : Collection} {w : TimerLog} (h : Tracks c w) {op : TimerOp}
    {c' : Collection} (hc : c.step op = some c') :
  ∃ w', w.step op = some w' ∧ Tracks c' w'
  := by
  cases op with
  | add a d =>
      rw [Collection.step] at hc
      split at hc
      next ha =>
        obtain rfl := Option.some.inj hc
        apply h.add ha d
      next => cases hc
  | adjust a expire =>
      rw [Collection.step] at hc
      split at hc
      next => cases hc
      next x ha =>
        split at hc
        next hle =>
          obtain rfl := Option.some.inj hc
          apply h.adjust ha hle
        next => cases hc
  | del a =>
      rw [Collection.step] at hc
      split at hc
      next => cases hc
      next x ha =>
        obtain rfl := Option.some.inj hc
        apply h.del ha
  | tick cur =>
      obtain rfl := Option.some.inj hc
      apply h.tick cur

end TimerLog

/-- Behind every run of operations, `tick` calls the callbacks of the timers that are due, in
the order of the list, and leaves the others as they are; and no timer was both fired and
deleted, or one of these twice. -/
theorem tick_fires_due {ops : List TimerOp} {c : Collection}
    (h : Run.exec Collection.step Collection.empty ops = some c) :
  ∃ w l, Run.exec TimerLog.step TimerLog.start ops = some w ∧
    w.timers.Holds l ∧ (l.Pairwise fun x y => x.2.expire ≤ y.2.expire) ∧
    (∀ cur, ∃ s', w.timers.tick cur
        = some (SortTimerList.calls (l.filter (SortTimerList.expired cur)), s') ∧
      s'.Holds (l.filter fun t => !SortTimerList.expired cur t)) ∧
    (w.fired.map Prod.fst ++ w.deleted).Nodup ∧
    ∀ call ∈ w.fired, w.made[call.1]? = some call.2
  := by
  have sim : ∀ c w op c', TimerLog.Tracks c w → Collection.step c op = some c' →
      ∃ w', TimerLog.step w op = some w' ∧ TimerLog.Tracks c' w' := by
    intro c w op c' htracks hc
    apply htracks.step hc
  obtain ⟨w, hw, htracks⟩ := Run.exec_simulation sim TimerLog.start_tracks h
  obtain ⟨l, hl⟩ := htracks.models
  exact ⟨w, l.map unstamp, hw, hl.holds, hl.ascending.expire_le, hl.tick_calls, htracks.nodup,
    htracks.fired_own⟩

/-- Two timers, of which one is adjusted and fired and the other deleted, and a third one at
the address of the first. -/
theorem tick_fires_due_three :
  ∃ w l, Run.exec TimerLog.step TimerLog.start
      [.add 1 ⟨15, 7⟩, .add 2 ⟨20, 8⟩, .adjust 1 18, .tick 18, .del 2, .add 1 ⟨30, 9⟩] = some w ∧
    w.timers.Holds l ∧ (l.Pairwise fun x y => x.2.expire ≤ y.2.expire) ∧
    (∀ cur, ∃ s', w.timers.tick cur
        = some (SortTimerList.calls (l.filter (SortTimerList.expired cur)), s') ∧
      s'.Holds (l.filter fun t => !SortTimerList.expired cur t)) ∧
    (w.fired.map Prod.fst ++ w.deleted).Nodup ∧
    ∀ call ∈ w.fired, w.made[call.1]? = some call.2
  := by
  obtain ⟨c, hc⟩ := Option.isSome_iff_exists.mp
    (show (Run.exec Collection.step Collection.empty
      [.add 1 ⟨15, 7⟩, .add 2 ⟨20, 8⟩, .adjust 1 18, .tick 18, .del 2,
        .add 1 ⟨30, 9⟩]).isSome = true by decide)
  apply tick_fires_due hc

end WebServer
