import WebServer.Server.Accounting
import WebServer.Server.Progress
import WebServer.Timer.Firing

/-!
# Connections that are idle

A timer is set to three time slots behind the last activity of its connection: when it was
accepted, and whenever `main` has read from it or written to it.  The machine `Watched` is
the server together with the time and the last activity of every connection.

As long as the time does not go back, the list of the timers stays in the order of their
expiry, and `tick` closes exactly those connections for which a timer of their slot is due
(`tick_closes_iff`).  That is the own timer, when the connection is idle for three time
slots, or one that a connection left behind which had the descriptor before and was closed
by a worker.
-/

open CString LinkedList

namespace WebServer

/-! ### The time -/

/-- The time that a step looks at. -/
def ServerEvent.time {ω : Type} : ServerEvent ω → Option ℤ
  | .accept _ _ cur _ | .read _ cur | .write _ cur | .endBatch cur => some cur
  | .wait _ | .hup | .alarm _ | .pass | .take _ | .process _ _ | .closeConn _ | .modfd _ => none

/-- The server, the last time that it looked at, and the last activity of the connections. -/
structure Watched (ω : Type) where
  server : Server ω
  now : ℤ
  active : ℕ → ℤ

namespace Watched

variable {ω : Type}

/-- Before the first connection. -/
def start (s : Server ω) (now : ℤ) : Watched ω := ⟨s, now, fun _ => now⟩

/-- The connection that `main` accepts, reads from or writes to. -/
def busy (s : Server ω) : ServerEvent ω → Option ℕ
  | .accept _ _ _ _ => some s.accepted
  | .read _ _ | .write _ _ =>
    match s.batch with
    | some (.client fd _ :: _) => some (s.conn fd)
    | _ => none
  | .wait _ | .hup | .alarm _ | .pass | .endBatch _ | .take _ | .process _ _ | .closeConn _
  | .modfd _ => none

/-- A step of the server. -/
def step [DecidableEq ω] (w : Watched ω) (e : ServerEvent ω) : Option (Watched ω) :=
  (w.server.step e).map fun s => {
    server := s
    now := e.time.getD w.now
    active := (busy w.server e).elim w.active fun n =>
      Function.update w.active n (e.time.getD w.now) }

/-- The time does not go back. -/
def Forward (w : Watched ω) (e : ServerEvent ω) : Prop := ∀ cur, e.time = some cur → w.now ≤ cur

end Watched

/-! ### The timers as a collection -/

/-- The timers of `c` are of different connections that were accepted, and each is set to
three time slots behind the last activity of its connection. -/
structure Ages (c : Collection) (timerConn : ℕ → ℕ) (accepted : ℕ) (active : ℕ → ℤ) (now : ℤ) :
    Prop where
  due : ∀ t x, c.timers t = some x → x.data.expire = active (timerConn t) + 3 * timeslot
  past : ∀ t x, c.timers t = some x → active (timerConn t) ≤ now
  own : ∀ t x, c.timers t = some x → timerConn t < accepted
  inj : ∀ t t' x x', c.timers t = some x → c.timers t' = some x' → timerConn t = timerConn t' →
    t = t'

section Ages

variable {c : Collection} {timerConn : ℕ → ℕ} {accepted : ℕ} {active : ℕ → ℤ} {now cur : ℤ}

theorem empty_ages (timerConn : ℕ → ℕ) (accepted : ℕ) (active : ℕ → ℤ) (now : ℤ) :
  Ages Collection.empty timerConn accepted active now
  := ⟨nofun, nofun, nofun, nofun⟩

/-- Timers are taken out, while some time passes. -/
theorem Ages.sub (h : Ages c timerConn accepted active now) {c' : Collection}
    (hsub : ∀ t x, c'.timers t = some x → c.timers t = some x) (hcur : now ≤ cur) :
  Ages c' timerConn accepted active cur
  where
  due := fun t x ht => h.due t x (hsub t x ht)
  past := fun t x ht => (h.past t x (hsub t x ht)).trans hcur
  own := fun t x ht => h.own t x (hsub t x ht)
  inj := fun t t' x x' ht ht' => h.inj t t' x x' (hsub t x ht) (hsub t' x' ht')

/-- A connection without a timer is active. -/
theorem Ages.touch (h : Ages c timerConn accepted active now) {n : ℕ}
    (hn : ∀ t x, c.timers t = some x → timerConn t ≠ n) (cur : ℤ) :
  Ages c timerConn accepted (Function.update active n cur) now
  where
  due := fun t x ht => by
    rw [Function.update_of_ne (hn t x ht)]
    apply h.due t x ht
  past := fun t x ht => by
    rw [Function.update_of_ne (hn t x ht)]
    apply h.past t x ht
  own := h.own
  inj := h.inj

/-- The timer of a connection that is active is put off. -/
theorem Ages.adjust (h : Ages c timerConn accepted active now) {t : ℕ} {x : Entry}
    (ht : c.timers t = some x) (hcur : now ≤ cur) :
  Ages (c.put t { x.data with expire := cur + 3 * timeslot }) timerConn accepted
    (Function.update active (timerConn t) cur) cur
  := by
  have hother : ∀ t' y, t' ≠ t → c.timers t' = some y → timerConn t' ≠ timerConn t :=
    fun t' y hne ht' heq => hne (h.inj t' t y x ht' ht heq)
  refine ⟨?_, ?_, ?_, ?_⟩
  · intro t' y hy
    rcases TimerLog.put_eq_some hy with ⟨rfl, hdata⟩ | ⟨hne, hy⟩
    · rw [hdata, Function.update_self]
    · rw [Function.update_of_ne (hother t' y hne hy)]
      apply h.due t' y hy
  · intro t' y hy
    rcases TimerLog.put_eq_some hy with ⟨rfl, -⟩ | ⟨hne, hy⟩
    · rw [Function.update_self]
    · rw [Function.update_of_ne (hother t' y hne hy)]
      apply (h.past t' y hy).trans hcur
  · intro t' y hy
    rcases TimerLog.put_eq_some hy with ⟨rfl, -⟩ | ⟨-, hy⟩
    · apply h.own t' x ht
    · apply h.own t' y hy
  · intro t₁ t₂ y₁ y₂ h₁ h₂
    have hmem : ∀ t' y, (c.put t { x.data with expire := cur + 3 * timeslot }).timers t' = some y →
        ∃ y', c.timers t' = some y' := by
      intro t' y hy
      rcases TimerLog.put_eq_some hy with ⟨rfl, -⟩ | ⟨-, hy⟩
      · exact ⟨x, ht⟩
      · exact ⟨y, hy⟩
    obtain ⟨y₁', h₁'⟩ := hmem t₁ y₁ h₁
    obtain ⟨y₂', h₂'⟩ := hmem t₂ y₂ h₂
    apply h.inj t₁ t₂ y₁' y₂' h₁' h₂'

/-- The next connection gets a timer. -/
theorem Ages.add (h : Ages c timerConn accepted active now) {t fd : ℕ}
    (ht : c.timers t = none) (hcur : now ≤ cur) :
  Ages (c.put t ⟨cur + 3 * timeslot, fd⟩) (Function.update timerConn t accepted) (accepted + 1)
    (Function.update active accepted cur) cur
  := by
  have hother : ∀ t' y, c.timers t' = some y →
      Function.update timerConn t accepted t' = timerConn t' := by
    intro t' y hy
    apply Function.update_of_ne
    rintro rfl
    cases ht.symm.trans hy
  have hactive : ∀ t' y, c.timers t' = some y →
      Function.update active accepted cur (timerConn t') = active (timerConn t') :=
    fun t' y hy => Function.update_of_ne (h.own t' y hy).ne ..
  refine ⟨?_, ?_, ?_, ?_⟩
  · intro t' y hy
    rcases TimerLog.put_eq_some hy with ⟨rfl, hdata⟩ | ⟨-, hy⟩
    · rw [hdata, Function.update_self, Function.update_self]
    · rw [hother t' y hy, hactive t' y hy]
      apply h.due t' y hy
  · intro t' y hy
    rcases TimerLog.put_eq_some hy with ⟨rfl, -⟩ | ⟨-, hy⟩
    · rw [Function.update_self, Function.update_self]
    · rw [hother t' y hy, hactive t' y hy]
      apply (h.past t' y hy).trans hcur
  · intro t' y hy
    rcases TimerLog.put_eq_some hy with ⟨rfl, -⟩ | ⟨-, hy⟩
    · rw [Function.update_self]
      apply Nat.lt_succ_self
    · rw [hother t' y hy]
      apply Nat.lt_succ_of_lt (h.own t' y hy)
  · intro t₁ t₂ y₁ y₂ h₁ h₂ heq
    rcases TimerLog.put_eq_some h₁ with ⟨rfl, -⟩ | ⟨-, hy₁⟩
    · rcases TimerLog.put_eq_some h₂ with ⟨rfl, -⟩ | ⟨-, hy₂⟩
      · rfl
      · rw [Function.update_self, hother t₂ y₂ hy₂] at heq
        apply absurd heq.symm (h.own t₂ y₂ hy₂).ne
    · rcases TimerLog.put_eq_some h₂ with ⟨rfl, -⟩ | ⟨-, hy₂⟩
      · rw [Function.update_self, hother t₁ y₁ hy₁] at heq
        apply absurd heq (h.own t₁ y₁ hy₁).ne
      · rw [hother t₁ y₁ hy₁, hother t₂ y₂ hy₂] at heq
        apply h.inj t₁ t₂ y₁ y₂ hy₁ hy₂ heq

end Ages

namespace Server

variable {ω : Type}

/-! ### The operations of `main` -/

/-- The timers of the server are a collection in order, and each is set to three time slots
behind the last activity of its connection. -/
def Aged (s : Server ω) (active : ℕ → ℤ) (now : ℤ) : Prop :=
  ∃ c l, Models c s.timerLst l ∧ Ages c s.timerConn s.accepted active now

/-- The slot of a descriptor points to a timer of the connection that has it. -/
def Tended (s : Server ω) (fd : ℕ) : Prop :=
  ∀ t, (s.usersTimer fd).timer = some t → s.timerConn t = s.conn fd

section Aged

variable {s s' : Server ω} {l : List (ℕ × TimerData)} {active : ℕ → ℤ} {now cur : ℤ} {fd : ℕ}

/-- A timer that is not deleted is in the list. -/
theorem mem_of_cell {lst : SortTimerList} (h : lst.Holds l) {t : ℕ} {cell : UtilTimer}
    (hcell : lst.heap t = some cell) :
  (t, cell.value) ∈ l
  := by
  have hmem : t ∈ addresses l := by
    rw [← h.cells, hcell]
    rfl
  obtain ⟨⟨t', d⟩, hd, rfl⟩ := List.mem_map.mp hmem
  obtain ⟨a, b, rfl⟩ := List.append_of_mem hd
  have hcell' : lst.heap t' = some ⟨d, last none a, first b none⟩ := h.seg.cell
  obtain rfl := Option.some.inj (hcell.symm.trans hcell')
  exact hd

/-- A timer that is not deleted is in the collection. -/
theorem entry_of_cell {c : Collection} {lst : SortTimerList} {l : List (ℕ × Entry)}
    (h : Models c lst l) {t : ℕ} {cell : UtilTimer} (hcell : lst.heap t = some cell) :
  ∃ x, c.timers t = some x ∧ x.data = cell.value
  := by
  obtain ⟨⟨t', x⟩, hx, heq⟩ := List.mem_map.mp (mem_of_cell h.holds hcell)
  obtain ⟨rfl, hdata⟩ := Prod.mk.inj heq
  exact ⟨x, (h.mem_iff t' x).mpr hx, hdata⟩

/-- The timer of a slot is in the collection. -/
theorem Attached.entry (hfd : s.Attached l fd)
    (hholds : s.timerLst.Holds l) {c : Collection} {l' : List (ℕ × Entry)}
    (hmodels : Models c s.timerLst l') :
  ∃ t x, s.usersTimer fd = ⟨fd, some t⟩ ∧ c.timers t = some x ∧ x.data.userData = fd
  := by
  obtain ⟨t, d, a, b, rfl, rfl, hslot⟩ := hfd.split
  have hcell : s.timerLst.heap t = some ⟨d, last none a, first b none⟩ := hholds.seg.cell
  obtain ⟨x, hx, hdata⟩ := entry_of_cell hmodels hcell
  exact ⟨t, x, hslot, hx, congrArg TimerData.userData hdata⟩

/-- Putting a timer off is `adjust_timer`. -/
theorem delayTimer_step {t : ℕ} (hslot : s.usersTimer fd = ⟨fd, some t⟩)
    (hs' : s.delayTimer fd cur = some s') :
  ∃ lst, s.timerLst.step (.adjust t (cur + 3 * timeslot)) = some lst ∧
    s' = { s with timerLst := lst }
  := by
  rw [delayTimer, hslot] at hs'
  obtain ⟨lst₁, hlst₁, hs'⟩ := Option.bind_eq_some_iff.mp hs'
  obtain ⟨lst, hlst, hs'⟩ := Option.bind_eq_some_iff.mp hs'
  refine ⟨lst, ?_, (Option.some.inj hs').symm⟩
  rw [SortTimerList.step, hlst₁]
  exact hlst

/-- The timer of a connection that is active is put off. -/
theorem Aged.delayTimer (h : s.Aged active now) (htimed : s.Timed l) (hfd : s.Attached l fd)
    (htended : s.Tended fd) (hcur : now ≤ cur) (hs' : s.delayTimer fd cur = some s') :
  s'.Aged (Function.update active (s.conn fd) cur) cur
  := by
  obtain ⟨c, l', hmodels, hages⟩ := h
  obtain ⟨t, x, hslot, hx, -⟩ := hfd.entry htimed.holds hmodels
  obtain ⟨lst, hlst, rfl⟩ := delayTimer_step hslot hs'
  have hle : x.data.expire ≤ cur + 3 * timeslot := by
    have hdue := hages.due t x hx
    have hpast := hages.past t x hx
    omega
  obtain ⟨lst', l'', hlst', hmodels'⟩ := hmodels.adjust hx hle
  obtain rfl := Option.some.inj (hlst.symm.trans hlst')
  have hconn : s.timerConn t = s.conn fd := htended t (by rw [hslot])
  rw [← hconn]
  exact ⟨_, l'', hmodels', hages.adjust hx hcur⟩

/-- The timer of a connection that is closed is taken out. -/
theorem Aged.closeByTimer (h : s.Aged active now) (htimed : s.Timed l) (hfd : s.Attached l fd)
    (htended : s.Tended fd) (hcur : now ≤ cur) (hs' : s.closeByTimer fd = some s') :
  s'.Aged active cur ∧ s'.Aged (Function.update active (s.conn fd) cur) cur
  := by
  obtain ⟨c, l', hmodels, hages⟩ := h
  obtain ⟨t, x, hslot, hx, -⟩ := hfd.entry htimed.holds hmodels
  obtain ⟨t', lst, ht', hlst, rfl⟩ := closeByTimer_eq_some hs'
  rw [hslot] at ht'
  obtain rfl := Option.some.inj ht'
  obtain ⟨lst', l'', hlst', hmodels'⟩ := hmodels.del hx
  obtain rfl := Option.some.inj (hlst.symm.trans hlst')
  have hsub : ∀ t' y, Function.update c.timers t none t' = some y →
      t' ≠ t ∧ c.timers t' = some y := by
    intro t' y hy
    by_cases heq : t' = t
    · rw [heq, Function.update_self] at hy
      cases hy
    · rw [Function.update_of_ne heq] at hy
      exact ⟨heq, hy⟩
  have hages' : Ages { c with timers := Function.update c.timers t none } s.timerConn s.accepted
      active cur :=
    hages.sub (fun t' y hy => (hsub t' y hy).2) hcur
  have hconn : s.timerConn t = s.conn fd := htended t (by rw [hslot])
  refine ⟨⟨_, l'', hmodels', hages'⟩, ⟨_, l'', hmodels', hages'.touch ?_ cur⟩⟩
  intro t' y hy heq
  obtain ⟨hne, hy⟩ := hsub t' y hy
  exact hne (hages.inj t' t y x hy hx (heq.trans hconn.symm))

/-- A connection that is accepted gets a timer. -/
theorem Aged.acceptConn (h : s.Aged active now) {timer : ℕ} {added : Registration}
    (hcur : now ≤ cur) (hs' : s.acceptConn fd timer cur added = some s') :
  s'.Aged (Function.update active s.accepted cur) cur
  := by
  obtain ⟨c, l', hmodels, hages⟩ := h
  obtain ⟨-, ⟨-, rfl⟩ | ⟨-, hs'⟩⟩ := acceptConn_eq_some hs'
  · refine ⟨c, l', hmodels, (hages.sub (fun _ _ ht => ht) hcur).touch ?_ cur⟩
    exact fun t x ht => (hages.own t x ht).ne
  · obtain ⟨lst₁, lst, hlst₁, hlst, rfl⟩ := addTimer_eq_some hs'
    have hfree : c.timers timer = none := by
      have hnot := hmodels.holds.not_mem_of_newTimer hlst₁
      rw [addresses_unstamp] at hnot
      rw [Option.eq_none_iff_forall_ne_some]
      intro x hx
      exact hnot (List.mem_map.mpr ⟨(timer, x), (hmodels.mem_iff timer x).mp hx, rfl⟩)
    obtain ⟨lst', hlst', hmodels'⟩ := hmodels.add hfree ⟨cur + 3 * timeslot, fd⟩
    rw [SortTimerList.step] at hlst'
    change (s.timerLst.newTimer timer _).bind _ = _ at hlst'
    change s.timerLst.newTimer timer _ = _ at hlst₁
    rw [hlst₁, Option.bind_some, hlst] at hlst'
    obtain rfl := Option.some.inj hlst'
    have hnew : (s.initConn fd added).conn fd = s.accepted := Function.update_self ..
    refine ⟨_, _, hmodels', ?_⟩
    dsimp only
    rw [hnew]
    exact hages.add hfree hcur

/-- `tick` leaves the timers that are not due, and closes the descriptors of the others. -/
theorem Aged.tick (h : s.Aged active now) {l : List (ℕ × TimerData)} (htimed : s.Timed l)
    (hcur : now ≤ cur) (hs' : s.tick cur = some s') :
  s'.Aged active cur ∧ ∀ fd, fd ∈ s'.opened ↔ fd ∈ s.opened ∧
    ∀ t cell, s.timerLst.heap t = some cell → cell.value.userData = fd →
      cur < active (s.timerConn t) + 3 * timeslot
  := by
  obtain ⟨c, l', hmodels, hages⟩ := h
  obtain ⟨lst, l'', hlst, hmodels'⟩ := hmodels.tick cur
  obtain ⟨lst', hlst', -⟩ := hmodels.tick_calls cur
  rw [SortTimerList.step, hlst'] at hlst
  obtain rfl := Option.some.inj hlst
  rw [Server.tick, hlst'] at hs'
  obtain rfl := Option.some.inj hs'
  have hslot : ∀ call ∈ SortTimerList.calls ((l'.map unstamp).filter (SortTimerList.expired cur)),
      (s.usersTimer call.2).sockfd = call.2 := by
    intro call hcall
    obtain ⟨⟨t, d⟩, ht, rfl⟩ := List.mem_map.mp hcall
    obtain ⟨x, hx, rfl, -⟩ := hmodels.mem_due ht
    obtain ⟨p, q, hcell⟩ := hmodels.agrees.value t x hx
    apply htimed.slot (t, x.data.userData)
    exact List.mem_map.mpr ⟨(t, x.data), mem_of_cell htimed.holds hcell, rfl⟩
  have hopened := fun fd => @mem_foldl_cbFunc ω fd s _ hslot
  obtain ⟨opened, epoll, userCount, subtracted, fired, heq⟩ := foldl_cbFunc_eq s
    (SortTimerList.calls ((l'.map unstamp).filter (SortTimerList.expired cur)))
  constructor
  · rw [heq]
    refine ⟨_, l'', hmodels', hages.sub ?_ hcur⟩
    intro t x ht
    exact (Option.filter_eq_some_iff.mp ht).1
  · intro fd
    rw [hopened fd]
    apply and_congr_right
    intro _
    constructor
    · intro hne t cell hcell hfd
      obtain ⟨x, hx, hdata⟩ := entry_of_cell hmodels hcell
      by_contra hdue
      rw [← hages.due t x hx, hdata, not_lt] at hdue
      apply hne (t, fd) _ rfl
      refine List.mem_map.mpr ⟨(t, cell.value), List.mem_filter.mpr ⟨?_, decide_eq_true hdue⟩, ?_⟩
      · exact mem_of_cell hmodels.holds hcell
      · rw [hfd]
    · intro hlater call hcall heq
      obtain ⟨⟨t, d⟩, ht, rfl⟩ := List.mem_map.mp hcall
      obtain ⟨x, hx, rfl, hdue⟩ := hmodels.mem_due ht
      obtain ⟨p, q, hcell⟩ := hmodels.agrees.value t x hx
      have hlt := hlater t _ hcell heq
      rw [← hages.due t x hx] at hlt
      exact absurd hdue (not_le.mpr hlt)

/-- Nothing happens to the timers, while some time passes. -/
theorem Aged.congr (h : s.Aged active now) (hlst : s'.timerLst = s.timerLst)
    (hconn : s'.timerConn = s.timerConn) (haccepted : s'.accepted = s.accepted)
    (hcur : now ≤ cur) :
  s'.Aged active cur
  := by
  obtain ⟨c, l, hmodels, hages⟩ := h
  rw [Aged, hlst, hconn, haccepted]
  exact ⟨c, l, hmodels, hages.sub (fun _ _ ht => ht) hcur⟩

/-! ### Who has the timers -/

/-- No connection is opened, and the slots and the timers stay with theirs. -/
structure Steady (s s' : Server ω) : Prop where
  usersTimer : s'.usersTimer = s.usersTimer
  timerConn : s'.timerConn = s.timerConn
  conn : s'.conn = s.conn
  accepted : s'.accepted = s.accepted
  shrinks : ∀ fd, fd ∈ s'.opened ∨ fd ∈ s'.pending → fd ∈ s.opened ∨ fd ∈ s.pending

theorem Steady.tended (h : Steady s s')
    (hs : ∀ fd, fd ∈ s.opened ∨ fd ∈ s.pending → s.Tended fd) :
  ∀ fd, fd ∈ s'.opened ∨ fd ∈ s'.pending → s'.Tended fd
  := by
  intro fd hfd
  rw [Tended, h.usersTimer, h.timerConn, h.conn]
  exact hs fd (h.shrinks fd hfd)

theorem Steady.trans {s₁ : Server ω} (h : Steady s s₁) (h' : Steady s₁ s') :
  Steady s s'
  where
  usersTimer := h'.usersTimer.trans h.usersTimer
  timerConn := h'.timerConn.trans h.timerConn
  conn := h'.conn.trans h.conn
  accepted := h'.accepted.trans h.accepted
  shrinks := fun fd hfd => h.shrinks fd (h'.shrinks fd hfd)

theorem next_steady {r : Ready} {rest : List Ready} (hbatch : s.batch = some (r :: rest)) :
  Steady s { s with batch := some rest }
  where
  usersTimer := rfl
  timerConn := rfl
  conn := rfl
  accepted := rfl
  shrinks := by
    intro fd hfd
    refine hfd.imp_right fun hfd => ?_
    rw [pending, hbatch]
    exact ((List.sublist_cons_self r rest).filterMap _).subset hfd

theorem users_steady (s : Server ω) (users : ℕ → HttpConn) :
  Steady s { s with users := users }
  := ⟨rfl, rfl, rfl, rfl, fun _ hfd => hfd⟩

theorem append_steady (s : Server ω) (fd : ℕ) :
  Steady s (s.append fd)
  := by
  rw [Server.append]
  split
  · exact ⟨rfl, rfl, rfl, rfl, fun _ hfd => hfd⟩
  · exact ⟨rfl, rfl, rfl, rfl, fun _ hfd => hfd⟩

theorem arm_steady (s : Server ω) (fd : Option ℕ) (ev : Interest) :
  Steady s (s.arm fd ev)
  := by
  cases fd with
  | none => exact ⟨rfl, rfl, rfl, rfl, fun _ hfd => hfd⟩
  | some fd =>
      rw [Server.arm]
      split
      · exact ⟨rfl, rfl, rfl, rfl, fun _ hfd => hfd⟩
      · exact ⟨rfl, rfl, rfl, rfl, fun _ hfd => hfd⟩

theorem arm_timerLst (s : Server ω) (fd : Option ℕ) (ev : Interest) :
  (s.arm fd ev).timerLst = s.timerLst
  := by
  cases fd with
  | none => rfl
  | some fd =>
      rw [Server.arm]
      split
      · rfl
      · rfl

theorem closeByTimer_steady (hs' : s.closeByTimer fd = some s') :
  Steady s s'
  := by
  obtain ⟨_, _, -, -, rfl⟩ := closeByTimer_eq_some hs'
  exact ⟨rfl, rfl, rfl, rfl, fun _ hfd => hfd.imp_left fun hfd => Finset.mem_of_mem_erase hfd⟩

theorem delayTimer_steady (hs' : s.delayTimer fd cur = some s') :
  Steady s s'
  := by
  obtain ⟨_, rfl⟩ := delayTimer_eq_some hs'
  exact ⟨rfl, rfl, rfl, rfl, fun _ hfd => hfd⟩

theorem closeConn_steady (s : Server ω) (job : Job) :
  Steady s (s.closeConn job)
  := by
  rw [Server.closeConn]
  split
  · exact ⟨rfl, rfl, rfl, rfl, fun _ hfd => hfd⟩
  · exact ⟨rfl, rfl, rfl, rfl, fun _ hfd => hfd.imp_left fun hfd => Finset.mem_of_mem_erase hfd⟩

theorem cbFunc_steady (s : Server ω) (timer slot : ℕ) :
  Steady s (s.cbFunc timer slot)
  := ⟨rfl, rfl, rfl, rfl, fun _ hfd => hfd.imp_left fun hfd => Finset.mem_of_mem_erase hfd⟩

theorem foldl_cbFunc_steady (s : Server ω) (calls : List (ℕ × ℕ)) :
  Steady s (calls.foldl (fun s call => s.cbFunc call.1 call.2) s)
  := by
  induction calls generalizing s with
  | nil => exact ⟨rfl, rfl, rfl, rfl, fun _ hfd => hfd⟩
  | cons call calls ih => exact (cbFunc_steady s call.1 call.2).trans (ih _)

theorem finishBatch_steady (hs' : s.finishBatch cur = some s') :
  Steady s s'
  := by
  have hwait : ∀ timeout, Steady s { s with batch := none, timeout := timeout } :=
    fun _ => ⟨rfl, rfl, rfl, rfl, fun _ hfd => hfd.imp_right fun hfd => by cases hfd⟩
  rw [Server.finishBatch] at hs'
  split at hs'
  · obtain ⟨⟨calls, lst⟩, -, hs'⟩ := Option.bind_eq_some_iff.mp hs'
    obtain rfl := Option.some.inj hs'
    have hfold := foldl_cbFunc_steady { s with batch := none, timeout := false } calls
    refine (hwait false).trans ⟨hfold.usersTimer, hfold.timerConn, hfold.conn, hfold.accepted, ?_⟩
    exact fun fd hfd => hfold.shrinks fd hfd
  · obtain rfl := Option.some.inj hs'
    exact hwait s.timeout

/-- The timer of a connection that is active is put off, or closes it. -/
theorem Aged.attend (h : s.Aged active now) (ok : Bool) (hfd : s.Attached l fd)
    (htended : s.Tended fd) {s₁ : Server ω} (hsteady : Steady s s₁)
    (hlst : s₁.timerLst = s.timerLst) (htimed : s₁.Timed l) (hcur : now ≤ cur)
    (hs' : (if ok then s₁.delayTimer fd cur else s₁.closeByTimer fd) = some s') :
  s'.Aged (Function.update active (s.conn fd) cur) cur ∧ Steady s s'
  := by
  have h₁ := h.congr hlst hsteady.timerConn hsteady.accepted le_rfl
  have hfd₁ : s₁.Attached l fd := by
    rw [Attached, hsteady.usersTimer]
    exact hfd
  have htended₁ : s₁.Tended fd := by
    rw [Tended, hsteady.usersTimer, hsteady.timerConn, hsteady.conn]
    exact htended
  rw [← hsteady.conn]
  cases ok with
  | false =>
      exact ⟨(h₁.closeByTimer htimed hfd₁ htended₁ hcur hs').2,
        hsteady.trans (closeByTimer_steady hs')⟩
  | true =>
      exact ⟨h₁.delayTimer htimed hfd₁ htended₁ hcur hs', hsteady.trans (delayTimer_steady hs')⟩

/-- `main` reads. -/
theorem Aged.readConn (h : s.Aged active now) (htimed : s.Timed l) (hfd : s.Attached l fd)
    (htended : s.Tended fd) {rs : List Recv} (hcur : now ≤ cur)
    (hs' : s.readConn fd rs cur = some s') :
  s'.Aged (Function.update active (s.conn fd) cur) cur ∧ Steady s s'
  := by
  obtain ⟨⟨ok, c⟩, -, hs'⟩ := Option.bind_eq_some_iff.mp hs'
  have htimed₁ := htimed.users (Function.update s.users fd c)
  have hsteady := users_steady s (Function.update s.users fd c)
  cases ok with
  | false => exact h.attend false hfd htended hsteady rfl htimed₁ hcur hs'
  | true =>
      have hlst : (Server.append { s with users := Function.update s.users fd c } fd).timerLst =
          s.timerLst := by
        rw [Server.append]
        split
        · rfl
        · rfl
      exact h.attend true hfd htended (hsteady.trans (append_steady _ fd)) hlst
        (htimed₁.append fd) hcur hs'

/-- `main` writes. -/
theorem Aged.writeConn (h : s.Aged active now) (htimed : s.Timed l) (hfd : s.Attached l fd)
    (htended : s.Tended fd) {os : List Outcome} (hcur : now ≤ cur)
    (hs' : s.writeConn fd os cur = some s') :
  s'.Aged (Function.update active (s.conn fd) cur) cur ∧ Steady s s'
  := by
  obtain ⟨⟨ok, s₁⟩, hs₁, hs'⟩ := Option.bind_eq_some_iff.mp hs'
  have hsend : Steady s s₁ ∧ s₁.timerLst = s.timerLst ∧ s₁.Timed l := by
    obtain ⟨c, -, ⟨-, rfl⟩ | ⟨ev, rfl⟩⟩ := sendConn_eq_some hs₁
    · exact ⟨users_steady s _, rfl, htimed.users _⟩
    · refine ⟨(users_steady s _).trans (arm_steady _ c.sockfd ev), ?_,
        (htimed.users (Function.update s.users fd c)).arm c.sockfd ev⟩
      rw [arm_timerLst]
  obtain ⟨hsteady, hlst, htimed₁⟩ := hsend
  exact h.attend ok hfd htended hsteady hlst htimed₁ hcur hs'

end Aged

end Server

namespace Watched

open Server

variable {ω : Type}

/-! ### The steps -/

/-- What is kept along a run in which the time does not go back. -/
structure Minded (w : Watched ω) : Prop where
  timed : ∃ l, w.server.Timed l
  aged : w.server.Aged w.active w.now
  tended : ∀ fd, fd ∈ w.server.opened ∨ fd ∈ w.server.pending → w.server.Tended fd

theorem start_minded (users : ℕ → HttpConn) (usersTimer : ℕ → ClientData) (maxRequest : ℕ)
    (now : ℤ) :
  Minded (start (init users usersTimer maxRequest : Server ω) now)
  where
  timed := ⟨[], init_timed users usersTimer maxRequest⟩
  aged := ⟨_, [], empty_models, empty_ages _ _ _ now⟩
  tended := by
    rintro fd (hfd | hfd)
    · cases hfd
    · cases hfd

/-- A client whose event `main` handles. -/
theorem Minded.client {w : Watched ω} (h : w.Minded) {fd : ℕ} {ev : ClientEvent}
    {rest : List Ready} (hbatch : w.server.batch = some (.client fd ev :: rest)) :
  Tended { w.server with batch := some rest } fd
  := by
  apply h.tended fd (.inr _)
  rw [pending, hbatch]
  exact List.mem_cons_self

/-- `main` comes to the end of a batch. -/
theorem Minded.endBatch {w : Watched ω} (h : w.Minded) {cur : ℤ} (hcur : w.now ≤ cur)
    {s' : Server ω} (hs' : w.server.finishBatch cur = some s') :
  s'.Aged w.active cur
  := by
  obtain ⟨l, htimed⟩ := h.timed
  have hwait : Timed { w.server with batch := none, timeout := false } l := by
    refine htimed.congr rfl rfl (fun fd hfd => ?_) htimed.armed List.nodup_nil
    exact hfd.imp_right fun hfd => by cases hfd
  have haged : Aged { w.server with batch := none, timeout := false } w.active w.now := h.aged
  rw [finishBatch] at hs'
  split at hs'
  · exact (haged.tick hwait hcur hs').1
  · obtain rfl := Option.some.inj hs'
    exact h.aged.congr rfl rfl rfl hcur

/-- The slot of a connection that is accepted points to its timer. -/
theorem acceptConn_tended {s s' : Server ω} {l : List (ℕ × TimerData)} (htimed : s.Timed l)
    (hs : ∀ fd, fd ∈ s.opened ∨ fd ∈ s.pending → s.Tended fd) {fd timer : ℕ} {cur : ℤ}
    {added : Registration} (hs' : s.acceptConn fd timer cur added = some s') :
  ∀ fd, fd ∈ s'.opened ∨ fd ∈ s'.pending → s'.Tended fd
  := by
  obtain ⟨-, ⟨-, rfl⟩ | ⟨-, hs'⟩⟩ := acceptConn_eq_some hs'
  · exact hs
  · obtain ⟨lst₁, lst, hlst₁, -, rfl⟩ := addTimer_eq_some hs'
    have hnew := htimed.holds.not_mem_of_newTimer hlst₁
    intro fd' hfd' t ht
    by_cases heq : fd' = fd
    · subst heq
      dsimp only at ht ⊢
      rw [Function.update_self] at ht
      obtain rfl := Option.some.inj ht
      apply Function.update_self
    · have hbefore : fd' ∈ s.opened ∨ fd' ∈ s.pending :=
        hfd'.imp_left fun hfd' => (Finset.mem_insert.mp hfd').resolve_left heq
      dsimp only at ht ⊢
      rw [Function.update_of_ne heq] at ht
      have hne : t ≠ timer := by
        rintro rfl
        obtain ⟨t', ht', hslot⟩ := htimed.attached fd' hbefore
        have heq' : some t' = some t := by
          rw [← ht]
          change _ = (s.usersTimer fd').timer
          rw [hslot]
        obtain rfl := Option.some.inj heq'
        obtain ⟨x, hx, hcall⟩ := List.mem_map.mp ht'
        apply hnew (List.mem_map.mpr ⟨x, hx, congrArg Prod.fst hcall⟩)
      rw [Function.update_of_ne hne]
      have htended : s.timerConn t = s.conn fd' := hs fd' hbefore t ht
      exact htended.trans (Function.update_of_ne heq ..).symm

/-- A timer of the list was made for a connection, for the slot of a descriptor. -/
def HasTimer (s : Server ω) (n fd : ℕ) : Prop :=
  ∃ t cell, s.timerLst.heap t = some cell ∧ s.timerConn t = n ∧ cell.value.userData = fd

/-- A connection that is open has a timer. -/
theorem Minded.hasTimer {w : Watched ω} (h : w.Minded) {fd : ℕ} (hfd : fd ∈ w.server.opened) :
  HasTimer w.server (w.server.conn fd) fd
  := by
  obtain ⟨l, htimed⟩ := h.timed
  obtain ⟨t, d, a, b, rfl, rfl, hslot⟩ := (htimed.attached fd (.inl hfd)).split
  refine ⟨t, _, htimed.holds.seg.cell, ?_, rfl⟩
  apply h.tended _ (.inl hfd) t
  rw [hslot]

variable [DecidableEq ω]

/-- A step of `main` or of a worker, seen from the timers. -/
theorem Minded.server {w : Watched ω} (h : w.Minded) {e : ServerEvent ω} (hforward : w.Forward e)
    {s' : Server ω} (hs' : w.server.step e = some s') :
  s'.Aged ((busy w.server e).elim w.active fun n =>
      Function.update w.active n (e.time.getD w.now)) (e.time.getD w.now) ∧
    ∀ fd, fd ∈ s'.opened ∨ fd ∈ s'.pending → s'.Tended fd
  := by
  obtain ⟨l, htimed⟩ := h.timed
  have haged : ∀ rest, Aged { w.server with batch := some rest } w.active w.now :=
    fun _ => h.aged
  cases steps_of_step hs' with
  | wait hbatch hdeliver =>
      refine ⟨h.aged, ?_⟩
      rintro fd (hfd | hfd)
      · exact h.tended fd (.inl hfd)
      · exact h.tended fd (.inl (htimed.armed fd (hdeliver.armed hfd)))
  | @accept fd timer cur added rest _ hbatch hs' =>
      refine ⟨(haged rest).acceptConn (hforward cur rfl) hs', ?_⟩
      exact acceptConn_tended (htimed.next hbatch) ((next_steady hbatch).tended h.tended) hs'
  | @hup fd rest _ hbatch hs' =>
      obtain ⟨hattached, -⟩ := htimed.client hbatch
      exact ⟨((haged rest).closeByTimer (htimed.next hbatch) hattached (h.client hbatch) le_rfl
          hs').1, ((next_steady hbatch).trans (closeByTimer_steady hs')).tended h.tended⟩
  | alarm hbatch =>
      have htended := (next_steady hbatch).tended h.tended
      exact ⟨h.aged, htended⟩
  | @read rs cur fd rest _ hbatch hs' =>
      obtain ⟨hattached, -⟩ := htimed.client hbatch
      obtain ⟨haged', hsteady⟩ := (haged rest).readConn (htimed.next hbatch) hattached
        (h.client hbatch) (hforward cur rfl) hs'
      rw [busy, hbatch]
      exact ⟨haged', ((next_steady hbatch).trans hsteady).tended h.tended⟩
  | @write os cur fd rest _ hbatch hs' =>
      obtain ⟨hattached, -⟩ := htimed.client hbatch
      obtain ⟨haged', hsteady⟩ := (haged rest).writeConn (htimed.next hbatch) hattached
        (h.client hbatch) (hforward cur rfl) hs'
      rw [busy, hbatch]
      exact ⟨haged', ((next_steady hbatch).trans hsteady).tended h.tended⟩
  | pass hbatch =>
      have htended := (next_steady hbatch).tended h.tended
      exact ⟨h.aged, htended⟩
  | @endBatch cur _ hbatch hs' =>
      exact ⟨h.endBatch (hforward cur rfl) hs', (finishBatch_steady hs').tended h.tended⟩
  | take _ _ => exact ⟨h.aged, h.tended⟩
  | rearm _ _ | refuse _ _ => exact ⟨h.aged, h.tended⟩
  | @closeConn w' job hw =>
      have hsteady := closeConn_steady w.server job
      have hlst : (w.server.closeConn job).timerLst = w.server.timerLst := by
        rw [closeConn]
        split
        · rfl
        · rfl
      have htended := hsteady.tended h.tended
      exact ⟨h.aged.congr hlst hsteady.timerConn hsteady.accepted le_rfl, htended⟩
  | @modfd w' job ev hw =>
      have hsteady := arm_steady w.server (w.server.users job.fd).sockfd ev
      have htended := hsteady.tended h.tended
      exact ⟨h.aged.congr (arm_timerLst ..) hsteady.timerConn hsteady.accepted le_rfl, htended⟩
  | @modfdClosed w' job hw =>
      have hsteady := arm_steady w.server (w.server.users job.fd).sockfd .epollOut
      have htended := hsteady.tended h.tended
      exact ⟨h.aged.congr (arm_timerLst ..) hsteady.timerConn hsteady.accepted le_rfl, htended⟩

/-- Every step keeps the order and the ages of the timers, when the time does not go
back. -/
theorem Minded.step {w w' : Watched ω} (h : w.Minded) {e : ServerEvent ω}
    (hforward : w.Forward e) (hw' : w.step e = some w') :
  w'.Minded
  := by
  obtain ⟨s', hs', rfl⟩ := Option.map_eq_some_iff.mp hw'
  obtain ⟨haged, htended⟩ := h.server hforward hs'
  obtain ⟨l, htimed⟩ := h.timed
  obtain ⟨s'', l', hs'', htimed'⟩ := htimed.step (offered_of_step hs')
  obtain rfl := Option.some.inj (hs'.symm.trans hs'')
  exact ⟨⟨l', htimed'⟩, haged, htended⟩

/-- `tick` closes the descriptors with a timer of a connection that was idle. -/
theorem Minded.closes_iff {w : Watched ω} (h : w.Minded) {cur : ℤ} (hcur : w.now ≤ cur)
    (htimeout : w.server.timeout = true) {s' : Server ω}
    (hs' : w.server.step (.endBatch cur) = some s') (fd : ℕ) :
  fd ∈ s'.opened ↔ fd ∈ w.server.opened ∧
    ∀ n, HasTimer w.server n fd → cur < w.active n + 3 * timeslot
  := by
  obtain ⟨l, htimed⟩ := h.timed
  cases steps_of_step hs' with
  | endBatch _ hs' =>
      have hwait : Timed { w.server with batch := none, timeout := false } l := by
        refine htimed.congr rfl rfl (fun fd hfd => ?_) htimed.armed List.nodup_nil
        exact hfd.imp_right fun hfd => by cases hfd
      have haged : Aged { w.server with batch := none, timeout := false } w.active w.now := h.aged
      rw [finishBatch, if_pos htimeout] at hs'
      rw [(haged.tick hwait hcur hs').2 fd]
      apply and_congr_right
      intro _
      constructor
      · rintro hlater n ⟨t, cell, hcell, rfl, hfd⟩
        exact hlater t cell hcell hfd
      · intro hlater t cell hcell hfd
        exact hlater _ ⟨t, cell, hcell, rfl, hfd⟩

/-- Along a run in which the time does not go back, every connection that is open has a
timer, and `tick` closes a descriptor exactly when one of the connections that have a timer
for its slot was idle for three time slots. -/
theorem tick_closes_iff {users : ℕ → HttpConn} {usersTimer : ℕ → ClientData} {maxRequest : ℕ}
    {now cur : ℤ} {es : List (ServerEvent ω)} {w : Watched ω} {s' : Server ω}
    (hforward : Run.Along step Forward (start (init users usersTimer maxRequest) now) es)
    (h : Run.exec step (start (init users usersTimer maxRequest) now) es = some w)
    (hcur : w.now ≤ cur) (htimeout : w.server.timeout = true)
    (hs' : w.server.step (.endBatch cur) = some s') (fd : ℕ) :
  (fd ∈ w.server.opened → HasTimer w.server (w.server.conn fd) fd) ∧
    (fd ∈ s'.opened ↔ fd ∈ w.server.opened ∧
      ∀ n, HasTimer w.server n fd → cur < w.active n + 3 * timeslot)
  := by
  have hminded : w.Minded := Run.exec_invariant (fun _ _ _ hw hok hstep => hw.step hok hstep)
    (start_minded users usersTimer maxRequest now) hforward h
  exact ⟨hminded.hasTimer, hminded.closes_iff hcur htimeout hs' fd⟩

/-- The time does not go back, and `process` does not come to `close_conn`. -/
def Kept (w : Watched ω) (e : ServerEvent ω) : Prop := w.Forward e ∧ NoCloseConn w.server e

/-- Along a run in which moreover no call of `process` comes to `close_conn`, `tick` closes
exactly the connections that were idle for three time slots. -/
theorem tick_closes_idle {users : ℕ → HttpConn} {usersTimer : ℕ → ClientData} {maxRequest : ℕ}
    {now cur : ℤ} {es : List (ServerEvent ω)} {w : Watched ω} {s' : Server ω}
    (hkept : Run.Along step Kept (start (init users usersTimer maxRequest) now) es)
    (h : Run.exec step (start (init users usersTimer maxRequest) now) es = some w)
    (hcur : w.now ≤ cur) (htimeout : w.server.timeout = true)
    (hs' : w.server.step (.endBatch cur) = some s') (fd : ℕ) :
  fd ∈ s'.opened ↔
    fd ∈ w.server.opened ∧ cur < w.active (w.server.conn fd) + 3 * timeslot
  := by
  have hkeep : ∀ (w : Watched ω) e w', w.Minded ∧ w.server.Running → w.Kept e →
      w.step e = some w' → w'.Minded ∧ w'.server.Running := by
    rintro w e w' ⟨hminded, hrunning⟩ ⟨hforward, hok⟩ hw'
    refine ⟨hminded.step hforward hw', ?_⟩
    obtain ⟨s₁, hs₁, rfl⟩ := Option.map_eq_some_iff.mp hw'
    exact hrunning.step hok hs₁
  obtain ⟨hminded, ⟨l, hholds, hbooks⟩, -, -⟩ := Run.exec_invariant hkeep
    ⟨start_minded users usersTimer maxRequest now, init_running users usersTimer maxRequest⟩
    hkept h
  rw [hminded.closes_iff hcur htimeout hs' fd]
  apply and_congr_right
  intro hfd
  constructor
  · intro hlater
    exact hlater _ (hminded.hasTimer hfd)
  · rintro hlater n ⟨t, cell, hcell, rfl, heq⟩
    obtain ⟨-, -, hconn⟩ := hbooks.timers.timer_open t cell.value (mem_of_cell hholds hcell)
    rw [hconn, heq]
    exact hlater

instance (w : Watched ω) (e : ServerEvent ω) : Decidable (w.Forward e) :=
  inferInstanceAs (Decidable (∀ cur ∈ e.time, w.now ≤ cur))

/-- A worker closes a connection, the next one gets its descriptor, and the time slot is
over. -/
def takesOver : List (ServerEvent ℕ) :=
  missingFile ++ [.wait [.listen], .accept 5 101 2 .clean, .endBatch 2, .wait [.alarm], .alarm true]

set_option maxRecDepth 10000 in
theorem tick_closes_iff_takesOver :
  ∃ (w : Watched ℕ) (s' : Server ℕ), w.server.step (.endBatch 16) = some s' ∧
    (5 ∈ s'.opened ↔ 5 ∈ w.server.opened ∧
      ∀ n, HasTimer w.server n 5 → 16 < w.active n + 3 * timeslot)
  := by
  have hrun : (Run.exec step (start (blank 1) 0) takesOver).map (fun w =>
      decide (w.now = 2 ∧ w.server.timeout = true ∧
        (w.server.step (.endBatch 16)).isSome = true)) = some true := by
    decide +kernel
  obtain ⟨w, hw, hfacts⟩ := Option.map_eq_some_iff.mp hrun
  obtain ⟨hnow, htimeout, hsome⟩ := of_decide_eq_true hfacts
  obtain ⟨s', hs'⟩ := Option.isSome_iff_exists.mp hsome
  exact ⟨w, s', hs', (tick_closes_iff (by decide +kernel) hw (by omega) htimeout hs' 5).2⟩

/-- A connection is idle while another one is accepted. -/
def oneIdle : List (ServerEvent ℕ) :=
  [.wait [.listen], .accept 5 100 0 .clean, .endBatch 0, .wait [.listen], .accept 6 101 9 .clean,
    .endBatch 9, .wait [.alarm], .alarm true]

theorem oneIdle_kept :
  Run.Along step Kept (start (blank 1 : Server ℕ) 0) oneIdle
  := by
  have hforward : Run.Along step Forward (start (blank 1 : Server ℕ) 0) oneIdle := by
    decide +kernel
  refine Run.along_of_along (I := fun _ => True) (E := fun e => ∀ s : Server ℕ, NoCloseConn s e)
    (fun _ _ _ _ _ _ _ => trivial) (fun w e _ he hf => ⟨hf, he w.server⟩) trivial ?_ hforward
  simp [oneIdle, NoCloseConn]

set_option maxRecDepth 10000 in
theorem tick_closes_idle_oneIdle :
  ∃ (w : Watched ℕ) (s' : Server ℕ), w.server.step (.endBatch 16) = some s' ∧
    ∀ fd, fd ∈ s'.opened ↔
      fd ∈ w.server.opened ∧ 16 < w.active (w.server.conn fd) + 3 * timeslot
  := by
  have hrun : (Run.exec step (start (blank 1) 0) oneIdle).map (fun w =>
      decide (w.now = 9 ∧ w.server.timeout = true ∧
        (w.server.step (.endBatch 16)).isSome = true)) = some true := by
    decide +kernel
  obtain ⟨w, hw, hfacts⟩ := Option.map_eq_some_iff.mp hrun
  obtain ⟨hnow, htimeout, hsome⟩ := of_decide_eq_true hfacts
  obtain ⟨s', hs'⟩ := Option.isSome_iff_exists.mp hsome
  exact ⟨w, s', hs', tick_closes_idle oneIdle_kept hw (by omega) htimeout hs'⟩

end Watched

end WebServer
