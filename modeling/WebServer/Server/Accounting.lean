import WebServer.Server.Changes

/-!
# Connections and their timers

As long as no call of `process` comes to `close_conn`, a connection ends with the call of
`cb_func` of its own timer, which is deleted with it.  So the open connections are counted
right (`accounted_throughout`), and they are in one-to-one correspondence with the timers
(`matched_throughout`).  `close_conn` leaves the timer of the connection in the list: it
counts the connection off a second time when it expires, and closes whatever connection
has the descriptor by then.

`Books s l` says that the list `l` of timers fits the open connections; a call of
`cb_func` for the timer at the front takes both out (`Books.cbFunc`).
-/

open CString LinkedList

namespace WebServer

namespace Server

variable {ω : Type}

/-! ### The properties -/

/-- The users are counted right: each connection that was accepted and closed was
subtracted once, and no other one. -/
structure Accounted (s : Server ω) : Prop where
  count : s.userCount = s.opened.card
  nonneg : 0 ≤ s.userCount
  once : s.subtracted.Nodup
  closed : ∀ n, n ∈ s.subtracted ↔ n < s.accepted ∧ ∀ fd ∈ s.opened, s.conn fd ≠ n

/-- The timers of the list are those of the open connections: each points to a slot that
holds the connection it was made for and points back to it, and no other timer points
there.  Every call of `cb_func` so far closed the connection its timer was made for. -/
structure Matched (s : Server ω) (l : List (ℕ × TimerData)) : Prop where
  holds : s.timerLst.Holds l
  timer_open : ∀ t d, (t, d) ∈ l → d.userData ∈ s.opened ∧
    s.usersTimer d.userData = ⟨d.userData, some t⟩ ∧ s.timerConn t = s.conn d.userData
  one : (l.map fun t => t.2.userData).Nodup
  open_timer : ∀ fd ∈ s.opened, ∃ t d, (t, d) ∈ l ∧ d.userData = fd
  own : ∀ call ∈ s.fired, call.2 = some call.1

/-- The step does not bring `process` to `close_conn`. -/
def NoCloseConn (s : Server ω) : ServerEvent ω → Prop
  | .process w found =>
    ∀ job c, s.workers w = .took job → (s.users job.fd).process found ≠ .ok (.close, c)
  | _ => True

/-! ### The ledger -/

/-- The connections with the numbers below `accepted` are open, each under a descriptor of
its own, or were subtracted once. -/
structure Ledger (opened : Finset ℕ) (conn : ℕ → ℕ) (accepted : ℕ) (subtracted : List ℕ) :
    Prop where
  conn_lt : ∀ fd ∈ opened, conn fd < accepted
  conn_inj : ∀ fd ∈ opened, ∀ fd' ∈ opened, conn fd = conn fd' → fd = fd'
  once : subtracted.Nodup
  closed : ∀ n, n ∈ subtracted ↔ n < accepted ∧ ∀ fd ∈ opened, conn fd ≠ n

section Ledger

variable {opened : Finset ℕ} {conn : ℕ → ℕ} {accepted : ℕ} {subtracted : List ℕ} {fd : ℕ}

/-- An open connection is closed and subtracted. -/
theorem Ledger.close (h : Ledger opened conn accepted subtracted) (hfd : fd ∈ opened) :
  Ledger (opened.erase fd) conn accepted (conn fd :: subtracted)
  where
  conn_lt := fun fd' hfd' => h.conn_lt fd' (Finset.mem_of_mem_erase hfd')
  conn_inj := fun fd₁ h₁ fd₂ h₂ =>
    h.conn_inj fd₁ (Finset.mem_of_mem_erase h₁) fd₂ (Finset.mem_of_mem_erase h₂)
  once := by
    refine List.nodup_cons.mpr ⟨?_, h.once⟩
    rw [h.closed]
    rintro ⟨-, hne⟩
    apply hne fd hfd rfl
  closed := by
    intro n
    rw [List.mem_cons, h.closed]
    constructor
    · rintro (rfl | ⟨hlt, hne⟩)
      · refine ⟨h.conn_lt fd hfd, ?_⟩
        intro fd' hfd' heq
        obtain ⟨hne, hfd'⟩ := Finset.mem_erase.mp hfd'
        apply hne (h.conn_inj fd' hfd' fd hfd heq)
      · exact ⟨hlt, fun fd' hfd' => hne fd' (Finset.mem_of_mem_erase hfd')⟩
    · rintro ⟨hlt, hne⟩
      by_cases hn : n = conn fd
      · apply Or.inl hn
      · refine Or.inr ⟨hlt, ?_⟩
        intro fd' hfd' heq
        refine hne fd' (Finset.mem_erase.mpr ⟨?_, hfd'⟩) heq
        rintro rfl
        apply hn heq.symm

/-- The next connection is opened. -/
theorem Ledger.insert (h : Ledger opened conn accepted subtracted) (hfd : fd ∉ opened) :
  Ledger (insert fd opened) (Function.update conn fd accepted) (accepted + 1) subtracted
  := by
  have hconn : ∀ fd' ∈ opened, Function.update conn fd accepted fd' = conn fd' := by
    intro fd' hfd'
    apply Function.update_of_ne
    rintro rfl
    apply hfd hfd'
  have hnew : Function.update conn fd accepted fd = accepted := Function.update_self ..
  refine ⟨?_, ?_, h.once, ?_⟩
  · intro fd' hfd'
    rcases Finset.mem_insert.mp hfd' with rfl | hfd'
    · rw [hnew]
      apply Nat.lt_succ_self _
    · rw [hconn fd' hfd']
      apply Nat.lt_succ_of_lt (h.conn_lt fd' hfd')
  · intro fd₁ h₁ fd₂ h₂ heq
    rcases Finset.mem_insert.mp h₁ with heq₁ | hopen₁
    · rcases Finset.mem_insert.mp h₂ with heq₂ | hopen₂
      · apply heq₁.trans heq₂.symm
      · rw [heq₁, hnew, hconn fd₂ hopen₂] at heq
        apply absurd heq.symm (h.conn_lt fd₂ hopen₂).ne
    · rcases Finset.mem_insert.mp h₂ with heq₂ | hopen₂
      · rw [heq₂, hnew, hconn fd₁ hopen₁] at heq
        apply absurd heq (h.conn_lt fd₁ hopen₁).ne
      · rw [hconn fd₁ hopen₁, hconn fd₂ hopen₂] at heq
        apply h.conn_inj fd₁ hopen₁ fd₂ hopen₂ heq
  · intro n
    rw [h.closed]
    constructor
    · rintro ⟨hlt, hne⟩
      refine ⟨Nat.lt_succ_of_lt hlt, ?_⟩
      intro fd' hfd'
      rcases Finset.mem_insert.mp hfd' with rfl | hfd'
      · rw [hnew]
        apply hlt.ne'
      · rw [hconn fd' hfd']
        apply hne fd' hfd'
    · rintro ⟨hlt, hne⟩
      have hn := hne fd (Finset.mem_insert_self ..)
      rw [hnew] at hn
      refine ⟨lt_of_le_of_ne (Nat.le_of_lt_succ hlt) hn.symm, ?_⟩
      intro fd' hfd'
      rw [← hconn fd' hfd']
      apply hne fd' (Finset.mem_insert_of_mem hfd')

end Ledger

/-! ### The timers of the open connections -/

/-- The timers of `l` are those of the open connections. -/
structure Timers (opened : Finset ℕ) (usersTimer : ℕ → ClientData) (timerConn conn : ℕ → ℕ)
    (l : List (ℕ × TimerData)) : Prop where
  nodup : (addresses l).Nodup
  timer_open : ∀ t d, (t, d) ∈ l → d.userData ∈ opened ∧
    usersTimer d.userData = ⟨d.userData, some t⟩ ∧ timerConn t = conn d.userData
  open_timer : ∀ fd ∈ opened, ∃ t d, (t, d) ∈ l ∧ d.userData = fd

section Timers

variable {opened : Finset ℕ} {usersTimer : ℕ → ClientData} {timerConn conn : ℕ → ℕ}
  {l l' : List (ℕ × TimerData)} {t t' fd : ℕ} {d d' : TimerData}

theorem Timers.perm (h : Timers opened usersTimer timerConn conn l) (hperm : l'.Perm l) :
  Timers opened usersTimer timerConn conn l'
  where
  nodup := (hperm.map Prod.fst).nodup_iff.mpr h.nodup
  timer_open := fun t d ht => h.timer_open t d (hperm.mem_iff.mp ht)
  open_timer := by
    intro fd hfd
    obtain ⟨t, d, ht, hd⟩ := h.open_timer fd hfd
    exact ⟨t, d, hperm.mem_iff.mpr ht, hd⟩

/-- The timer of an open connection is the only one for its descriptor. -/
theorem Timers.fst_eq (h : Timers opened usersTimer timerConn conn l) (ht : (t, d) ∈ l)
    (ht' : (t', d') ∈ l) (hd : d.userData = d'.userData) :
  t = t'
  := by
  obtain ⟨-, hslot, -⟩ := h.timer_open t d ht
  obtain ⟨-, hslot', -⟩ := h.timer_open t' d' ht'
  rw [hd, hslot'] at hslot
  exact (Option.some.inj (congrArg ClientData.timer hslot)).symm

/-- The timer of an open connection in the list. -/
theorem Timers.split (h : Timers opened usersTimer timerConn conn l) (hfd : fd ∈ opened) :
  ∃ t d a b, l = a ++ (t, d) :: b ∧ d.userData = fd ∧ usersTimer fd = ⟨fd, some t⟩
  := by
  obtain ⟨t, d, ht, rfl⟩ := h.open_timer fd hfd
  obtain ⟨a, b, rfl⟩ := List.append_of_mem ht
  exact ⟨t, d, a, b, rfl, rfl, (h.timer_open t d ht).2.1⟩

/-- A connection is closed with its timer. -/
theorem Timers.close (h : Timers opened usersTimer timerConn conn ((t, d) :: l)) :
  Timers (opened.erase d.userData) usersTimer timerConn conn l
  where
  nodup := (List.nodup_cons.mp h.nodup).2
  timer_open := by
    intro t' d' ht'
    obtain ⟨hopen, hrest⟩ := h.timer_open t' d' (List.mem_cons_of_mem _ ht')
    refine ⟨Finset.mem_erase.mpr ⟨?_, hopen⟩, hrest⟩
    intro hd
    obtain rfl := h.fst_eq (List.mem_cons_of_mem _ ht') List.mem_cons_self hd
    exact (List.nodup_cons.mp h.nodup).1 (List.mem_map.mpr ⟨(t', d'), ht', rfl⟩)
  open_timer := by
    intro fd hfd
    obtain ⟨hne, hfd⟩ := Finset.mem_erase.mp hfd
    obtain ⟨t', d', ht', hd'⟩ := h.open_timer fd hfd
    rcases List.mem_cons.mp ht' with heq | ht'
    · cases heq
      apply absurd hd'.symm hne
    · exact ⟨t', d', ht', hd'⟩

/-- A timer may be put off. -/
theorem Timers.delay (h : Timers opened usersTimer timerConn conn ((t, d) :: l)) (e : ℤ) :
  Timers opened usersTimer timerConn conn ((t, { d with expire := e }) :: l)
  where
  nodup := h.nodup
  timer_open := by
    intro t' d' ht'
    rcases List.mem_cons.mp ht' with heq | ht'
    · cases heq
      apply h.timer_open t d List.mem_cons_self
    · apply h.timer_open t' d' (List.mem_cons_of_mem _ ht')
  open_timer := by
    intro fd hfd
    obtain ⟨t', d', ht', hd'⟩ := h.open_timer fd hfd
    rcases List.mem_cons.mp ht' with heq | ht'
    · cases heq
      exact ⟨t, { d with expire := e }, List.mem_cons_self, hd'⟩
    · exact ⟨t', d', List.mem_cons_of_mem _ ht', hd'⟩

/-- A new connection, with the number `n`, gets a timer. -/
theorem Timers.insert (h : Timers opened usersTimer timerConn conn l) (hfd : fd ∉ opened)
    (ht : t ∉ addresses l) (n : ℕ) (e : ℤ) :
  Timers (insert fd opened) (Function.update usersTimer fd ⟨fd, some t⟩)
    (Function.update timerConn t n) (Function.update conn fd n) ((t, ⟨e, fd⟩) :: l)
  where
  nodup := List.nodup_cons.mpr ⟨ht, h.nodup⟩
  timer_open := by
    intro t' d' ht'
    rcases List.mem_cons.mp ht' with heq | hl
    · cases heq
      refine ⟨Finset.mem_insert_self .., Function.update_self .., ?_⟩
      rw [Function.update_self, Function.update_self]
    · obtain ⟨hopen, hslot, hconn⟩ := h.timer_open t' d' hl
      have hne : d'.userData ≠ fd := fun hd => hfd (hd ▸ hopen)
      have hnet : t' ≠ t := by
        rintro rfl
        apply ht (List.mem_map.mpr ⟨(t', d'), hl, rfl⟩)
      rw [Function.update_of_ne hne, Function.update_of_ne hne, Function.update_of_ne hnet]
      exact ⟨Finset.mem_insert_of_mem hopen, hslot, hconn⟩
  open_timer := by
    intro fd' hfd'
    rcases Finset.mem_insert.mp hfd' with rfl | hfd'
    · exact ⟨t, ⟨e, fd'⟩, List.mem_cons_self, rfl⟩
    · obtain ⟨t', d', ht', hd'⟩ := h.open_timer fd' hfd'
      exact ⟨t', d', List.mem_cons_of_mem _ ht', hd'⟩

end Timers

/-! ### The books -/

/-- The connections are counted right, the timers of `l` are those of the open ones, and
every timer that fired closed its own connection. -/
structure Books (s : Server ω) (l : List (ℕ × TimerData)) : Prop where
  count : s.userCount = s.opened.card
  ledger : Ledger s.opened s.conn s.accepted s.subtracted
  timers : Timers s.opened s.usersTimer s.timerConn s.conn l
  own : ∀ call ∈ s.fired, call.2 = some call.1

theorem Books.perm {s : Server ω} {l l' : List (ℕ × TimerData)} (h : Books s l)
    (hperm : l'.Perm l) :
  Books s l'
  := { h with timers := h.timers.perm hperm }

theorem Books.accounted {s : Server ω} {l : List (ℕ × TimerData)} (h : Books s l) :
  s.Accounted
  where
  count := h.count
  nonneg := by
    rw [h.count]
    apply Int.natCast_nonneg _
  once := h.ledger.once
  closed := h.ledger.closed

theorem Books.matched {s : Server ω} {l : List (ℕ × TimerData)} (h : Books s l)
    (hholds : s.timerLst.Holds l) :
  s.Matched l
  where
  holds := hholds
  timer_open := h.timers.timer_open
  one := by
    apply List.Nodup.map_on _ (List.Nodup.of_map _ h.timers.nodup)
    intro x hx y hy hxy
    apply List.inj_on_of_nodup_map h.timers.nodup hx hy (h.timers.fst_eq hx hy hxy)
  open_timer := h.timers.open_timer
  own := h.own

/-- The timer at the front closes the connection it was made for. -/
theorem Books.cbFunc {s : Server ω} {l : List (ℕ × TimerData)} {t : ℕ} {d : TimerData}
    (h : Books s ((t, d) :: l)) :
  Books (s.cbFunc t d.userData) l
  := by
  obtain ⟨hopen, hslot, hconn⟩ := h.timers.timer_open t d List.mem_cons_self
  have hfd : (s.usersTimer d.userData).sockfd = d.userData := by
    rw [hslot]
  have hopened : (s.cbFunc t d.userData).opened = s.opened.erase d.userData :=
    congrArg s.opened.erase hfd
  have hsubtracted :
      (s.cbFunc t d.userData).subtracted = s.conn d.userData :: s.subtracted :=
    congrArg (s.conn · :: s.subtracted) hfd
  refine ⟨?_, ?_, ?_, ?_⟩
  · have hpos := Finset.card_pos.mpr ⟨_, hopen⟩
    rw [hopened, Finset.card_erase_of_mem hopen]
    change s.userCount - 1 = _
    rw [h.count]
    omega
  · rw [hopened, hsubtracted]
    apply h.ledger.close hopen
  · rw [hopened]
    apply h.timers.close
  · intro call hcall
    rcases List.mem_cons.mp hcall with rfl | hcall
    · dsimp only
      rw [hfd, if_pos hopen, hconn]
    · apply h.own call hcall

/-- The timers that fire close the connections they were made for. -/
theorem Books.foldl_cbFunc {s : Server ω} {l l' : List (ℕ × TimerData)} (h : Books s (l ++ l')) :
  Books ((SortTimerList.calls l).foldl (fun s call => s.cbFunc call.1 call.2) s) l'
  := by
  induction l generalizing s with
  | nil => exact h
  | cons t l ih => exact ih (Books.cbFunc h)

/-- A new connection gets a timer. -/
theorem Books.addTimer {s : Server ω} {l : List (ℕ × TimerData)} {fd timer : ℕ} {e : ℤ}
    (h : Books s l) (hfd : fd ∉ s.opened) (htimer : timer ∉ addresses l)
    (timerLst : SortTimerList) (added : Registration) :
  Books { s.initConn fd added with
    usersTimer := Function.update s.usersTimer fd ⟨fd, some timer⟩
    timerLst := timerLst
    timerConn := Function.update s.timerConn timer ((s.initConn fd added).conn fd) }
    ((timer, ⟨e, fd⟩) :: l)
  := by
  have hnew : (s.initConn fd added).conn fd = s.accepted := Function.update_self ..
  rw [hnew]
  refine ⟨?_, h.ledger.insert hfd, h.timers.insert hfd htimer s.accepted e, h.own⟩
  change s.userCount + 1 = ((insert fd s.opened).card : ℤ)
  rw [Finset.card_insert_of_notMem hfd, h.count]
  rfl

/-! ### The operations of `main` -/

/-- The list of the timers and the books agree. -/
def Kept (s : Server ω) : Prop := ∃ l, s.timerLst.Holds l ∧ Books s l

/-- `main` closes an open connection by its timer. -/
theorem Kept.closeByTimer {s s' : Server ω} (h : s.Kept) {fd : ℕ} (hfd : fd ∈ s.opened)
    (hs' : s.closeByTimer fd = some s') :
  s'.Kept
  := by
  obtain ⟨l, hholds, hbooks⟩ := h
  obtain ⟨t, d, a, b, rfl, rfl, ht⟩ := hbooks.timers.split hfd
  obtain ⟨timer, timerLst, htimer, hlst, rfl⟩ := closeByTimer_eq_some hs'
  rw [ht] at htimer
  obtain rfl := Option.some.inj htimer
  obtain ⟨lst, hlst', hholds'⟩ := hholds.delTimer
  obtain rfl := Option.some.inj (hlst.symm.trans hlst')
  have hbooks' := (hbooks.perm List.perm_middle.symm).cbFunc
  exact ⟨a ++ b, hholds', { hbooks' with }⟩

/-- `main` puts off the timer of an open connection. -/
theorem Kept.delayTimer {s s' : Server ω} (h : s.Kept) {fd : ℕ} (hfd : fd ∈ s.opened) {cur : ℤ}
    (hs' : s.delayTimer fd cur = some s') :
  s'.Kept
  := by
  obtain ⟨l, hholds, hbooks⟩ := h
  obtain ⟨t, d, a, b, rfl, rfl, ht⟩ := hbooks.timers.split hfd
  obtain ⟨lst₁, hlst₁, hholds₁⟩ := hholds.setExpire (cur + 3 * timeslot)
  obtain ⟨lst₂, hlst₂, hholds₂⟩ := hholds₁.adjustTimer
  have hperm := SortTimerList.insertTimer_perm (t, { d with expire := cur + 3 * timeslot }) b
  rw [Server.delayTimer, ht] at hs'
  change (s.timerLst.setExpire t _).bind _ = some s' at hs'
  rw [hlst₁] at hs'
  change (lst₁.adjustTimer (some t)).bind _ = some s' at hs'
  rw [hlst₂] at hs'
  obtain rfl := Option.some.inj hs'
  have htimers := ((hbooks.timers.perm List.perm_middle.symm).delay (cur + 3 * timeslot)).perm
    ((hperm.append_left a).trans List.perm_middle)
  exact ⟨_, hholds₂, { hbooks with timers := htimers }⟩

/-- `main` accepts a connection. -/
theorem Kept.acceptConn {s s' : Server ω} (h : s.Kept) {fd timer : ℕ} {cur : ℤ}
    {added : Registration} (hs' : s.acceptConn fd timer cur added = some s') :
  s'.Kept
  := by
  obtain ⟨hfd, ⟨-, rfl⟩ | ⟨-, hs'⟩⟩ := acceptConn_eq_some hs'
  · exact h
  · obtain ⟨l, hholds, hbooks⟩ := h
    obtain ⟨lst₁, lst₂, hlst₁, hlst₂, rfl⟩ := addTimer_eq_some hs'
    have htimer := hholds.not_mem_of_newTimer hlst₁
    obtain ⟨lst₁', lst₂', hlst₁', hlst₂', hholds'⟩ :=
      hholds.addTimer ⟨cur + 3 * timeslot, fd⟩ htimer
    obtain rfl := Option.some.inj (hlst₁.symm.trans hlst₁')
    obtain rfl := Option.some.inj (hlst₂.symm.trans hlst₂')
    have hbooks' := hbooks.addTimer (e := cur + 3 * timeslot) hfd htimer lst₂ added
    exact ⟨_, hholds', hbooks'.perm (SortTimerList.insertTimer_perm ..)⟩

/-- The timers that expired close the connections they were made for. -/
theorem Kept.tick {s s' : Server ω} (h : s.Kept) {cur : ℤ} (hs' : s.tick cur = some s') :
  s'.Kept
  := by
  obtain ⟨l, hholds, hbooks⟩ := h
  obtain ⟨lst, hlst, hholds'⟩ := hholds.tick cur
  rw [Server.tick, hlst] at hs'
  obtain rfl := Option.some.inj hs'
  rw [← List.takeWhile_append_dropWhile (p := SortTimerList.expired cur) (l := l)] at hbooks
  have hbooks' := hbooks.foldl_cbFunc
  exact ⟨_, hholds', { hbooks' with }⟩

/-! ### The steps -/

/-- What is kept along a run in which no call of `process` comes to `close_conn`. -/
structure Running (s : Server ω) : Prop where
  kept : s.Kept
  polled : Polled s.opened s.epoll s.pending
  workers : ∀ w job, s.workers w ≠ .closes job

theorem init_running (users : ℕ → HttpConn) (usersTimer : ℕ → ClientData) (maxRequest : ℕ) :
  (init users usersTimer maxRequest : Server ω).Running
  where
  kept := by
    refine ⟨[], SortTimerList.empty_holds, rfl, ⟨nofun, nofun, List.nodup_nil, ?_⟩,
      ⟨List.nodup_nil, nofun, nofun⟩, nofun⟩
    intro n
    exact ⟨nofun, fun h => absurd h.1 (Nat.not_lt_zero n)⟩
  polled := ⟨fun fd h => absurd rfl h, List.nodup_nil, nofun⟩
  workers := nofun

/-- The slot of an open connection. -/
theorem Kept.sockfd {s : Server ω} (h : s.Kept) {fd : ℕ} (hfd : fd ∈ s.opened) :
  (s.usersTimer fd).sockfd = fd
  := by
  obtain ⟨l, -, hbooks⟩ := h
  obtain ⟨t, d, a, b, -, -, hslot⟩ := hbooks.timers.split hfd
  rw [hslot]

theorem Kept.arm {s : Server ω} (h : s.Kept) (fd : Option ℕ) (ev : Interest) :
  (s.arm fd ev).Kept
  := by
  obtain ⟨l, hholds, hbooks⟩ := h
  cases fd with
  | none => exact ⟨l, hholds, hbooks⟩
  | some fd =>
      rw [Server.arm]
      split
      · exact ⟨l, hholds, { hbooks with }⟩
      · exact ⟨l, hholds, hbooks⟩

/-- `main` closes the connection whose event it handles. -/
theorem Running.closeByTimer {s s' : Server ω} (h : s.Running) {fd : ℕ} (hfd : fd ∈ s.opened)
    (hpending : fd ∉ s.pending) (hs' : s.closeByTimer fd = some s') :
  s'.Running
  := by
  have hkept := h.kept.closeByTimer hfd hs'
  obtain ⟨timer, timerLst, -, -, rfl⟩ := closeByTimer_eq_some hs'
  refine ⟨hkept, ?_, h.workers⟩
  apply h.polled.close
  rw [h.kept.sockfd hfd]
  exact hpending

/-- `main` puts off the timer of the connection whose event it handles. -/
theorem Running.delayTimer {s s' : Server ω} (h : s.Running) {fd : ℕ} (hfd : fd ∈ s.opened)
    {cur : ℤ} (hs' : s.delayTimer fd cur = some s') :
  s'.Running
  := by
  have hkept := h.kept.delayTimer hfd hs'
  obtain ⟨timerLst, rfl⟩ := delayTimer_eq_some hs'
  exact ⟨hkept, h.polled, h.workers⟩

theorem Running.append {s : Server ω} (h : s.Running) (fd : ℕ) :
  (s.append fd).Running
  := by
  rw [Server.append]
  split
  · exact h
  · obtain ⟨l, hholds, hbooks⟩ := h.kept
    exact ⟨⟨l, hholds, { hbooks with }⟩, h.polled, h.workers⟩

theorem Running.users {s : Server ω} (h : s.Running) (users : ℕ → HttpConn) :
  Running { s with users := users }
  := by
  obtain ⟨l, hholds, hbooks⟩ := h.kept
  exact ⟨⟨l, hholds, { hbooks with }⟩, h.polled, h.workers⟩

theorem Running.arm {s : Server ω} (h : s.Running) (fd : Option ℕ) (ev : Interest) :
  (s.arm fd ev).Running ∧ (s.arm fd ev).opened = s.opened ∧ (s.arm fd ev).pending = s.pending
  := by
  have hkept := h.kept.arm fd ev
  have hpolled := h.polled.arm_conn fd ev
  cases fd with
  | none => exact ⟨h, rfl, rfl⟩
  | some fd =>
      rw [Server.arm] at hkept hpolled ⊢
      split at hkept
      next hfd =>
        rw [if_pos hfd] at hpolled ⊢
        exact ⟨⟨hkept, hpolled, h.workers⟩, rfl, rfl⟩
      next hfd =>
        rw [if_neg hfd]
        exact ⟨h, rfl, rfl⟩

/-- `main` accepts a connection. -/
theorem Running.acceptConn {s s' : Server ω} (h : s.Running) {fd timer : ℕ} {cur : ℤ}
    {added : Registration} (hs' : s.acceptConn fd timer cur added = some s') :
  s'.Running
  := by
  have hkept := h.kept.acceptConn hs'
  obtain ⟨-, ⟨-, rfl⟩ | ⟨-, hs'⟩⟩ := acceptConn_eq_some hs'
  · exact h
  · obtain ⟨_, _, -, -, rfl⟩ := addTimer_eq_some hs'
    exact ⟨hkept, (h.polled.insert fd).arm (Finset.mem_insert_self ..) added.interest, h.workers⟩

/-- `main` reads from a connection. -/
theorem Running.readConn {s s' : Server ω} (h : s.Running) {fd : ℕ} (hfd : fd ∈ s.opened)
    (hpending : fd ∉ s.pending) {rs : List Recv} {cur : ℤ}
    (hs' : s.readConn fd rs cur = some s') :
  s'.Running
  := by
  obtain ⟨⟨ok, c⟩, -, hs'⟩ := Option.bind_eq_some_iff.mp hs'
  have h₁ := h.users (Function.update s.users fd c)
  cases ok with
  | false => exact h₁.closeByTimer hfd hpending hs'
  | true =>
      apply (h₁.append fd).delayTimer _ hs'
      rw [Server.append]
      split
      · exact hfd
      · exact hfd

/-- `main` writes to a connection. -/
theorem Running.writeConn {s s' : Server ω} (h : s.Running) {fd : ℕ} (hfd : fd ∈ s.opened)
    (hpending : fd ∉ s.pending) {os : List Outcome} {cur : ℤ}
    (hs' : s.writeConn fd os cur = some s') :
  s'.Running
  := by
  obtain ⟨⟨ok, s₁⟩, hs₁, hs'⟩ := Option.bind_eq_some_iff.mp hs'
  have h₁ : s₁.Running ∧ s₁.opened = s.opened ∧ s₁.pending = s.pending := by
    obtain ⟨c, -, ⟨-, rfl⟩ | ⟨ev, rfl⟩⟩ := sendConn_eq_some hs₁
    · exact ⟨h.users _, rfl, rfl⟩
    · exact (h.users (Function.update s.users fd c)).arm c.sockfd ev
  obtain ⟨h₁, hopened, hrest⟩ := h₁
  rw [← hopened] at hfd
  rw [← hrest] at hpending
  cases ok with
  | false => exact h₁.closeByTimer hfd hpending hs'
  | true => exact h₁.delayTimer hfd hs'

/-- `main` comes to the end of a batch. -/
theorem Running.finishBatch {s s' : Server ω} (h : s.Running) (hbatch : s.batch = some [])
    {cur : ℤ} (hs' : s.finishBatch cur = some s') :
  s'.Running
  := by
  obtain ⟨l, hholds, hbooks⟩ := h.kept
  have hpolled := h.polled
  rw [pending, hbatch] at hpolled
  rw [Server.finishBatch] at hs'
  split at hs'
  · have hkept : Kept { s with batch := none, timeout := false } := ⟨l, hholds, { hbooks with }⟩
    have hkept' := hkept.tick hs'
    obtain ⟨⟨calls, lst⟩, -, hs'⟩ := Option.bind_eq_some_iff.mp hs'
    obtain rfl := Option.some.inj hs'
    obtain ⟨opened, epoll, userCount, subtracted, fired, heq⟩ :=
      foldl_cbFunc_eq { s with batch := none, timeout := false } calls
    have hfold :=
      Polled.foldl_cbFunc (s := { s with batch := none, timeout := false }) hpolled calls
    refine ⟨hkept', ?_, ?_⟩
    · dsimp only [pending]
      rw [heq] at hfold ⊢
      exact hfold
    · dsimp only
      rw [heq]
      apply h.workers
  · obtain rfl := Option.some.inj hs'
    exact ⟨⟨l, hholds, { hbooks with }⟩, hpolled, h.workers⟩

/-- The events of a batch that `main` has not come to after the first. -/
theorem Running.next {s : Server ω} (h : s.Running) {r : Ready} {rest : List Ready}
    (hbatch : s.batch = some (r :: rest)) :
  Running { s with batch := some rest }
  := by
  obtain ⟨l, hholds, hbooks⟩ := h.kept
  have hpolled := h.polled
  rw [pending, hbatch] at hpolled
  refine ⟨⟨l, hholds, { hbooks with }⟩, ?_, h.workers⟩
  cases r with
  | listen => exact hpolled
  | alarm => exact hpolled
  | client fd ev => exact hpolled.tail

/-- A client whose event `main` handles is open, and no other event of it is left. -/
theorem Running.client {s : Server ω} (h : s.Running) {fd : ℕ} {ev : ClientEvent}
    {rest : List Ready} (hbatch : s.batch = some (.client fd ev :: rest)) :
  fd ∈ s.opened ∧ fd ∉ clients rest
  := by
  have hpolled := h.polled
  rw [pending, hbatch] at hpolled
  exact ⟨hpolled.opened fd List.mem_cons_self, (List.nodup_cons.mp hpolled.nodup).1⟩

section Workers

variable [DecidableEq ω]

/-- A worker goes on, but not to `close_conn`. -/
theorem Running.setWorker {s : Server ω} (h : s.Running) (w : ω) {x : Worker}
    (hx : ∀ job, x ≠ .closes job) :
  (s.setWorker w x).Running
  := by
  obtain ⟨l, hholds, hbooks⟩ := h.kept
  refine ⟨⟨l, hholds, { hbooks with }⟩, h.polled, ?_⟩
  intro w' job
  change Function.update s.workers w x w' ≠ _
  by_cases hw : w' = w
  · rw [hw, Function.update_self]
    apply hx job
  · rw [Function.update_of_ne hw]
    apply h.workers w' job

/-- A step that does not bring `process` to `close_conn`. -/
theorem Running.step {s s' : Server ω} (h : s.Running) {e : ServerEvent ω}
    (hok : NoCloseConn s e) (hs' : s.step e = some s') :
  s'.Running
  := by
  cases steps_of_step hs' with
  | wait hbatch hready =>
      obtain ⟨l, hholds, hbooks⟩ := h.kept
      have hpolled := h.polled
      rw [pending, hbatch] at hpolled
      exact ⟨⟨l, hholds, { hbooks with }⟩, hpolled.deliver hready, h.workers⟩
  | accept hbatch hs' => exact (h.next hbatch).acceptConn hs'
  | hup hbatch hs' =>
      obtain ⟨hfd, hpending⟩ := h.client hbatch
      exact (h.next hbatch).closeByTimer hfd hpending hs'
  | alarm hbatch =>
      obtain ⟨⟨l, hholds, hbooks⟩, hpolled, hworkers⟩ := h.next hbatch
      exact ⟨⟨l, hholds, { hbooks with }⟩, hpolled, hworkers⟩
  | read hbatch hs' =>
      obtain ⟨hfd, hpending⟩ := h.client hbatch
      exact (h.next hbatch).readConn hfd hpending hs'
  | write hbatch hs' =>
      obtain ⟨hfd, hpending⟩ := h.client hbatch
      exact (h.next hbatch).writeConn hfd hpending hs'
  | pass hbatch => exact h.next hbatch
  | endBatch hbatch hs' => exact h.finishBatch hbatch hs'
  | @take w job queue _ _ =>
      obtain ⟨l, hholds, hbooks⟩ := h.kept
      have h₁ : Running { s with workqueue := queue } :=
        ⟨⟨l, hholds, { hbooks with }⟩, h.polled, h.workers⟩
      exact h₁.setWorker w nofun
  | rearm hw hc => exact (h.users _).setWorker _ nofun
  | refuse hw hc => exact absurd hc (hok _ _ hw)
  | closeConn hw => exact absurd hw (h.workers _ _)
  | modfd hw | modfdClosed hw => exact (h.arm _ _).1.setWorker _ nofun

/-- The users are counted right throughout every run in which no call of `process` comes
to `close_conn`. -/
theorem accounted_throughout {users : ℕ → HttpConn} {usersTimer : ℕ → ClientData}
    {maxRequest : ℕ} {es : List (ServerEvent ω)}
    (h : Run.Along step NoCloseConn (init users usersTimer maxRequest) es) :
  Run.Throughout step Accounted (init users usersTimer maxRequest) es
  := by
  apply Run.throughout_of_along (I := Running) _ _ (init_running users usersTimer maxRequest) h
  · intro s e s' hs hok hs'
    apply hs.step hok hs'
  · intro s hs
    obtain ⟨l, -, hbooks⟩ := hs.kept
    apply hbooks.accounted

/-- The timers match the open connections throughout every run in which no call of
`process` comes to `close_conn`. -/
theorem matched_throughout {users : ℕ → HttpConn} {usersTimer : ℕ → ClientData}
    {maxRequest : ℕ} {es : List (ServerEvent ω)}
    (h : Run.Along step NoCloseConn (init users usersTimer maxRequest) es) :
  Run.Throughout step (fun s => ∃ l, s.Matched l) (init users usersTimer maxRequest) es
  := by
  apply Run.throughout_of_along (I := Running) _ _ (init_running users usersTimer maxRequest) h
  · intro s e s' hs hok hs'
    apply hs.step hok hs'
  · intro s hs
    obtain ⟨l, hholds, hbooks⟩ := hs.kept
    exact ⟨l, hbooks.matched hholds⟩

end Workers

/-- A connection whose timer expires while its request is in the queue. -/
def expiresQueued : List (ServerEvent ℕ) :=
  [.wait [.listen], .accept 5 100 0 .clean, .endBatch 0, .wait [.client 5 .readable, .alarm],
    .read [.bytes (ascii "GET"), .again] 1, .alarm true, .endBatch 16]

theorem expiresQueued_noCloseConn (s : Server ℕ) :
  Run.Along step NoCloseConn s expiresQueued
  := by
  simp [expiresQueued, Run.Along, NoCloseConn]

theorem accounted_throughout_expiresQueued :
  Run.Throughout step Accounted (blank 1) expiresQueued
  := accounted_throughout (expiresQueued_noCloseConn _)

theorem matched_throughout_expiresQueued :
  Run.Throughout step (fun s => ∃ l, s.Matched l) (blank 1) expiresQueued
  := matched_throughout (expiresQueued_noCloseConn _)

/-- A connection whose request is for a file that does not exist. -/
def missingFile : List (ServerEvent ℕ) :=
  [.wait [.listen], .accept 5 100 0 .clean, .endBatch 0, .wait [.client 5 .readable],
    .read [.bytes (ascii "GET /x HTTP/1.1\r\n\r\n"), .again] 1, .endBatch 1, .take 0,
    .process 0 (.plain .missing), .closeConn 0, .modfd 0]

set_option maxRecDepth 10000 in
/-- A connection that a worker closed is subtracted again when its timer expires. -/
theorem not_accounted :
  ¬ ∀ (users : ℕ → HttpConn) (usersTimer : ℕ → ClientData) (maxRequest : ℕ)
    (es : List (ServerEvent ℕ)) (t : Server ℕ),
    Run.exec step (init users usersTimer maxRequest) es = some t → t.Accounted
  := by
  intro h
  have hcount : (Run.exec step (blank 1) (missingFile ++ [.wait [.alarm], .alarm true,
      .endBatch 16])).map (·.userCount) = some (-1) := by
    decide +kernel
  obtain ⟨t, ht, hcount⟩ := Option.map_eq_some_iff.mp hcount
  have hnonneg := (h _ _ _ _ t ht).nonneg
  rw [hcount] at hnonneg
  cases hnonneg

set_option maxRecDepth 10000 in
/-- The timer of a connection that a worker closed closes the next one with its
descriptor. -/
theorem not_matched :
  ¬ ∀ (users : ℕ → HttpConn) (usersTimer : ℕ → ClientData) (maxRequest : ℕ)
    (es : List (ServerEvent ℕ)) (t : Server ℕ),
    Run.exec step (init users usersTimer maxRequest) es = some t → ∃ l, t.Matched l
  := by
  intro h
  have hfired : (Run.exec step (blank 1) (missingFile ++ [.wait [.listen], .accept 5 101 2 .clean,
      .endBatch 2, .wait [.alarm], .alarm true, .endBatch 16])).map (·.fired) =
        some [(0, some 1)] := by
    decide +kernel
  obtain ⟨t, ht, hfired⟩ := Option.map_eq_some_iff.mp hfired
  obtain ⟨l, hmatched⟩ := h _ _ _ _ t ht
  have hown := hmatched.own (0, some 1) (by rw [hfired]; exact List.mem_cons_self)
  cases hown

end Server

end WebServer
