import WebServer.Server.Changes

/-!
# No step fails on a timer

`main` follows `users_timer[sockfd].timer` without a look at what it points to, and never
sets it back when it deletes the timer.  Still it follows it for open descriptors only, or
for those whose event was delivered, and for these it points to a timer of the list
(`Timed`): a worker's `close_conn` leaves the timer where it is, a timer that is deleted
closes the descriptor of its slot, and a batch has one event of a descriptor.

So the use of a null pointer or of a deleted timer never keeps a step from being taken, in
any state that the server comes to (`step_isSome_iff`), even when connections are closed by
workers and the wrong ones by left over timers.
-/

open CString LinkedList

namespace WebServer

namespace Server

variable {ω : Type}

/-- The slot of a descriptor points to a timer of the list `l`, which points back to it. -/
def Attached (s : Server ω) (l : List (ℕ × TimerData)) (fd : ℕ) : Prop :=
  ∃ t, (t, fd) ∈ SortTimerList.calls l ∧ s.usersTimer fd = ⟨fd, some t⟩

/-- The list of the timers is `l`, each timer is for a slot that was used, and the slot of
every descriptor that is open or ready points to a timer of its own. -/
structure Timed (s : Server ω) (l : List (ℕ × TimerData)) : Prop where
  holds : s.timerLst.Holds l
  slot : ∀ call ∈ SortTimerList.calls l, (s.usersTimer call.2).sockfd = call.2
  attached : ∀ fd, fd ∈ s.opened ∨ fd ∈ s.pending → s.Attached l fd
  armed : ∀ fd, s.epoll fd ≠ none → fd ∈ s.opened
  nodup : s.pending.Nodup

theorem init_timed (users : ℕ → HttpConn) (usersTimer : ℕ → ClientData) (maxRequest : ℕ) :
  (init users usersTimer maxRequest : Server ω).Timed []
  where
  holds := SortTimerList.empty_holds
  slot := fun _ ht => by cases ht
  attached := by
    rintro fd (hfd | hfd)
    · cases hfd
    · cases hfd
  armed := fun fd hfd => absurd rfl hfd
  nodup := List.nodup_nil

section Timed

variable {s s' : Server ω} {l : List (ℕ × TimerData)} {fd : ℕ}

/-- What leaves the timers and opens nothing. -/
theorem Timed.congr (h : s.Timed l) (hlst : s'.timerLst = s.timerLst)
    (hslots : s'.usersTimer = s.usersTimer)
    (hopened : ∀ fd, fd ∈ s'.opened ∨ fd ∈ s'.pending → fd ∈ s.opened ∨ fd ∈ s.pending)
    (harmed : ∀ fd, s'.epoll fd ≠ none → fd ∈ s'.opened) (hnodup : s'.pending.Nodup) :
  s'.Timed l
  where
  holds := hlst ▸ h.holds
  slot := hslots ▸ h.slot
  attached := by
    intro fd hfd
    rw [Attached, hslots]
    exact h.attached fd (hopened fd hfd)
  armed := harmed
  nodup := hnodup

/-- Another list of the same timers. -/
theorem Timed.list (h : s.Timed l) {l' : List (ℕ × TimerData)} {timerLst : SortTimerList}
    (hholds : timerLst.Holds l')
    (hcalls : (SortTimerList.calls l').Perm (SortTimerList.calls l)) :
  Timed { s with timerLst := timerLst } l'
  where
  holds := hholds
  slot := fun call hcall => h.slot call (hcalls.mem_iff.mp hcall)
  attached := by
    intro fd hfd
    obtain ⟨t, ht, hslot⟩ := h.attached fd hfd
    exact ⟨t, hcalls.mem_iff.mpr ht, hslot⟩
  armed := h.armed
  nodup := h.nodup

/-- The timer of a slot, in its place in the list. -/
theorem Attached.split (h : s.Attached l fd) :
  ∃ t d a b, l = a ++ (t, d) :: b ∧ d.userData = fd ∧ s.usersTimer fd = ⟨fd, some t⟩
  := by
  obtain ⟨t, ht, hslot⟩ := h
  obtain ⟨⟨t', d⟩, hmem, heq⟩ := List.mem_map.mp ht
  cases heq
  obtain ⟨a, b, rfl⟩ := List.append_of_mem hmem
  exact ⟨t', d, a, b, rfl, rfl, hslot⟩

theorem calls_append (a b : List (ℕ × TimerData)) :
  SortTimerList.calls (a ++ b) = SortTimerList.calls a ++ SortTimerList.calls b
  := List.map_append

/-! ### The operations of `main` -/

/-- The timer of a slot may be put off. -/
theorem Timed.delayTimer (h : s.Timed l) (hfd : s.Attached l fd) (cur : ℤ) :
  ∃ s' l', s.delayTimer fd cur = some s' ∧ s'.Timed l'
  := by
  obtain ⟨t, d, a, b, rfl, rfl, hslot⟩ := hfd.split
  obtain ⟨lst₁, hlst₁, hholds₁⟩ := h.holds.setExpire (cur + 3 * timeslot)
  obtain ⟨lst₂, hlst₂, hholds₂⟩ := hholds₁.adjustTimer
  have hperm := SortTimerList.insertTimer_perm (t, { d with expire := cur + 3 * timeslot }) b
  have hcalls : (SortTimerList.calls (a ++ SortTimerList.insertTimer
      (t, { d with expire := cur + 3 * timeslot }) b)).Perm
        (SortTimerList.calls (a ++ (t, d) :: b)) := by
    rw [calls_append, calls_append]
    exact (hperm.map _).append_left _
  refine ⟨_, _, ?_, h.list hholds₂ hcalls⟩
  rw [Server.delayTimer, hslot]
  change (s.timerLst.setExpire t _).bind _ = _
  rw [hlst₁]
  change (lst₁.adjustTimer (some t)).bind _ = _
  rw [hlst₂]
  rfl

/-- The timer of a slot may close the descriptor, when no other event of it is left. -/
theorem Timed.closeByTimer (h : s.Timed l) (hfd : s.Attached l fd) (hpending : fd ∉ s.pending) :
  ∃ s' l', s.closeByTimer fd = some s' ∧ s'.Timed l'
  := by
  obtain ⟨t, d, a, b, rfl, rfl, hslot⟩ := hfd.split
  obtain ⟨lst, hlst, hholds⟩ := h.holds.delTimer
  obtain ⟨p, q, hcell⟩ : ∃ p q, s.timerLst.heap t = some ⟨d, p, q⟩ :=
    ⟨_, _, h.holds.seg.cell⟩
  have hsock : (s.usersTimer d.userData).sockfd = d.userData := by
    rw [hslot]
  have hclose : s.closeByTimer d.userData =
      some { s.cbFunc t d.userData with timerLst := lst } := by
    rw [Server.closeByTimer, hslot]
    change (s.timerLst.heap t).bind _ = _
    rw [hcell]
    change (s.timerLst.delTimer (some t)).bind _ = _
    rw [hlst]
    rfl
  have hcalls : ∀ call, call ∈ SortTimerList.calls (a ++ b) →
      call ∈ SortTimerList.calls (a ++ (t, d) :: b) := by
    intro call hcall
    rw [calls_append] at hcall ⊢
    rw [List.mem_append] at hcall ⊢
    exact hcall.imp_right (List.mem_cons_of_mem _)
  refine ⟨_, a ++ b, hclose, hholds, fun call hcall => h.slot call (hcalls call hcall), ?_, ?_,
    h.nodup⟩
  · intro fd hfd
    have hne : fd ≠ d.userData := by
      rintro rfl
      rcases hfd with hfd | hfd
      · apply (Finset.mem_erase.mp hfd).1 hsock.symm
      · apply hpending hfd
    have hfd' : fd ∈ s.opened ∨ fd ∈ s.pending :=
      hfd.imp_left fun hfd => Finset.mem_of_mem_erase hfd
    obtain ⟨t', ht', hslot'⟩ := h.attached fd hfd'
    refine ⟨t', ?_, hslot'⟩
    rw [calls_append, List.mem_append] at ht' ⊢
    rcases ht' with ht' | ht'
    · exact .inl ht'
    · rcases List.mem_cons.mp ht' with heq | ht'
      · apply absurd (Prod.mk.inj heq).2 hne
      · exact .inr ht'
  · intro fd hfd
    exact opened_of_armed_close h.armed hfd

/-- A connection that is accepted gets a timer, at an address that is not in use. -/
theorem Timed.addTimer (h : s.Timed l) {timer : ℕ} (htimer : s.timerLst.heap timer = none)
    (cur : ℤ) (added : Registration) :
  ∃ s' l', (s.initConn fd added).addTimer fd timer cur = some s' ∧ s'.Timed l'
  := by
  have hnew : timer ∉ addresses l := by
    rw [← h.holds.cells, htimer]
    exact Bool.false_ne_true
  obtain ⟨lst₁, lst₂, hlst₁, hlst₂, hholds⟩ :=
    h.holds.addTimer ⟨cur + 3 * timeslot, fd⟩ hnew
  have hperm := (SortTimerList.insertTimer_perm (timer, ⟨cur + 3 * timeslot, fd⟩) l).map
    fun t => (t.1, t.2.userData)
  have hslot : ∀ fd', fd' ≠ fd →
      Function.update s.usersTimer fd ⟨fd, some timer⟩ fd' = s.usersTimer fd' :=
    fun fd' hne => Function.update_of_ne hne ..
  have hadd : (s.initConn fd added).addTimer fd timer cur = some { s.initConn fd added with
      usersTimer := Function.update s.usersTimer fd ⟨fd, some timer⟩
      timerLst := lst₂
      timerConn := Function.update s.timerConn timer ((s.initConn fd added).conn fd) } := by
    rw [Server.addTimer]
    change (s.timerLst.newTimer timer _).bind _ = _
    rw [hlst₁]
    change (lst₁.addTimer (some timer)).bind _ = _
    rw [hlst₂]
    rfl
  refine ⟨_, _, hadd, hholds, ?_, ?_, ?_, h.nodup⟩
  · intro call hcall
    change (Function.update s.usersTimer fd ⟨fd, some timer⟩ call.2).sockfd = call.2
    by_cases heq : call.2 = fd
    · rw [heq, Function.update_self]
    · rw [hslot _ heq]
      rcases List.mem_cons.mp (hperm.mem_iff.mp hcall) with rfl | hcall
      · apply absurd rfl heq
      · apply h.slot call hcall
  · intro fd' hfd'
    by_cases heq : fd' = fd
    · subst heq
      exact ⟨timer, hperm.mem_iff.mpr List.mem_cons_self, Function.update_self ..⟩
    · have hbefore : fd' ∈ s.opened ∨ fd' ∈ s.pending :=
        hfd'.imp_left fun hfd' => (Finset.mem_insert.mp hfd').resolve_left heq
      obtain ⟨t, ht, hslot'⟩ := h.attached fd' hbefore
      exact ⟨t, hperm.mem_iff.mpr (List.mem_cons_of_mem _ ht), (hslot fd' heq).trans hslot'⟩
  · intro fd' hfd'
    apply Finset.mem_insert.mpr
    by_cases heq : fd' = fd
    · exact .inl heq
    · refine .inr (h.armed fd' ?_)
      intro hnone
      exact hfd' ((Function.update_of_ne heq ..).trans hnone)

/-- The timers that fire leave open what has another slot than theirs. -/
theorem mem_foldl_cbFunc {s : Server ω} {calls : List (ℕ × ℕ)}
    (hslot : ∀ call ∈ calls, (s.usersTimer call.2).sockfd = call.2) :
  fd ∈ (calls.foldl (fun s call => s.cbFunc call.1 call.2) s).opened ↔
    fd ∈ s.opened ∧ ∀ call ∈ calls, call.2 ≠ fd
  := by
  induction calls generalizing s with
  | nil => exact ⟨fun hfd => ⟨hfd, fun call hcall => by cases hcall⟩, And.left⟩
  | cons call calls ih =>
      obtain ⟨hcall, hcalls⟩ := List.forall_mem_cons.mp hslot
      have hrest := ih (s := s.cbFunc call.1 call.2) hcalls
      have hclose : fd ∈ (s.cbFunc call.1 call.2).opened ↔ call.2 ≠ fd ∧ fd ∈ s.opened := by
        change fd ∈ s.opened.erase _ ↔ _
        rw [Finset.mem_erase, hcall, ne_comm]
      rw [List.foldl_cons, hrest, hclose, List.forall_mem_cons]
      exact ⟨fun h => ⟨h.1.2, h.1.1, h.2⟩, fun h => ⟨⟨h.2.1, h.1⟩, h.2.2⟩⟩

theorem foldl_cbFunc_armed {s : Server ω} (calls : List (ℕ × ℕ))
    (h : ∀ fd, s.epoll fd ≠ none → fd ∈ s.opened) :
  ∀ fd, (calls.foldl (fun s call => s.cbFunc call.1 call.2) s).epoll fd ≠ none →
    fd ∈ (calls.foldl (fun s call => s.cbFunc call.1 call.2) s).opened
  := by
  induction calls generalizing s with
  | nil => exact h
  | cons call calls ih =>
      apply ih
      intro fd hfd
      exact opened_of_armed_close h hfd

/-- `tick` is taken at the end of a batch. -/
theorem Timed.tick (h : s.Timed l) (hnil : s.pending = []) (cur : ℤ) :
  ∃ s' l', s.tick cur = some s' ∧ s'.Timed l'
  := by
  obtain ⟨lst, hlst, hholds⟩ := h.holds.tick cur
  have hsplit : SortTimerList.calls l =
      SortTimerList.calls (l.takeWhile (SortTimerList.expired cur)) ++
        SortTimerList.calls (l.dropWhile (SortTimerList.expired cur)) := by
    rw [← calls_append, List.takeWhile_append_dropWhile]
  have htick : s.tick cur = some { (SortTimerList.calls (l.takeWhile
      (SortTimerList.expired cur))).foldl (fun s call => s.cbFunc call.1 call.2) s with
        timerLst := lst } := by
    rw [Server.tick]
    change (s.timerLst.tick cur).bind _ = _
    rw [hlst]
    rfl
  obtain ⟨opened, epoll, userCount, subtracted, fired, heq⟩ := foldl_cbFunc_eq s
    (SortTimerList.calls (l.takeWhile (SortTimerList.expired cur)))
  have hslot : ∀ call ∈ SortTimerList.calls (l.takeWhile (SortTimerList.expired cur)),
      (s.usersTimer call.2).sockfd = call.2 := by
    intro call hcall
    apply h.slot call
    rw [hsplit]
    apply List.mem_append_left _ hcall
  have harmed := foldl_cbFunc_armed
    (SortTimerList.calls (l.takeWhile (SortTimerList.expired cur))) h.armed
  have hmem := fun fd => (@mem_foldl_cbFunc ω fd s _ hslot).mp
  rw [heq] at htick harmed hmem
  refine ⟨_, _, htick, hholds, ?_, ?_, harmed, h.nodup⟩
  · intro call hcall
    apply h.slot call
    rw [hsplit]
    apply List.mem_append_right _ hcall
  · rintro fd (hfd | hfd)
    · obtain ⟨hopened, hne⟩ := hmem fd hfd
      obtain ⟨t, ht, hslot'⟩ := h.attached fd (.inl hopened)
      rw [hsplit, List.mem_append] at ht
      rcases ht with ht | ht
      · apply absurd rfl (hne _ ht)
      · exact ⟨t, ht, hslot'⟩
    · change fd ∈ s.pending at hfd
      rw [hnil] at hfd
      cases hfd

/-- The objects of the connections and the queue play no part. -/
theorem Timed.users (h : s.Timed l) (users : ℕ → HttpConn) :
  Timed { s with users := users } l
  := h.congr rfl rfl (fun _ hfd => hfd) h.armed h.nodup

theorem Timed.append (h : s.Timed l) (fd : ℕ) :
  (s.append fd).Timed l
  := by
  rw [Server.append]
  split
  · exact h
  · exact h.congr rfl rfl (fun _ hfd => hfd) h.armed h.nodup

theorem append_usersTimer (s : Server ω) (fd : ℕ) :
  (s.append fd).usersTimer = s.usersTimer
  := by
  rw [Server.append]
  split
  · rfl
  · rfl

/-- `modfd` arms open descriptors only. -/
theorem Timed.arm (h : s.Timed l) (fd : Option ℕ) (ev : Interest) :
  (s.arm fd ev).Timed l
  := by
  cases fd with
  | none => exact h
  | some fd =>
      rw [Server.arm]
      split
      next hfd =>
        refine h.congr rfl rfl (fun _ hfd => hfd) ?_ h.nodup
        intro fd' hfd'
        exact opened_of_armed_arm h.armed hfd.1 hfd'
      next => exact h

theorem arm_kept (s : Server ω) (fd : Option ℕ) (ev : Interest) :
  (s.arm fd ev).usersTimer = s.usersTimer ∧ (s.arm fd ev).pending = s.pending
  := by
  cases fd with
  | none => exact ⟨rfl, rfl⟩
  | some fd =>
      rw [Server.arm]
      split
      · exact ⟨rfl, rfl⟩
      · exact ⟨rfl, rfl⟩

/-- `main` reads, when `recv` comes to an end. -/
theorem Timed.readConn (h : s.Timed l) (hfd : s.Attached l fd) (hpending : fd ∉ s.pending)
    {rs : List Recv} (hread : ((s.users fd).read rs).isSome = true) (cur : ℤ) :
  ∃ s' l', s.readConn fd rs cur = some s' ∧ s'.Timed l'
  := by
  obtain ⟨⟨ok, c⟩, hread⟩ := Option.isSome_iff_exists.mp hread
  have h₁ := h.users (Function.update s.users fd c)
  rw [Server.readConn, hread]
  cases ok with
  | false => exact h₁.closeByTimer hfd hpending
  | true =>
      refine (h₁.append fd).delayTimer ?_ cur
      rw [Attached, append_usersTimer]
      exact hfd

/-- `main` writes, when `writev` comes to an end. -/
theorem Timed.writeConn (h : s.Timed l) (hfd : s.Attached l fd) (hpending : fd ∉ s.pending)
    {os : List Outcome} (hwrite : ((s.users fd).write os).2.isSome = true) (cur : ℤ) :
  ∃ s' l', s.writeConn fd os cur = some s' ∧ s'.Timed l'
  := by
  have hsend : ∃ ok s₁, s.sendConn fd os = some (ok, s₁) ∧ s₁.Timed l ∧
      s₁.usersTimer = s.usersTimer ∧ s₁.pending = s.pending := by
    rcases hw : (s.users fd).write os with ⟨c, e⟩
    rw [hw] at hwrite
    obtain ⟨e, rfl⟩ := Option.isSome_iff_exists.mp hwrite
    have h₁ := h.users (Function.update s.users fd c)
    rw [sendConn, hw]
    dsimp only
    cases e.interest with
    | none => exact ⟨_, _, rfl, h₁, rfl, rfl⟩
    | some ev => exact ⟨_, _, rfl, h₁.arm c.sockfd ev, arm_kept _ c.sockfd ev⟩
  obtain ⟨ok, s₁, hs₁, h₁, hslots, hrest⟩ := hsend
  have hattached : s₁.Attached l fd := by
    rw [Attached, hslots]
    exact hfd
  rw [Server.writeConn, hs₁]
  cases ok with
  | false => exact h₁.closeByTimer hattached (hrest ▸ hpending)
  | true => exact h₁.delayTimer hattached cur

/-- `main` accepts a connection, or refuses it. -/
theorem Timed.acceptConn (h : s.Timed l) (hfd : fd ∉ s.opened) {timer : ℕ}
    (hroom : s.userCount < maxFd → fd < maxFd ∧ s.timerLst.heap timer = none) (cur : ℤ)
    (added : Registration) :
  ∃ s' l', s.acceptConn fd timer cur added = some s' ∧ s'.Timed l'
  := by
  rw [Server.acceptConn, if_neg hfd]
  by_cases hmany : (maxFd : ℤ) ≤ s.userCount
  · rw [if_pos hmany]
    exact ⟨s, l, rfl, h⟩
  · obtain ⟨hlt, htimer⟩ := hroom (not_le.mp hmany)
    rw [if_neg hmany, if_neg (not_le.mpr hlt)]
    exact h.addTimer htimer cur added

/-- `main` comes to the end of a batch. -/
theorem Timed.finishBatch (h : s.Timed l) (hbatch : s.batch = some []) (cur : ℤ) :
  ∃ s' l', s.finishBatch cur = some s' ∧ s'.Timed l'
  := by
  have hpending : s.pending = [] := by
    rw [pending, hbatch]
    rfl
  have hwait : ∀ timeout, Timed { s with batch := none, timeout := timeout } l := by
    intro timeout
    refine h.congr rfl rfl (fun fd hfd => ?_) h.armed List.nodup_nil
    exact hfd.imp_right fun hfd => by cases hfd
  rw [Server.finishBatch]
  split
  · exact (hwait false).tick rfl cur
  · exact ⟨_, l, rfl, hwait s.timeout⟩

/-- The rest of a batch. -/
theorem Timed.next (h : s.Timed l) {r : Ready} {rest : List Ready}
    (hbatch : s.batch = some (r :: rest)) :
  Timed { s with batch := some rest } l
  := by
  have hsub : (clients rest).Sublist s.pending := by
    rw [pending, hbatch]
    exact (List.sublist_cons_self r rest).filterMap _
  refine h.congr rfl rfl (fun fd hfd => ?_) h.armed (h.nodup.sublist hsub)
  exact hfd.imp_right fun hfd => hsub.subset hfd

/-- The slot of a client whose event `main` handles points to a timer, and no other event of
it is left. -/
theorem Timed.client (h : s.Timed l) {ev : ClientEvent} {rest : List Ready}
    (hbatch : s.batch = some (.client fd ev :: rest)) :
  Attached { s with batch := some rest } l fd ∧ fd ∉ clients rest
  := by
  have hpending : s.pending = fd :: clients rest := by
    rw [pending, hbatch]
    rfl
  constructor
  · have hattached := h.attached fd (.inr (by rw [hpending]; exact List.mem_cons_self))
    exact hattached
  · have hnodup := h.nodup
    rw [hpending] at hnodup
    exact (List.nodup_cons.mp hnodup).1

/-- `close_conn` leaves the timer of the connection. -/
theorem Timed.closeConn (h : s.Timed l) (job : Job) :
  (s.closeConn job).Timed l
  := by
  rw [Server.closeConn]
  split
  next => exact h
  next fd _ =>
    refine h.congr rfl rfl (fun fd' hfd' => ?_) (fun fd' hfd' => ?_) h.nodup
    · exact hfd'.imp_left fun hfd' => Finset.mem_of_mem_erase hfd'
    · exact opened_of_armed_close h.armed hfd'

/-- `epoll_wait` returns. -/
theorem Timed.wait (h : s.Timed l) {ready : List Ready} (hready : s.Deliverable ready) :
  Timed { s with
    batch := some ready
    epoll := fun fd => if fd ∈ clients ready then none else s.epoll fd } l
  := by
  refine h.congr rfl rfl ?_ ?_ hready.2.1
  · rintro fd (hfd | hfd)
    · exact .inl hfd
    · exact .inl (h.armed fd (hready.armed hfd))
  · intro fd hfd
    by_cases hclient : fd ∈ clients ready
    · exact absurd (if_pos hclient) hfd
    · exact h.armed fd fun hnone => hfd ((if_neg hclient).trans hnone)

end Timed

/-! ### The steps -/

/-- What a step takes but for the timers: an event of the batch or a job at the place of
the step, what the operating system may return, a descriptor that has a slot, and a request
at which `process` does not fault. -/
def Offered (s : Server ω) : ServerEvent ω → Prop
  | .wait ready => s.batch = none ∧ s.Deliverable ready
  | .accept fd timer _ _ =>
    (∃ rest, s.batch = some (.listen :: rest)) ∧ fd ∉ s.opened ∧
      (s.userCount < maxFd → fd < maxFd ∧ s.timerLst.heap timer = none)
  | .hup => ∃ fd rest, s.batch = some (.client fd .hup :: rest)
  | .alarm _ => ∃ rest, s.batch = some (.alarm :: rest)
  | .read rs _ =>
    ∃ fd rest, s.batch = some (.client fd .readable :: rest) ∧
      ((s.users fd).read rs).isSome = true
  | .write os _ =>
    ∃ fd rest, s.batch = some (.client fd .writable :: rest) ∧
      ((s.users fd).write os).2.isSome = true
  | .pass => ∃ fd rest, s.batch = some (.client fd .other :: rest)
  | .endBatch _ => s.batch = some []
  | .take w => s.workers w = .idle ∧ s.workqueue ≠ []
  | .process w found =>
    ∃ job, s.workers w = .took job ∧ ∃ r, (s.users job.fd).process found = .ok r
  | .closeConn w => ∃ job, s.workers w = .closes job
  | .modfd w => (∃ job ev, s.workers w = .rearms job ev) ∨ ∃ job, s.workers w = .closed job

section Offered

variable {s s' : Server ω}

/-- A connection that is accepted has a slot and gets a new timer. -/
theorem acceptConn_offered {fd timer : ℕ} {cur : ℤ} {added : Registration}
    (h : s.acceptConn fd timer cur added = some s') :
  fd ∉ s.opened ∧ (s.userCount < maxFd → fd < maxFd ∧ s.timerLst.heap timer = none)
  := by
  rw [Server.acceptConn] at h
  split at h
  next => cases h
  next hfd =>
    refine ⟨hfd, ?_⟩
    intro hfew
    rw [if_neg (not_le.mpr hfew)] at h
    split at h
    next => cases h
    next hlt =>
      refine ⟨not_le.mp hlt, ?_⟩
      obtain ⟨lst, -, hnew, -, -⟩ := addTimer_eq_some h
      change s.timerLst.newTimer timer _ = some lst at hnew
      rw [SortTimerList.newTimer] at hnew
      split at hnew
      next hnone => exact Option.isNone_iff_eq_none.mp hnone
      next => cases hnew

/-- A call of `write` that sends comes to an end. -/
theorem sendConn_offered {fd : ℕ} {os : List Outcome} {r : Bool × Server ω}
    (h : s.sendConn fd os = some r) :
  ((s.users fd).write os).2.isSome = true
  := by
  rw [sendConn] at h
  split at h
  next => cases h
  next hwrite =>
    rw [hwrite]
    rfl

end Offered

section Workers

variable [DecidableEq ω] {s s' : Server ω} {l : List (ℕ × TimerData)}

theorem Timed.setWorker (h : s.Timed l) (w : ω) (x : Worker) :
  (s.setWorker w x).Timed l
  := h.congr rfl rfl (fun _ hfd => hfd) h.armed h.nodup

/-- A step that is offered is taken, and keeps the timers. -/
theorem Timed.step (h : s.Timed l) {e : ServerEvent ω} (he : s.Offered e) :
  ∃ s' l', s.step e = some s' ∧ s'.Timed l'
  := by
  cases e with
  | wait ready =>
      obtain ⟨hbatch, hready⟩ := he
      refine ⟨_, l, ?_, h.wait hready⟩
      rw [Server.step, hbatch]
      exact if_pos hready
  | accept fd timer cur added =>
      obtain ⟨⟨rest, hbatch⟩, hfd, hroom⟩ := he
      rw [Server.step, hbatch]
      exact (h.next hbatch).acceptConn hfd hroom cur added
  | hup =>
      obtain ⟨fd, rest, hbatch⟩ := he
      obtain ⟨hattached, hpending⟩ := h.client hbatch
      rw [Server.step, hbatch]
      exact (h.next hbatch).closeByTimer hattached hpending
  | alarm received =>
      obtain ⟨rest, hbatch⟩ := he
      have h₁ := h.next hbatch
      rw [Server.step, hbatch]
      exact ⟨_, l, rfl, h₁.congr rfl rfl (fun _ hfd => hfd) h₁.armed h₁.nodup⟩
  | read rs cur =>
      obtain ⟨fd, rest, hbatch, hread⟩ := he
      obtain ⟨hattached, hpending⟩ := h.client hbatch
      rw [Server.step, hbatch]
      exact (h.next hbatch).readConn hattached hpending hread cur
  | write os cur =>
      obtain ⟨fd, rest, hbatch, hwrite⟩ := he
      obtain ⟨hattached, hpending⟩ := h.client hbatch
      rw [Server.step, hbatch]
      exact (h.next hbatch).writeConn hattached hpending hwrite cur
  | pass =>
      obtain ⟨fd, rest, hbatch⟩ := he
      rw [Server.step, hbatch]
      exact ⟨_, l, rfl, h.next hbatch⟩
  | endBatch cur =>
      rw [Server.step, he]
      exact h.finishBatch he cur
  | take w =>
      obtain ⟨hw, hqueue⟩ := he
      obtain ⟨job, queue, hqueue⟩ := List.exists_cons_of_ne_nil hqueue
      have h₁ : Timed { s with workqueue := queue } l :=
        h.congr rfl rfl (fun _ hfd => hfd) h.armed h.nodup
      rw [Server.step, hw, hqueue]
      exact ⟨_, l, rfl, h₁.setWorker w (.took job)⟩
  | process w found =>
      obtain ⟨job, hw, ⟨e, c⟩, hc⟩ := he
      have h₁ := h.users (Function.update s.users job.fd c)
      rw [Server.step, hw]
      dsimp only
      rw [processConn, hc]
      cases e with
      | rearm ev => exact ⟨_, l, rfl, h₁.setWorker w (.rearms job ev)⟩
      | close => exact ⟨_, l, rfl, h₁.setWorker w (.closes job)⟩
  | closeConn w =>
      obtain ⟨job, hw⟩ := he
      rw [Server.step, hw]
      exact ⟨_, l, rfl, (h.closeConn job).setWorker w (.closed job)⟩
  | modfd w =>
      rcases he with ⟨job, ev, hw⟩ | ⟨job, hw⟩
      · rw [Server.step, hw]
        exact ⟨_, l, rfl, (h.arm _ ev).setWorker w .idle⟩
      · rw [Server.step, hw]
        exact ⟨_, l, rfl, (h.arm _ .epollOut).setWorker w .idle⟩

/-- A step that is taken was offered. -/
theorem offered_of_step {e : ServerEvent ω} (hs' : s.step e = some s') :
  s.Offered e
  := by
  cases steps_of_step hs' with
  | wait hbatch hready => exact ⟨hbatch, hready⟩
  | accept hbatch hs' =>
      have hoffered := acceptConn_offered hs'
      exact ⟨⟨_, hbatch⟩, hoffered⟩
  | hup hbatch _ => exact ⟨_, _, hbatch⟩
  | alarm hbatch => exact ⟨_, hbatch⟩
  | read hbatch hs' =>
      obtain ⟨r, hread, -⟩ := Option.bind_eq_some_iff.mp hs'
      exact ⟨_, _, hbatch, Option.isSome_iff_exists.mpr ⟨r, hread⟩⟩
  | @write os cur fd rest _ hbatch hs' =>
      obtain ⟨r, hsend, -⟩ := Option.bind_eq_some_iff.mp hs'
      have hoffered := sendConn_offered hsend
      exact ⟨_, _, hbatch, hoffered⟩
  | pass hbatch => exact ⟨_, _, hbatch⟩
  | endBatch hbatch _ => exact hbatch
  | take hw hqueue =>
      refine ⟨hw, ?_⟩
      rw [hqueue]
      exact List.cons_ne_nil _ _
  | rearm hw hc | refuse hw hc => exact ⟨_, hw, _, hc⟩
  | closeConn hw => exact ⟨_, hw⟩
  | modfd hw => exact .inl ⟨_, _, hw⟩
  | modfdClosed hw => exact .inr ⟨_, hw⟩

/-- In every state that the server comes to, a step is taken exactly when it is offered: no
step fails on a timer. -/
theorem step_isSome_iff {users : ℕ → HttpConn} {usersTimer : ℕ → ClientData} {maxRequest : ℕ}
    {es : List (ServerEvent ω)} (h : Run.exec step (init users usersTimer maxRequest) es = some s)
    (e : ServerEvent ω) :
  (s.step e).isSome = true ↔ s.Offered e
  := by
  have hkeep : ∀ (s : Server ω) e (s' : Server ω), (∃ l, s.Timed l) → s.step e = some s' →
      ∃ l', s'.Timed l' := by
    rintro s e s' ⟨l, hs⟩ hs'
    obtain ⟨s'', l', hs'', htimed⟩ := hs.step (offered_of_step hs')
    obtain rfl := Option.some.inj (hs'.symm.trans hs'')
    exact ⟨l', htimed⟩
  obtain ⟨l, htimed⟩ := Run.exec_preserves (I := fun s : Server ω => ∃ l, s.Timed l) hkeep
    ⟨[], init_timed users usersTimer maxRequest⟩ h
  constructor
  · intro hsome
    obtain ⟨s', hs'⟩ := Option.isSome_iff_exists.mp hsome
    apply offered_of_step hs'
  · intro he
    obtain ⟨s', l', hs', -⟩ := htimed.step he
    rw [hs']
    rfl

end Workers

/-- A worker closes a connection, and the next one with its descriptor is hung up while the
timer of the first one is still in the list. -/
def leftOver : List (ServerEvent ℕ) :=
  [.wait [.listen], .accept 5 100 0 .clean, .endBatch 0, .wait [.client 5 .readable],
    .read [.bytes (ascii "GET /x HTTP/1.1\r\n\r\n"), .again] 1, .endBatch 1, .take 0,
    .process 0 (.plain .missing), .closeConn 0, .modfd 0,
    .wait [.listen], .accept 5 101 2 .clean, .endBatch 2, .wait [.client 5 .hup]]

set_option maxRecDepth 10000 in
theorem step_isSome_iff_leftOver :
  ∃ s, Run.exec step (blank 1) leftOver = some s ∧
    ((s.step .hup).isSome = true ↔ s.Offered .hup)
  := by
  obtain ⟨s, hs⟩ := Option.isSome_iff_exists.mp
    (show (Run.exec step (blank 1) leftOver).isSome = true by decide +kernel)
  exact ⟨s, hs, step_isSome_iff hs .hup⟩

end Server

end WebServer
