import WebServer.Server.Step
import WebServer.Lib.Threads

/-!
# What the steps of the server change

The cases of a step (`Steps`), what the functions that a step is made of change of the
server, and which descriptors are open, armed and ready (`Polled`).
-/

open CString

namespace WebServer

namespace Server

variable {ω : Type}

section Steps

variable [DecidableEq ω]

/-- What a step may do. -/
inductive Steps (s : Server ω) : ServerEvent ω → Server ω → Prop where
  | wait {ready : List Ready} (hbatch : s.batch = none) (hready : s.Deliverable ready) :
    Steps s (.wait ready) { s with
      batch := some ready
      epoll := fun fd => if fd ∈ clients ready then none else s.epoll fd }
  | accept {fd timer : ℕ} {cur : ℤ} {added : Registration} {rest : List Ready} {s' : Server ω}
    (hbatch : s.batch = some (.listen :: rest))
    (h : { s with batch := some rest }.acceptConn fd timer cur added = some s') :
    Steps s (.accept fd timer cur added) s'
  | hup {fd : ℕ} {rest : List Ready} {s' : Server ω}
    (hbatch : s.batch = some (.client fd .hup :: rest))
    (h : { s with batch := some rest }.closeByTimer fd = some s') :
    Steps s .hup s'
  | alarm {received : Bool} {rest : List Ready} (hbatch : s.batch = some (.alarm :: rest)) :
    Steps s (.alarm received) { s with batch := some rest, timeout := s.timeout || received }
  | read {rs : List Recv} {cur : ℤ} {fd : ℕ} {rest : List Ready} {s' : Server ω}
    (hbatch : s.batch = some (.client fd .readable :: rest))
    (h : { s with batch := some rest }.readConn fd rs cur = some s') :
    Steps s (.read rs cur) s'
  | write {os : List Outcome} {cur : ℤ} {fd : ℕ} {rest : List Ready} {s' : Server ω}
    (hbatch : s.batch = some (.client fd .writable :: rest))
    (h : { s with batch := some rest }.writeConn fd os cur = some s') :
    Steps s (.write os cur) s'
  | pass {fd : ℕ} {rest : List Ready} (hbatch : s.batch = some (.client fd .other :: rest)) :
    Steps s .pass { s with batch := some rest }
  | endBatch {cur : ℤ} {s' : Server ω} (hbatch : s.batch = some [])
    (h : s.finishBatch cur = some s') :
    Steps s (.endBatch cur) s'
  | take {w : ω} {job : Job} {queue : List Job} (hw : s.workers w = .idle)
    (hqueue : s.workqueue = job :: queue) :
    Steps s (.take w) ({ s with workqueue := queue }.setWorker w (.took job))
  | rearm {w : ω} {found : Found} {job : Job} {ev : Interest} {c : HttpConn}
    (hw : s.workers w = .took job)
    (hc : (s.users job.fd).process found = .ok (.rearm ev, c)) :
    Steps s (.process w found)
      ({ s with users := Function.update s.users job.fd c }.setWorker w (.rearms job ev))
  | refuse {w : ω} {found : Found} {job : Job} {c : HttpConn} (hw : s.workers w = .took job)
    (hc : (s.users job.fd).process found = .ok (.close, c)) :
    Steps s (.process w found)
      ({ s with users := Function.update s.users job.fd c }.setWorker w (.closes job))
  | closeConn {w : ω} {job : Job} (hw : s.workers w = .closes job) :
    Steps s (.closeConn w) ((s.closeConn job).setWorker w (.closed job))
  | modfd {w : ω} {job : Job} {ev : Interest} (hw : s.workers w = .rearms job ev) :
    Steps s (.modfd w) ((s.arm (s.users job.fd).sockfd ev).setWorker w .idle)
  | modfdClosed {w : ω} {job : Job} (hw : s.workers w = .closed job) :
    Steps s (.modfd w) ((s.arm (s.users job.fd).sockfd .epollOut).setWorker w .idle)

theorem steps_of_step {s s' : Server ω} {e : ServerEvent ω} (h : s.step e = some s') :
  s.Steps e s'
  := by
  cases e with
  | wait ready =>
      rw [step] at h
      split at h
      next hbatch =>
        split at h
        next hready =>
          obtain rfl := Option.some.inj h
          exact .wait hbatch hready
        next => cases h
      next => cases h
  | accept fd timer cur added =>
      rw [step] at h
      split at h
      next hbatch => exact .accept hbatch h
      next => cases h
  | hup =>
      rw [step] at h
      split at h
      next hbatch => exact .hup hbatch h
      next => cases h
  | alarm received =>
      rw [step] at h
      split at h
      next hbatch =>
        obtain rfl := Option.some.inj h
        exact .alarm hbatch
      next => cases h
  | read rs cur =>
      rw [step] at h
      split at h
      next hbatch => exact .read hbatch h
      next => cases h
  | write os cur =>
      rw [step] at h
      split at h
      next hbatch => exact .write hbatch h
      next => cases h
  | pass =>
      rw [step] at h
      split at h
      next hbatch =>
        obtain rfl := Option.some.inj h
        exact .pass hbatch
      next => cases h
  | endBatch cur =>
      rw [step] at h
      split at h
      next hbatch => exact .endBatch hbatch h
      next => cases h
  | take w =>
      rw [step] at h
      split at h
      next hw hqueue =>
        obtain rfl := Option.some.inj h
        exact .take hw hqueue
      next => cases h
  | process w found =>
      rw [step] at h
      split at h
      next job hw =>
        rw [processConn] at h
        split at h
        next => cases h
        next hc =>
          obtain rfl := Option.some.inj h
          exact .rearm hw hc
        next hc =>
          obtain rfl := Option.some.inj h
          exact .refuse hw hc
      next => cases h
  | closeConn w =>
      rw [step] at h
      split at h
      next hw =>
        obtain rfl := Option.some.inj h
        exact .closeConn hw
      next => cases h
  | modfd w =>
      rw [step] at h
      split at h
      next hw =>
        obtain rfl := Option.some.inj h
        exact .modfd hw
      next hw =>
        obtain rfl := Option.some.inj h
        exact .modfdClosed hw
      next => cases h

end Steps

/-! ### What the parts of a step change -/

theorem arm_setWorker [DecidableEq ω] (s : Server ω) (fd : Option ℕ) (ev : Interest) (w : ω)
    (x : Worker) :
  (s.arm fd ev).setWorker w x = (s.setWorker w x).arm fd ev
  := by
  cases fd with
  | none => rfl
  | some fd =>
      rw [arm, arm]
      change _ = if fd ∈ s.opened ∧ s.added fd ≠ .failed then _ else _
      split
      · rfl
      · rfl

theorem arm_workers (s : Server ω) (fd : Option ℕ) (ev : Interest) :
  (s.arm fd ev).workers = s.workers
  := by
  cases fd with
  | none => rfl
  | some fd =>
      rw [arm]
      split
      · rfl
      · rfl

theorem closeConn_workers (s : Server ω) (job : Job) :
  (s.closeConn job).workers = s.workers
  := by
  rw [closeConn]
  split
  · rfl
  · rfl

section Parts

variable {s s' : Server ω} {fd : ℕ}

/-- `main` closes a connection by its timer, which is in the list. -/
theorem closeByTimer_eq_some (h : s.closeByTimer fd = some s') :
  ∃ timer timerLst, (s.usersTimer fd).timer = some timer ∧
    s.timerLst.delTimer (some timer) = some timerLst ∧
    s' = { s.cbFunc timer fd with timerLst := timerLst }
  := by
  obtain ⟨timer, htimer, h⟩ := Option.bind_eq_some_iff.mp h
  obtain ⟨_, -, h⟩ := Option.bind_eq_some_iff.mp h
  obtain ⟨timerLst, hlst, h⟩ := Option.bind_eq_some_iff.mp h
  exact ⟨timer, timerLst, htimer, hlst, (Option.some.inj h).symm⟩

/-- Putting a timer off changes the list of the timers only. -/
theorem delayTimer_eq_some {cur : ℤ} (h : s.delayTimer fd cur = some s') :
  ∃ timerLst, s' = { s with timerLst := timerLst }
  := by
  rw [delayTimer] at h
  split at h
  · obtain rfl := Option.some.inj h
    exact ⟨s.timerLst, rfl⟩
  · obtain ⟨_, -, h⟩ := Option.bind_eq_some_iff.mp h
    obtain ⟨timerLst, -, h⟩ := Option.bind_eq_some_iff.mp h
    exact ⟨timerLst, (Option.some.inj h).symm⟩

/-- A new timer is constructed at an address that is not in use. -/
theorem addTimer_eq_some {timer : ℕ} {cur : ℤ} (h : s.addTimer fd timer cur = some s') :
  ∃ timerLst₁ timerLst,
    s.timerLst.newTimer timer ⟨cur + 3 * timeslot, fd⟩ = some timerLst₁ ∧
    timerLst₁.addTimer (some timer) = some timerLst ∧
    s' = { s with
      usersTimer := Function.update s.usersTimer fd ⟨fd, some timer⟩
      timerLst := timerLst
      timerConn := Function.update s.timerConn timer (s.conn fd) }
  := by
  obtain ⟨timerLst₁, h₁, h⟩ := Option.bind_eq_some_iff.mp h
  obtain ⟨timerLst, h₂, h⟩ := Option.bind_eq_some_iff.mp h
  exact ⟨timerLst₁, timerLst, h₁, h₂, (Option.some.inj h).symm⟩

/-- A connection is refused, or it is opened and gets a timer. -/
theorem acceptConn_eq_some {timer : ℕ} {cur : ℤ} {added : Registration}
    (h : s.acceptConn fd timer cur added = some s') :
  fd ∉ s.opened ∧ (((maxFd : ℤ) ≤ s.userCount ∧ s' = s) ∨
    (s.userCount < maxFd ∧ (s.initConn fd added).addTimer fd timer cur = some s'))
  := by
  rw [acceptConn] at h
  split at h
  next => cases h
  next hfd =>
    refine ⟨hfd, ?_⟩
    split at h
    next hmany => exact Or.inl ⟨hmany, (Option.some.inj h).symm⟩
    next hfew =>
      split at h
      · cases h
      · apply Or.inr ⟨not_le.mp hfew, h⟩

/-- `write` changes the object, and arms its descriptor unless it fails. -/
theorem sendConn_eq_some {os : List Outcome} {ok : Bool} (h : s.sendConn fd os = some (ok, s')) :
  ∃ c, c.sockfd = (s.users fd).sockfd ∧
    ((ok = false ∧ s' = { s with users := Function.update s.users fd c }) ∨
      ∃ ev, s' = { s with users := Function.update s.users fd c }.arm c.sockfd ev)
  := by
  rw [sendConn] at h
  have hsock := (s.users fd).write_sockfd os
  split at h
  next => cases h
  next c e hwrite =>
    rw [hwrite] at hsock
    refine ⟨c, hsock, ?_⟩
    cases e with
    | failed =>
        cases h
        apply Or.inl ⟨rfl, rfl⟩
    | idle | again | kept | closing =>
        cases h
        apply Or.inr ⟨_, rfl⟩

/-- `tick` changes the list of the timers and closes connections. -/
theorem foldl_cbFunc_eq (s : Server ω) (calls : List (ℕ × ℕ)) :
  ∃ opened epoll userCount subtracted fired,
    calls.foldl (fun s call => s.cbFunc call.1 call.2) s = { s with
      opened := opened
      epoll := epoll
      userCount := userCount
      subtracted := subtracted
      fired := fired }
  := by
  induction calls generalizing s with
  | nil => exact ⟨_, _, _, _, _, rfl⟩
  | cons call calls ih =>
      obtain ⟨opened, epoll, userCount, subtracted, fired, h⟩ := ih (s.cbFunc call.1 call.2)
      exact ⟨opened, epoll, userCount, subtracted, fired, h⟩

end Parts

/-! ### Open, armed and ready descriptors -/

section Epoll

variable {opened : Finset ℕ} {epoll : ℕ → Option Interest} {fd fd' : ℕ}

theorem disarmed_of_disarmed (h : epoll fd' = none) :
  Function.update epoll fd none fd' = none
  := by
  by_cases heq : fd' = fd
  · rw [heq, Function.update_self]
  · rw [Function.update_of_ne heq, h]

theorem armed_of_armed_close (hne : fd' ≠ fd) (h : epoll fd' ≠ none) :
  Function.update epoll fd none fd' ≠ none
  := by
  rw [Function.update_of_ne hne]
  exact h

theorem armed_of_armed (ev : Interest) (h : epoll fd' ≠ none) :
  Function.update epoll fd (some ev) fd' ≠ none
  := by
  by_cases heq : fd' = fd
  · rw [heq, Function.update_self]
    apply Option.some_ne_none ev
  · rw [Function.update_of_ne heq]
    exact h

/-- A descriptor that is armed after another was closed was armed before. -/
theorem opened_of_armed_close (h : ∀ fd, epoll fd ≠ none → fd ∈ opened)
    (hfd' : Function.update epoll fd none fd' ≠ none) :
  fd' ∈ opened.erase fd
  := by
  by_cases heq : fd' = fd
  · rw [heq, Function.update_self] at hfd'
    apply absurd rfl hfd'
  · rw [Function.update_of_ne heq] at hfd'
    apply Finset.mem_erase.mpr ⟨heq, h fd' hfd'⟩

/-- A descriptor that is armed after another was armed, which is open, is open. -/
theorem opened_of_armed_arm (h : ∀ fd, epoll fd ≠ none → fd ∈ opened) (hfd : fd ∈ opened)
    {ev : Option Interest} (hfd' : Function.update epoll fd ev fd' ≠ none) :
  fd' ∈ opened
  := by
  by_cases heq : fd' = fd
  · rw [heq]
    exact hfd
  · rw [Function.update_of_ne heq] at hfd'
    apply h fd' hfd'

end Epoll

/-- Only open descriptors are armed, and the clients in the rest of a batch are open
and different. -/
structure Polled (opened : Finset ℕ) (epoll : ℕ → Option Interest) (pending : List ℕ) :
    Prop where
  armed : ∀ fd, epoll fd ≠ none → fd ∈ opened
  nodup : pending.Nodup
  opened : ∀ fd ∈ pending, fd ∈ opened

section Polled

variable {opened : Finset ℕ} {epoll : ℕ → Option Interest} {pending : List ℕ} {fd : ℕ}

theorem Polled.tail (h : Polled opened epoll (fd :: pending)) :
  Polled opened epoll pending
  where
  armed := h.armed
  nodup := (List.nodup_cons.mp h.nodup).2
  opened := fun fd' hfd' => h.opened fd' (List.mem_cons_of_mem _ hfd')

/-- A connection that is in no rest of a batch may be closed. -/
theorem Polled.close (h : Polled opened epoll pending) (hfd : fd ∉ pending) :
  Polled (opened.erase fd) (Function.update epoll fd none) pending
  where
  armed := fun _ => opened_of_armed_close h.armed
  nodup := h.nodup
  opened := by
    intro fd' hfd'
    refine Finset.mem_erase.mpr ⟨?_, h.opened fd' hfd'⟩
    rintro rfl
    apply hfd hfd'

/-- An open connection may be armed. -/
theorem Polled.arm (h : Polled opened epoll pending) (hfd : fd ∈ opened)
    (ev : Option Interest) :
  Polled opened (Function.update epoll fd ev) pending
  where
  armed := fun _ => opened_of_armed_arm h.armed hfd
  nodup := h.nodup
  opened := h.opened

/-- A connection may be opened. -/
theorem Polled.insert (h : Polled opened epoll pending) (fd : ℕ) :
  Polled (insert fd opened) epoll pending
  where
  armed := fun fd' hfd' => Finset.mem_insert_of_mem (h.armed fd' hfd')
  nodup := h.nodup
  opened := fun fd' hfd' => Finset.mem_insert_of_mem (h.opened fd' hfd')

/-- An event is delivered for a descriptor that is armed. -/
theorem Deliverable.armed {s : Server ω} {ready : List Ready} (h : s.Deliverable ready)
    (hfd : fd ∈ clients ready) :
  s.epoll fd ≠ none
  := by
  intro hnone
  obtain ⟨r, hr, hrfd⟩ := List.mem_filterMap.mp hfd
  have hfits := h.2.2 r hr
  cases r with
  | listen => cases hrfd
  | alarm => cases hrfd
  | client fd' ev =>
      obtain rfl := Option.some.inj hrfd
      rw [Ready.fits, hnone] at hfits
      cases ev with
      | hup | readable | writable | other => cases hfits

/-- The events of a batch are delivered. -/
theorem Polled.deliver {s : Server ω} {ready : List Ready} (h : Polled s.opened s.epoll [])
    (hready : s.Deliverable ready) :
  Polled s.opened (fun fd => if fd ∈ clients ready then none else s.epoll fd) (clients ready)
  where
  armed := by
    intro fd hfd
    split at hfd
    next => exact absurd rfl hfd
    next => exact h.armed fd hfd
  nodup := hready.2.1
  opened := fun fd hfd => h.armed fd (hready.armed hfd)

/-- `tick` is called when no event of a batch is left. -/
theorem Polled.foldl_cbFunc {s : Server ω} (h : Polled s.opened s.epoll [])
    (calls : List (ℕ × ℕ)) :
  Polled (calls.foldl (fun s call => s.cbFunc call.1 call.2) s).opened
    (calls.foldl (fun s call => s.cbFunc call.1 call.2) s).epoll []
  := by
  induction calls generalizing s with
  | nil => exact h
  | cons call calls ih => exact ih (s := s.cbFunc call.1 call.2) (h.close List.not_mem_nil)

/-- `modfd` arms open descriptors only. -/
theorem Polled.arm_conn {s : Server ω} (h : Polled s.opened s.epoll s.pending) (fd : Option ℕ)
    (ev : Interest) :
  Polled (s.arm fd ev).opened (s.arm fd ev).epoll (s.arm fd ev).pending
  := by
  cases fd with
  | none => exact h
  | some fd =>
      rw [Server.arm]
      split
      next hfd => exact h.arm hfd.1 (some ev)
      next => exact h

end Polled

/-! ### Slots and objects -/

/-- The slot and the object of an open descriptor hold it. -/
structure Owned (opened : Finset ℕ) (users : ℕ → HttpConn) (usersTimer : ℕ → ClientData) :
    Prop where
  slot : ∀ fd ∈ opened, (usersTimer fd).sockfd = fd
  sock : ∀ fd ∈ opened, (users fd).sockfd = some fd

/-- The object of a descriptor holds it, or no descriptor. -/
def Own (users : ℕ → HttpConn) (fd : ℕ) : Prop :=
  (users fd).sockfd = none ∨ (users fd).sockfd = some fd

section Owned

variable {opened : Finset ℕ} {users : ℕ → HttpConn} {usersTimer : ℕ → ClientData} {fd fd' : ℕ}
  {c : HttpConn}

theorem sockfd_update (hc : c.sockfd = (users fd).sockfd) (fd' : ℕ) :
  (Function.update users fd c fd').sockfd = (users fd').sockfd
  := by
  by_cases heq : fd' = fd
  · rw [heq, Function.update_self, hc]
  · rw [Function.update_of_ne heq]

theorem Owned.close (h : Owned opened users usersTimer) (fd : ℕ) :
  Owned (opened.erase fd) users usersTimer
  where
  slot := fun fd' hfd' => h.slot fd' (Finset.mem_of_mem_erase hfd')
  sock := fun fd' hfd' => h.sock fd' (Finset.mem_of_mem_erase hfd')

/-- A descriptor is closed, and its object changed. -/
theorem Owned.closeConn (h : Owned opened users usersTimer) (fd : ℕ) (c : HttpConn) :
  Owned (opened.erase fd) (Function.update users fd c) usersTimer
  where
  slot := (h.close fd).slot
  sock := by
    intro fd' hfd'
    rw [Function.update_of_ne (Finset.ne_of_mem_erase hfd')]
    exact (h.close fd).sock fd' hfd'

/-- A new connection. -/
theorem Owned.insert (h : Owned opened users usersTimer) (fd : ℕ) (timer : Option ℕ) :
  Owned (insert fd opened) (Function.update users fd ((users fd).initAt fd))
    (Function.update usersTimer fd ⟨fd, timer⟩)
  where
  slot := by
    intro fd' hfd'
    by_cases heq : fd' = fd
    · rw [heq, Function.update_self]
    · rw [Function.update_of_ne heq]
      apply h.slot fd' (Finset.mem_of_mem_insert_of_ne hfd' heq)
  sock := by
    intro fd' hfd'
    by_cases heq : fd' = fd
    · rw [heq, Function.update_self]
      rfl
    · rw [Function.update_of_ne heq]
      apply h.sock fd' (Finset.mem_of_mem_insert_of_ne hfd' heq)

/-- An object may be changed that keeps its descriptor. -/
theorem Owned.congr (h : Owned opened users usersTimer) (hc : c.sockfd = (users fd).sockfd) :
  Owned opened (Function.update users fd c) usersTimer
  where
  slot := h.slot
  sock := fun fd' hfd' => (sockfd_update hc fd').trans (h.sock fd' hfd')

theorem Own.eq (h : Own users fd) (hfd' : (users fd).sockfd = some fd') :
  fd' = fd
  := by
  rcases h with hnone | hsome
  · cases hnone.symm.trans hfd'
  · apply Option.some.inj (hfd'.symm.trans hsome)

theorem Own.congr (h : Own users fd') (hc : c.sockfd = (users fd).sockfd) :
  Own (Function.update users fd c) fd'
  := by
  rw [Own, sockfd_update hc]
  exact h

theorem Own.update (h : Own users fd') (hc : c.sockfd = none ∨ c.sockfd = some fd) :
  Own (Function.update users fd c) fd'
  := by
  by_cases heq : fd' = fd
  · rw [Own, heq, Function.update_self]
    exact hc
  · rw [Own, Function.update_of_ne heq]
    exact h

end Owned

end Server

end WebServer
