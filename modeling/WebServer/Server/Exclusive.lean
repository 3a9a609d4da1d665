import WebServer.Server.Changes

/-!
# Exclusive handling of a connection

The object of a connection that is in the queue or with a worker is there only once, its
descriptor is not armed, and it still belongs to the connection it was put there for.
This rests on `EPOLLONESHOT` alone: a descriptor whose event was delivered is armed again
only by the worker that is done with it, or by `main` when no worker has it.

A timer may close a connection that is in the queue or with a worker, and then `accept`
may return its descriptor.  The handling is exclusive exactly in those runs in which
`accept` returns no descriptor whose object is in the queue or with a worker
(`exclusive_iff`).
-/

open CString

namespace WebServer

namespace Server

variable {ω : Type}

/-- A job in the queue or with a worker. -/
def Handled (s : Server ω) (job : Job) : Prop :=
  job ∈ s.workqueue ∨ ∃ w, (s.workers w).job = some job

/-- Each object is at most once in the queue or with a worker, and while it is there its
descriptor is not armed and it belongs to the same connection. -/
structure Exclusive (s : Server ω) : Prop where
  queued : (s.workqueue.map Job.fd).Nodup
  apart : ∀ w job, (s.workers w).job = some job → job.fd ∉ s.workqueue.map Job.fd
  one : ∀ w w' job job', (s.workers w).job = some job → (s.workers w').job = some job' →
    job.fd = job'.fd → w = w'
  disarmed : ∀ job, s.Handled job → s.epoll job.fd = none
  same : ∀ job, s.Handled job → s.conn job.fd = job.conn

/-- A connection that is accepted does not get a descriptor whose object is in the queue
or with a worker. -/
def ObjectFree (s : Server ω) : ServerEvent ω → Prop
  | .accept fd _ _ _ => s.userCount < maxFd → ∀ job, s.Handled job → job.fd ≠ fd
  | _ => True

theorem objectFree_accept_iff {s : Server ω} {fd timer : ℕ} {cur : ℤ} {added : Registration} :
  ObjectFree s (.accept fd timer cur added) ↔ (s.userCount < maxFd →
    (∀ job ∈ s.workqueue, job.fd ≠ fd) ∧ ∀ w, (s.workers w).job.map Job.fd ≠ some fd)
  := by
  constructor
  · intro h hfew
    refine ⟨fun job hjob => h hfew job (.inl hjob), ?_⟩
    intro w hw
    obtain ⟨job, hjob, hfd⟩ := Option.map_eq_some_iff.mp hw
    apply h hfew job (.inr ⟨w, hjob⟩) hfd
  · intro h hfew job hjob hfd
    obtain ⟨hqueue, hworkers⟩ := h hfew
    rcases hjob with hjob | ⟨w, hw⟩
    · apply hqueue job hjob hfd
    · apply hworkers w
      rw [hw, Option.map_some, hfd]

instance [Fintype ω] (s : Server ω) : ∀ e, Decidable (ObjectFree s e)
  | .accept _ _ _ _ => decidable_of_iff _ objectFree_accept_iff.symm
  | .wait _ | .hup | .alarm _ | .read _ _ | .write _ _ | .pass | .endBatch _ | .take _
  | .process _ _ | .closeConn _ | .modfd _ => .isTrue trivial

/-- What is kept along a run in which the objects of new connections are free. -/
structure Guarded (s : Server ω) : Prop where
  exclusive : s.Exclusive
  polled : Polled s.opened s.epoll s.pending
  pending_disarmed : ∀ fd ∈ s.pending, s.epoll fd = none
  pending_free : ∀ fd ∈ s.pending, ∀ job, s.Handled job → job.fd ≠ fd
  owned : Owned s.opened s.users s.usersTimer
  own : ∀ job, s.Handled job → Own s.users job.fd
  numbered : ∀ fd ∈ s.opened, s.conn fd < s.accepted
  accepted : ∀ job, s.Handled job → job.conn < s.accepted

theorem init_guarded (users : ℕ → HttpConn) (usersTimer : ℕ → ClientData) (maxRequest : ℕ) :
  (init users usersTimer maxRequest : Server ω).Guarded
  := by
  have hnone : ∀ job, ¬ (init users usersTimer maxRequest : Server ω).Handled job := by
    rintro job (hjob | ⟨w, hw⟩)
    · cases hjob
    · cases hw
  refine ⟨⟨List.nodup_nil, nofun, nofun, ?_, ?_⟩, ⟨?_, List.nodup_nil, nofun⟩, nofun, nofun,
    ⟨nofun, nofun⟩, ?_, nofun, ?_⟩
  · exact fun job hjob => absurd hjob (hnone job)
  · exact fun job hjob => absurd hjob (hnone job)
  · exact fun fd hfd => absurd rfl hfd
  · exact fun job hjob => absurd hjob (hnone job)
  · exact fun job hjob => absurd hjob (hnone job)

/-! ### The operations of `main` -/

/-- The events of a batch that `main` has not come to after the first. -/
theorem Guarded.next {s : Server ω} (h : s.Guarded) {r : Ready} {rest : List Ready}
    (hbatch : s.batch = some (r :: rest)) :
  Guarded { s with batch := some rest }
  := by
  have hpolled := h.polled
  have hsub : ∀ fd ∈ clients rest, fd ∈ s.pending := by
    intro fd hfd
    rw [pending, hbatch]
    cases r with
    | listen => exact hfd
    | alarm => exact hfd
    | client fd' ev => exact List.mem_cons_of_mem _ hfd
  rw [pending, hbatch] at hpolled
  refine ⟨{ h.exclusive with }, ?_, fun fd hfd => h.pending_disarmed fd (hsub fd hfd),
    fun fd hfd => h.pending_free fd (hsub fd hfd), h.owned, h.own, h.numbered, h.accepted⟩
  cases r with
  | listen => exact hpolled
  | alarm => exact hpolled
  | client fd ev => exact hpolled.tail

/-- A client whose event `main` handles: it is open and not armed, and neither in the rest
of the batch nor in the queue nor with a worker. -/
structure Served (s : Server ω) (fd : ℕ) : Prop where
  opened : fd ∈ s.opened
  disarmed : s.epoll fd = none
  not_pending : fd ∉ s.pending
  free : ∀ job, s.Handled job → job.fd ≠ fd

theorem Guarded.client {s : Server ω} (h : s.Guarded) {fd : ℕ} {ev : ClientEvent}
    {rest : List Ready} (hbatch : s.batch = some (.client fd ev :: rest)) :
  Served { s with batch := some rest } fd
  := by
  have hmem : fd ∈ s.pending := by
    rw [pending, hbatch]
    apply List.mem_cons_self
  have hpolled := h.polled
  rw [pending, hbatch] at hpolled
  exact ⟨h.polled.opened fd hmem, h.pending_disarmed fd hmem, (List.nodup_cons.mp hpolled.nodup).1,
    h.pending_free fd hmem⟩

/-- A timer closes a connection that is not in the rest of the batch. -/
theorem Guarded.cbFunc {s : Server ω} (h : s.Guarded) (timer : ℕ) {slot : ℕ}
    (hslot : (s.usersTimer slot).sockfd ∉ s.pending) :
  (s.cbFunc timer slot).Guarded
  := by
  refine ⟨{ h.exclusive with disarmed := ?_ }, h.polled.close hslot, ?_, h.pending_free,
    h.owned.close _, h.own, fun fd hfd => h.numbered fd (Finset.mem_of_mem_erase hfd), h.accepted⟩
  · exact fun job hjob => disarmed_of_disarmed (h.exclusive.disarmed job hjob)
  · exact fun fd hfd => disarmed_of_disarmed (h.pending_disarmed fd hfd)

/-- `main` closes the connection whose event it handles. -/
theorem Guarded.closeByTimer {s s' : Server ω} (h : s.Guarded) {fd : ℕ} (hfd : fd ∈ s.opened)
    (hpending : fd ∉ s.pending) (hs' : s.closeByTimer fd = some s') :
  s'.Guarded
  := by
  obtain ⟨timer, timerLst, -, -, rfl⟩ := closeByTimer_eq_some hs'
  have hclose : (s.cbFunc timer fd).Guarded := by
    apply h.cbFunc timer
    rw [h.owned.slot fd hfd]
    exact hpending
  exact ⟨{ hclose.exclusive with }, hclose.polled, hclose.pending_disarmed, hclose.pending_free,
    hclose.owned, hclose.own, hclose.numbered, hclose.accepted⟩

/-- `main` puts a timer off. -/
theorem Guarded.delayTimer {s s' : Server ω} (h : s.Guarded) {fd : ℕ} {cur : ℤ}
    (hs' : s.delayTimer fd cur = some s') :
  s'.Guarded
  := by
  obtain ⟨timerLst, rfl⟩ := delayTimer_eq_some hs'
  exact ⟨{ h.exclusive with }, h.polled, h.pending_disarmed, h.pending_free, h.owned, h.own,
    h.numbered, h.accepted⟩

/-- An object may be changed that keeps its descriptor. -/
theorem Guarded.users {s : Server ω} (h : s.Guarded) {fd : ℕ} {c : HttpConn}
    (hc : c.sockfd = (s.users fd).sockfd) :
  Guarded { s with users := Function.update s.users fd c }
  := ⟨{ h.exclusive with }, h.polled, h.pending_disarmed, h.pending_free, h.owned.congr hc,
    fun job hjob => (h.own job hjob).congr hc, h.numbered, h.accepted⟩

/-- A connection that nobody handles may be armed. -/
theorem Guarded.arm {s : Server ω} (h : s.Guarded) {fd : ℕ} (hpending : fd ∉ s.pending)
    (hfree : ∀ job, s.Handled job → job.fd ≠ fd) (ev : Interest) :
  (s.arm (some fd) ev).Guarded
  := by
  have hpolled := h.polled.arm_conn (some fd) ev
  rw [Server.arm] at hpolled ⊢
  split at hpolled
  next hfd =>
    rw [if_pos hfd]
    refine ⟨{ h.exclusive with disarmed := ?_ }, hpolled, ?_, h.pending_free, h.owned, h.own,
      h.numbered, h.accepted⟩
    · intro job hjob
      exact (Function.update_of_ne (hfree job hjob) ..).trans (h.exclusive.disarmed job hjob)
    · intro fd' hfd'
      have hne : fd' ≠ fd := fun heq => hpending (heq ▸ hfd')
      exact (Function.update_of_ne hne ..).trans (h.pending_disarmed fd' hfd')
  next hfd =>
    rw [if_neg hfd]
    exact h

/-- `append` puts the object of a connection into the queue that nobody handles. -/
theorem Guarded.append {s : Server ω} (h : s.Guarded) {fd : ℕ} (hfd : s.Served fd) :
  (s.append fd).Guarded
  := by
  rw [Server.append]
  split
  · exact h
  · have hhandled : ∀ job, Handled { s with workqueue := s.workqueue ++ [⟨fd, s.conn fd⟩] } job →
        s.Handled job ∨ job = ⟨fd, s.conn fd⟩ := by
      rintro job (hjob | hw)
      · rcases List.mem_append.mp hjob with hjob | hjob
        · apply Or.inl (Or.inl hjob)
        · apply Or.inr (List.mem_singleton.mp hjob)
      · apply Or.inl (Or.inr hw)
    refine ⟨⟨?_, ?_, h.exclusive.one, ?_, ?_⟩, h.polled, h.pending_disarmed, ?_, h.owned, ?_,
      h.numbered, ?_⟩
    · rw [List.map_append]
      refine h.exclusive.queued.append (List.nodup_singleton _) ?_
      intro fd' hfd' hmem
      obtain ⟨job, hjob, rfl⟩ := List.mem_map.mp hfd'
      apply hfd.free job (Or.inl hjob) (List.mem_singleton.mp hmem)
    · intro w job hw
      rw [List.map_append, List.mem_append, not_or]
      refine ⟨h.exclusive.apart w job hw, ?_⟩
      intro hmem
      apply hfd.free job (Or.inr ⟨w, hw⟩) (List.mem_singleton.mp hmem)
    · intro job hjob
      rcases hhandled job hjob with hjob | rfl
      · apply h.exclusive.disarmed job hjob
      · apply hfd.disarmed
    · intro job hjob
      rcases hhandled job hjob with hjob | rfl
      · apply h.exclusive.same job hjob
      · rfl
    · intro fd' hfd' job hjob
      rcases hhandled job hjob with hjob | rfl
      · apply h.pending_free fd' hfd' job hjob
      · rintro rfl
        apply hfd.not_pending hfd'
    · intro job hjob
      rcases hhandled job hjob with hjob | rfl
      · apply h.own job hjob
      · apply Or.inr (h.owned.sock fd hfd.opened)
    · intro job hjob
      rcases hhandled job hjob with hjob | rfl
      · exact h.accepted job hjob
      · exact h.numbered fd hfd.opened

/-- `main` reads from a connection. -/
theorem Guarded.readConn {s s' : Server ω} (h : s.Guarded) {fd : ℕ} (hfd : s.Served fd)
    {rs : List Recv} {cur : ℤ} (hs' : s.readConn fd rs cur = some s') :
  s'.Guarded
  := by
  obtain ⟨⟨ok, c⟩, hread, hs'⟩ := Option.bind_eq_some_iff.mp hs'
  have h₁ := h.users (HttpConn.read_sockfd hread)
  cases ok with
  | false => exact h₁.closeByTimer hfd.opened hfd.not_pending hs'
  | true => exact (h₁.append { hfd with }).delayTimer hs'

/-- `main` writes to a connection. -/
theorem Guarded.writeConn {s s' : Server ω} (h : s.Guarded) {fd : ℕ} (hfd : s.Served fd)
    {os : List Outcome} {cur : ℤ} (hs' : s.writeConn fd os cur = some s') :
  s'.Guarded
  := by
  obtain ⟨⟨ok, s₁⟩, hs₁, hs'⟩ := Option.bind_eq_some_iff.mp hs'
  have h₁ : s₁.Guarded ∧ fd ∈ s₁.opened ∧ fd ∉ s₁.pending := by
    obtain ⟨c, hc, ⟨-, rfl⟩ | ⟨ev, rfl⟩⟩ := sendConn_eq_some hs₁
    · exact ⟨h.users hc, hfd.opened, hfd.not_pending⟩
    · rw [h.owned.sock fd hfd.opened] at hc
      rw [hc]
      have h₁ := h.users (hc.trans (h.owned.sock fd hfd.opened).symm)
      refine ⟨h₁.arm hfd.not_pending hfd.free ev, ?_⟩
      rw [Server.arm]
      split
      · exact ⟨hfd.opened, hfd.not_pending⟩
      · exact ⟨hfd.opened, hfd.not_pending⟩
  cases ok with
  | false => exact h₁.1.closeByTimer h₁.2.1 h₁.2.2 hs'
  | true => exact h₁.1.delayTimer hs'

/-- `main` accepts a connection whose object nobody handles. -/
theorem Guarded.acceptConn {s s' : Server ω} (h : s.Guarded) {fd timer : ℕ} {cur : ℤ}
    {added : Registration} (hfree : s.userCount < maxFd → ∀ job, s.Handled job → job.fd ≠ fd)
    (hs' : s.acceptConn fd timer cur added = some s') :
  s'.Guarded
  := by
  obtain ⟨hfd, ⟨-, rfl⟩ | ⟨hfew, hs'⟩⟩ := acceptConn_eq_some hs'
  · exact h
  · obtain ⟨_, timerLst, -, -, rfl⟩ := addTimer_eq_some hs'
    have hfree := hfree hfew
    have hpending : ∀ fd' ∈ s.pending, fd' ≠ fd := by
      rintro fd' hfd' rfl
      apply hfd (h.polled.opened fd' hfd')
    refine ⟨{ h.exclusive with disarmed := ?_, same := ?_ },
      (h.polled.insert fd).arm (Finset.mem_insert_self ..) added.interest, ?_, h.pending_free,
      h.owned.insert fd _, fun job hjob => (h.own job hjob).update (Or.inr rfl), ?_,
      fun job hjob => (h.accepted job hjob).trans (Nat.lt_succ_self _)⟩
    · intro job hjob
      exact (Function.update_of_ne (hfree job hjob) ..).trans (h.exclusive.disarmed job hjob)
    · intro job hjob
      exact (Function.update_of_ne (hfree job hjob) ..).trans (h.exclusive.same job hjob)
    · intro fd' hfd'
      exact (Function.update_of_ne (hpending fd' hfd') ..).trans (h.pending_disarmed fd' hfd')
    · intro fd' hfd'
      change Function.update s.conn fd s.accepted fd' < s.accepted + 1
      by_cases heq : fd' = fd
      · rw [heq, Function.update_self]
        exact Nat.lt_succ_self _
      · rw [Function.update_of_ne heq]
        exact (h.numbered fd' (Finset.mem_of_mem_insert_of_ne hfd' heq)).trans (Nat.lt_succ_self _)

/-- The timers that fire close connections when no event of a batch is left. -/
theorem Guarded.foldl_cbFunc {s : Server ω} (h : s.Guarded) (hnil : s.pending = [])
    (calls : List (ℕ × ℕ)) :
  Guarded (calls.foldl (fun s call => s.cbFunc call.1 call.2) s)
  := by
  induction calls generalizing s with
  | nil => exact h
  | cons call calls ih =>
      refine ih (h.cbFunc call.1 ?_) hnil
      rw [hnil]
      apply List.not_mem_nil

/-- `main` comes to the end of a batch. -/
theorem Guarded.finishBatch {s s' : Server ω} (h : s.Guarded) (hbatch : s.batch = some [])
    {cur : ℤ} (hs' : s.finishBatch cur = some s') :
  s'.Guarded
  := by
  have hpolled := h.polled
  rw [pending, hbatch] at hpolled
  have hwait : ∀ timeout, Guarded { s with batch := none, timeout := timeout } := fun _ =>
    ⟨{ h.exclusive with }, hpolled, nofun, nofun, h.owned, h.own, h.numbered, h.accepted⟩
  rw [Server.finishBatch] at hs'
  split at hs'
  · obtain ⟨⟨calls, lst⟩, -, hs'⟩ := Option.bind_eq_some_iff.mp hs'
    obtain rfl := Option.some.inj hs'
    have hcalls := (hwait false).foldl_cbFunc rfl calls
    exact ⟨{ hcalls.exclusive with }, hcalls.polled, hcalls.pending_disarmed, hcalls.pending_free,
      hcalls.owned, hcalls.own, hcalls.numbered, hcalls.accepted⟩
  · obtain rfl := Option.some.inj hs'
    apply hwait s.timeout

/-- `epoll_wait` returns. -/
theorem Guarded.wait {s : Server ω} (h : s.Guarded) (hbatch : s.batch = none)
    {ready : List Ready} (hready : s.Deliverable ready) :
  Guarded { s with
    batch := some ready
    epoll := fun fd => if fd ∈ clients ready then none else s.epoll fd }
  := by
  have hpolled := h.polled
  rw [pending, hbatch] at hpolled
  have hnone : ∀ fd, s.epoll fd = none →
      (if fd ∈ clients ready then none else s.epoll fd) = none := by
    intro fd hfd
    rw [hfd, ite_self]
  refine ⟨{ h.exclusive with disarmed := ?_ }, hpolled.deliver hready, ?_, ?_, h.owned, h.own,
    h.numbered, h.accepted⟩
  · exact fun job hjob => hnone _ (h.exclusive.disarmed job hjob)
  · exact fun fd hfd => if_pos hfd
  · intro fd hfd job hjob heq
    apply hready.armed hfd
    rw [← heq]
    apply h.exclusive.disarmed job hjob

/-! ### The workers -/

/-- A worker executes `close_conn`. -/
theorem Guarded.closeConn {s : Server ω} (h : s.Guarded) {job : Job} (hjob : s.Handled job) :
  (s.closeConn job).Guarded
  := by
  have hpending : job.fd ∉ s.pending := fun hmem => h.pending_free _ hmem job hjob rfl
  rw [Server.closeConn]
  split
  next => exact h
  next fd hsock =>
    obtain rfl := (h.own job hjob).eq hsock
    refine ⟨{ h.exclusive with disarmed := ?_ }, h.polled.close hpending, ?_, h.pending_free,
      h.owned.closeConn _ _, fun job' hjob' => (h.own job' hjob').update (Or.inl rfl),
      fun fd hfd => h.numbered fd (Finset.mem_of_mem_erase hfd), h.accepted⟩
    · exact fun job' hjob' => disarmed_of_disarmed (h.exclusive.disarmed job' hjob')
    · exact fun fd hfd => disarmed_of_disarmed (h.pending_disarmed fd hfd)

section Workers

variable [DecidableEq ω]

/-- A worker goes on with its job. -/
theorem Guarded.setWorker {s : Server ω} (h : s.Guarded) {w : ω} {x : Worker}
    (hx : x.job = (s.workers w).job) :
  (s.setWorker w x).Guarded
  := by
  have hjob : ∀ w', ((s.setWorker w x).workers w').job = (s.workers w').job := by
    intro w'
    refine (Threads.read_update Worker.job ..).trans ?_
    split
    next hw => rw [hw, hx]
    next => rfl
  have hhandled : ∀ job, (s.setWorker w x).Handled job → s.Handled job := by
    rintro job (hqueue | ⟨w', hw'⟩)
    · apply Or.inl hqueue
    · apply Or.inr ⟨w', (hjob w').symm.trans hw'⟩
  refine ⟨⟨h.exclusive.queued, ?_, ?_, ?_, ?_⟩, h.polled, h.pending_disarmed, ?_, h.owned, ?_,
    h.numbered, ?_⟩
  · intro w' job hw'
    apply h.exclusive.apart w' job ((hjob w').symm.trans hw')
  · intro w₁ w₂ job₁ job₂ h₁ h₂
    apply h.exclusive.one w₁ w₂ job₁ job₂ ((hjob w₁).symm.trans h₁) ((hjob w₂).symm.trans h₂)
  · exact fun job hjob => h.exclusive.disarmed job (hhandled job hjob)
  · exact fun job hjob => h.exclusive.same job (hhandled job hjob)
  · exact fun fd hfd job hjob => h.pending_free fd hfd job (hhandled job hjob)
  · exact fun job hjob => h.own job (hhandled job hjob)
  · exact fun job hjob => h.accepted job (hhandled job hjob)

/-- A worker that has no job takes the first one from the queue. -/
theorem Guarded.take {s : Server ω} (h : s.Guarded) {w : ω} {job : Job} {queue : List Job}
    (hqueue : s.workqueue = job :: queue) :
  ({ s with workqueue := queue }.setWorker w (.took job)).Guarded
  := by
  have hqueued := h.exclusive.queued
  rw [hqueue, List.map_cons, List.nodup_cons] at hqueued
  have happart : ∀ w' job', (s.workers w').job = some job' →
      job'.fd ≠ job.fd ∧ job'.fd ∉ queue.map Job.fd := by
    intro w' job' hw'
    have happart := h.exclusive.apart w' job' hw'
    rw [hqueue, List.map_cons, List.mem_cons, not_or] at happart
    exact happart
  have hjob : ∀ w' job', (Function.update s.workers w (.took job) w').job = some job' →
      (w' = w ∧ job' = job) ∨ (w' ≠ w ∧ (s.workers w').job = some job') := by
    intro w' job' hw'
    rcases Threads.read_update_eq_some hw' with ⟨heq, hw'⟩ | hw'
    · exact Or.inl ⟨heq, (Option.some.inj hw').symm⟩
    · apply Or.inr hw'
  have hhandled : ∀ job', ({ s with workqueue := queue }.setWorker w (.took job)).Handled job' →
      s.Handled job' := by
    rintro job' (hmem | ⟨w', hw'⟩)
    · exact Or.inl (hqueue ▸ List.mem_cons_of_mem _ hmem)
    · rcases hjob w' job' hw' with ⟨-, rfl⟩ | ⟨-, hw'⟩
      · exact Or.inl (hqueue ▸ List.mem_cons_self)
      · apply Or.inr ⟨w', hw'⟩
  refine ⟨⟨hqueued.2, ?_, ?_, ?_, ?_⟩, h.polled, h.pending_disarmed, ?_, h.owned, ?_,
    h.numbered, ?_⟩
  · intro w' job' hw'
    rcases hjob w' job' hw' with ⟨-, rfl⟩ | ⟨-, hw'⟩
    · apply hqueued.1
    · exact (happart w' job' hw').2
  · intro w₁ w₂ job₁ job₂ h₁ h₂ heq
    rcases hjob w₁ job₁ h₁ with ⟨hw₁, hjob₁⟩ | ⟨-, hw₁⟩
    · rcases hjob w₂ job₂ h₂ with ⟨hw₂, -⟩ | ⟨-, hw₂⟩
      · apply hw₁.trans hw₂.symm
      · rw [hjob₁] at heq
        apply absurd heq.symm (happart w₂ job₂ hw₂).1
    · rcases hjob w₂ job₂ h₂ with ⟨-, hjob₂⟩ | ⟨-, hw₂⟩
      · rw [hjob₂] at heq
        apply absurd heq (happart w₁ job₁ hw₁).1
      · apply h.exclusive.one w₁ w₂ job₁ job₂ hw₁ hw₂ heq
  · exact fun job' hjob' => h.exclusive.disarmed job' (hhandled job' hjob')
  · exact fun job' hjob' => h.exclusive.same job' (hhandled job' hjob')
  · exact fun fd hfd job' hjob' => h.pending_free fd hfd job' (hhandled job' hjob')
  · exact fun job' hjob' => h.own job' (hhandled job' hjob')
  · exact fun job' hjob' => h.accepted job' (hhandled job' hjob')

/-- A worker is done with its job. -/
theorem Guarded.release {s : Server ω} (h : s.Guarded) {w : ω} {job : Job}
    (hw : (s.workers w).job = some job) :
  (s.setWorker w .idle).Guarded ∧ ∀ job', (s.setWorker w .idle).Handled job' → job'.fd ≠ job.fd
  := by
  have hjob : ∀ w' job', (Function.update s.workers w .idle w').job = some job' →
      w' ≠ w ∧ (s.workers w').job = some job' := by
    intro w' job' hw'
    rcases Threads.read_update_eq_some hw' with ⟨-, hw'⟩ | hw'
    · cases hw'
    · exact hw'
  have hhandled : ∀ job', (s.setWorker w .idle).Handled job' → s.Handled job' := by
    rintro job' (hmem | ⟨w', hw'⟩)
    · apply Or.inl hmem
    · apply Or.inr ⟨w', (hjob w' job' hw').2⟩
  refine ⟨⟨⟨h.exclusive.queued, ?_, ?_, ?_, ?_⟩, h.polled, h.pending_disarmed, ?_, h.owned,
    ?_, h.numbered, ?_⟩, ?_⟩
  · exact fun w' job' hw' => h.exclusive.apart w' job' (hjob w' job' hw').2
  · intro w₁ w₂ job₁ job₂ h₁ h₂
    apply h.exclusive.one w₁ w₂ job₁ job₂ (hjob w₁ job₁ h₁).2 (hjob w₂ job₂ h₂).2
  · exact fun job' hjob' => h.exclusive.disarmed job' (hhandled job' hjob')
  · exact fun job' hjob' => h.exclusive.same job' (hhandled job' hjob')
  · exact fun fd hfd job' hjob' => h.pending_free fd hfd job' (hhandled job' hjob')
  · exact fun job' hjob' => h.own job' (hhandled job' hjob')
  · exact fun job' hjob' => h.accepted job' (hhandled job' hjob')
  · rintro job' (hmem | ⟨w', hw'⟩) heq
    · apply h.exclusive.apart w job hw
      rw [← heq]
      apply List.mem_map_of_mem hmem
    · obtain ⟨hne, hw'⟩ := hjob w' job' hw'
      apply hne (h.exclusive.one w' w job' job hw' hw heq)

/-- A worker executes the last `modfd` of `process`. -/
theorem Guarded.modfd {s : Server ω} (h : s.Guarded) {w : ω} {job : Job}
    (hw : (s.workers w).job = some job) (ev : Interest) :
  ((s.arm (s.users job.fd).sockfd ev).setWorker w .idle).Guarded
  := by
  have hpending : job.fd ∉ s.pending := fun hmem => h.pending_free _ hmem job (Or.inr ⟨w, hw⟩) rfl
  obtain ⟨hrelease, hfree⟩ := h.release hw
  rcases h.own job (Or.inr ⟨w, hw⟩) with hnone | hsome
  · rw [hnone]
    exact hrelease
  · rw [hsome, arm_setWorker]
    apply hrelease.arm hpending hfree ev

/-- A step that does not open a connection on an object that is in use. -/
theorem Guarded.step {s s' : Server ω} (h : s.Guarded) {e : ServerEvent ω} (hok : ObjectFree s e)
    (hs' : s.step e = some s') :
  s'.Guarded
  := by
  cases steps_of_step hs' with
  | wait hbatch hready => exact h.wait hbatch hready
  | accept hbatch hs' => exact (h.next hbatch).acceptConn hok hs'
  | hup hbatch hs' =>
      have hfd := h.client hbatch
      exact (h.next hbatch).closeByTimer hfd.opened hfd.not_pending hs'
  | alarm hbatch =>
      have h₁ := h.next hbatch
      exact ⟨{ h₁.exclusive with }, h₁.polled, h₁.pending_disarmed, h₁.pending_free, h₁.owned,
        h₁.own, h₁.numbered, h₁.accepted⟩
  | read hbatch hs' => exact (h.next hbatch).readConn (h.client hbatch) hs'
  | write hbatch hs' => exact (h.next hbatch).writeConn (h.client hbatch) hs'
  | pass hbatch => exact h.next hbatch
  | endBatch hbatch hs' => exact h.finishBatch hbatch hs'
  | take _ hqueue => exact h.take hqueue
  | rearm hw hc | refuse hw hc =>
      apply (h.users (HttpConn.process_sockfd hc)).setWorker
      rw [hw]
      rfl
  | @closeConn w job hw =>
      have hjob : (s.workers w).job = some job := by
        rw [hw]
        rfl
      apply (h.closeConn (Or.inr ⟨w, hjob⟩)).setWorker
      rw [closeConn_workers, hjob]
      rfl
  | modfd hw | modfdClosed hw => exact h.modfd (by rw [hw]; rfl) _

/-- A connection that gets an object which is in use is another one than that which is handled. -/
theorem Guarded.not_exclusive_of_accept {s s' : Server ω} (h : s.Guarded) {fd timer : ℕ} {cur : ℤ}
    {added : Registration} {job : Job} (hfew : s.userCount < maxFd) (hjob : s.Handled job)
    (hfd : job.fd = fd)
    (hs' : s.step (.accept fd timer cur added) = some s') :
  ¬ s'.Exclusive
  := by
  cases steps_of_step hs' with
  | accept hbatch hs' =>
      obtain ⟨-, ⟨hmany, -⟩ | ⟨-, hs'⟩⟩ := acceptConn_eq_some hs'
      · apply absurd hfew (not_lt.mpr hmany)
      · obtain ⟨_, _, -, -, rfl⟩ := addTimer_eq_some hs'
        intro hexclusive
        have hsame := hexclusive.same job hjob
        rw [hfd] at hsame
        exact (h.accepted job hjob).ne' ((Function.update_self ..).symm.trans hsame)

/-- The handling of connections is exclusive throughout a run exactly when no connection
gets an object in it that is in the queue or with a worker. -/
theorem exclusive_iff {users : ℕ → HttpConn} {usersTimer : ℕ → ClientData} {maxRequest : ℕ}
    {es : List (ServerEvent ω)} {t : Server ω}
    (h : Run.exec Server.step (init users usersTimer maxRequest) es = some t) :
  Run.Throughout Server.step Exclusive (init users usersTimer maxRequest) es ↔
    Run.Along Server.step ObjectFree (init users usersTimer maxRequest) es
  := by
  apply Run.throughout_iff_along (I := Guarded) _ _ (fun _ h => h.exclusive)
    (init_guarded users usersTimer maxRequest) h
  · intro s e s' hs hok hs'
    apply hs.step hok hs'
  · intro s e s' hs hok hs'
    cases e with
    | accept fd timer cur added =>
        rw [ObjectFree] at hok
        push Not at hok
        obtain ⟨hfew, job, hjob, hfd⟩ := hok
        apply hs.not_exclusive_of_accept hfew hjob hfd hs'
    | _ => exact absurd trivial hok

end Workers

/-- A connection that is accepted and whose request is taken by a worker, which arms the
descriptor again. -/
def firstBytes : List (ServerEvent ℕ) :=
  [.wait [.listen], .accept 5 100 0 .clean, .endBatch 0, .wait [.client 5 .readable],
    .read [.bytes (ascii "GET"), .again] 1, .endBatch 1, .take 0,
    .process 0 (.plain .missing), .modfd 0]

set_option maxRecDepth 10000 in
theorem exclusive_iff_firstBytes :
  Run.Throughout step Exclusive (blank 1) firstBytes ↔
    Run.Along step ObjectFree (blank 1) firstBytes
  := by
  obtain ⟨t, ht⟩ := Option.isSome_iff_exists.mp
    (show (Run.exec step (blank 1) firstBytes).isSome = true by decide +kernel)
  apply exclusive_iff ht

/-- A connection is closed by its timer while its request is in the queue, and the next
one gets its descriptor. -/
theorem not_exclusive :
  ¬ ∀ (users : ℕ → HttpConn) (usersTimer : ℕ → ClientData) (maxRequest : ℕ)
    (es : List (ServerEvent ℕ)) (t : Server ℕ),
    Run.exec step (init users usersTimer maxRequest) es = some t → t.Exclusive
  := by
  intro h
  have harmed : (Run.exec step (blank 1 : Server ℕ) [.wait [.listen],
      .accept 5 100 0 .clean, .endBatch 0, .wait [.client 5 .readable, .alarm],
      .read [.bytes (ascii "GET"), .again] 1, .alarm true, .endBatch 16,
      .wait [.listen], .accept 5 101 17 .clean]).map
        (fun t => (t.workqueue, t.epoll 5)) = some ([⟨5, 0⟩], some .epollIn) := by
    decide +kernel
  obtain ⟨t, ht, harmed⟩ := Option.map_eq_some_iff.mp harmed
  obtain ⟨hqueue, hepoll⟩ := Prod.mk.inj harmed
  have hdisarmed := (h _ _ _ _ t ht).disarmed ⟨5, 0⟩ (Or.inl (by rw [hqueue]; exact
    List.mem_cons_self))
  cases hepoll.symm.trans hdisarmed

end Server

end WebServer
