import WebServer.Server.Changes

/-!
# No connection is forgotten

Between two steps of `main` and the workers, an open connection whose event `main` is not
about to handle is armed, or in the queue, or with a worker that will arm or close it.
`append` refuses a request when the queue is full, and `main` does not look at its
result; then the descriptor stays disarmed and nobody has the connection.  A connection that
`addfd` could not register is never armed, and an event that `main` does not tell apart, which
the mask of `addfd` may ask for, disarms its descriptor for nothing.  So this holds throughout
the runs in which none of this happens (`attended_throughout`).
-/

open CString

namespace WebServer

namespace Server

variable {ω : Type}

/-- Somebody will come back to the descriptor: it is armed, or its object is in the queue
or with a worker that has neither armed nor closed it. -/
def Minded (s : Server ω) (fd : ℕ) : Prop :=
  s.epoll fd ≠ none ∨ (∃ job ∈ s.workqueue, job.fd = fd) ∨
    ∃ w job, (s.workers w).unfinished = some job ∧ job.fd = fd

/-- Every open connection is minded, but for those whose events `main` has not come to in
the batch. -/
def Attended (s : Server ω) : Prop := ∀ fd ∈ s.opened, fd ∉ s.pending → s.Minded fd

/-- A request that was read is not put into a full queue, a new connection is registered, and
no event is one that `main` does not tell apart. -/
def LosesNone (s : Server ω) : ServerEvent ω → Prop
  | .read rs _ => ∀ fd rest c, s.batch = some (.client fd .readable :: rest) →
      (s.users fd).read rs = some (true, c) → s.workqueue.length < s.maxRequest
  | .accept _ _ _ added => s.userCount < maxFd → added ≠ .failed
  | .pass => False
  | _ => True

/-- An object that is in use, or is about to be: its event is in the rest of the batch or in
the hands of `main`, or it is in the queue or with a worker. -/
def InUse (s : Server ω) (hands : Set ℕ) (fd : ℕ) : Prop :=
  fd ∈ s.pending ∨ fd ∈ hands ∨ (∃ job ∈ s.workqueue, job.fd = fd) ∨
    ∃ w job, (s.workers w).job = some job ∧ job.fd = fd

/-- What is kept along a run in which no connection is lost, while `main` has an event of the
descriptors in `hands`. -/
structure Attending (s : Server ω) (hands : Set ℕ) : Prop where
  minded : ∀ fd ∈ s.opened, fd ∉ s.pending → fd ∉ hands → s.Minded fd
  armed : ∀ fd, s.epoll fd ≠ none → fd ∈ s.opened
  owned : Owned s.opened s.users s.usersTimer
  own : ∀ fd, s.InUse hands fd → Own s.users fd
  registered : ∀ fd ∈ s.opened, s.added fd ≠ .failed

theorem Attending.attended {s : Server ω} (h : s.Attending ∅) :
  s.Attended
  := fun fd hfd hpending => h.minded fd hfd hpending (Set.notMem_empty fd)

theorem init_attending (users : ℕ → HttpConn) (usersTimer : ℕ → ClientData) (maxRequest : ℕ) :
  (init users usersTimer maxRequest : Server ω).Attending ∅
  := by
  refine ⟨nofun, fun fd hfd => absurd rfl hfd, ⟨nofun, nofun⟩, ?_, nofun⟩
  rintro fd (hfd | hfd | ⟨job, hjob, -⟩ | ⟨w, job, hw, -⟩)
  · cases hfd
  · cases hfd
  · cases hjob
  · cases hw

/-! ### The operations of `main` -/

/-- The first event of a batch comes into the hands of `main`. -/
theorem Attending.next {s : Server ω} (h : s.Attending ∅) {r : Ready} {rest : List Ready}
    (hbatch : s.batch = some (r :: rest)) :
  Attending { s with batch := some rest } (Set.ofPred (· ∈ clients [r]))
  := by
  have hmem : ∀ fd, fd ∈ s.pending ↔ fd ∈ clients [r] ∨ fd ∈ clients rest := by
    intro fd
    rw [pending, hbatch, Option.getD_some, clients, ← List.singleton_append,
      List.filterMap_append, List.mem_append]
    rfl
  refine ⟨?_, h.armed, h.owned, ?_, h.registered⟩
  · intro fd hfd hpending hhands
    apply h.minded fd hfd _ (Set.notMem_empty fd)
    rw [hmem]
    exact fun hor => hor.elim hhands hpending
  · rintro fd (hfd | hfd | hrest)
    · apply h.own fd (Or.inl ((hmem fd).mpr (Or.inr hfd)))
    · apply h.own fd (Or.inl ((hmem fd).mpr (Or.inl hfd)))
    · apply h.own fd (Or.inr (Or.inr hrest))

/-- What comes into the hands of `main` with an event that is none of a client's. -/
theorem Attending.next_empty {s : Server ω} (h : s.Attending ∅) {r : Ready} {rest : List Ready}
    (hbatch : s.batch = some (r :: rest)) (hr : clients [r] = []) :
  Attending { s with batch := some rest } ∅
  := by
  have hnext := h.next hbatch
  rw [hr] at hnext
  convert hnext using 1
  exact (Set.eq_empty_of_forall_notMem fun _ => List.not_mem_nil).symm

/-- What comes into the hands of `main` with an event of a client. -/
theorem Attending.next_client {s : Server ω} (h : s.Attending ∅) {fd : ℕ} {ev : ClientEvent}
    {rest : List Ready} (hbatch : s.batch = some (.client fd ev :: rest)) :
  Attending { s with batch := some rest } {fd}
  := by
  have hnext := h.next hbatch
  convert hnext using 1
  apply Set.ext fun fd' => List.mem_singleton.symm

/-- What is minded is in no hands but those of `main`. -/
theorem Attending.release {s : Server ω} {fd : ℕ} (h : s.Attending {fd})
    (hfd : fd ∈ s.opened → s.Minded fd) :
  s.Attending ∅
  := by
  refine ⟨?_, h.armed, h.owned, ?_, h.registered⟩
  · intro fd' hfd' hpending _
    by_cases heq : fd' = fd
    · rw [heq] at hfd' ⊢
      apply hfd hfd'
    · apply h.minded fd' hfd' hpending heq
  · rintro fd' (hfd' | hfd' | hrest)
    · apply h.own fd' (Or.inl hfd')
    · cases hfd'
    · apply h.own fd' (Or.inr (Or.inr hrest))

/-- `cb_func` leaves the other connections minded. -/
theorem Attending.cbFunc {s : Server ω} {hands : Set ℕ} (h : s.Attending hands) (timer slot : ℕ) :
  (s.cbFunc timer slot).Attending hands
  := by
  refine ⟨?_, ?_, h.owned.close _, h.own,
    fun fd hfd => h.registered fd (Finset.mem_of_mem_erase hfd)⟩
  · intro fd hfd hpending hhands
    obtain ⟨hne, hfd⟩ := Finset.mem_erase.mp hfd
    rcases h.minded fd hfd hpending hhands with harmed | hrest
    · apply Or.inl (armed_of_armed_close hne harmed)
    · apply Or.inr hrest
  · exact fun fd hfd => opened_of_armed_close h.armed hfd

/-- `main` closes the connection in its hands. -/
theorem Attending.closeByTimer {s s' : Server ω} {fd : ℕ} (h : s.Attending {fd})
    (hs' : s.closeByTimer fd = some s') :
  s'.Attending ∅
  := by
  obtain ⟨timer, timerLst, -, -, rfl⟩ := closeByTimer_eq_some hs'
  have hclose : (s.cbFunc timer fd).Attending ∅ := by
    apply (h.cbFunc timer fd).release
    intro hfd
    obtain ⟨hne, hfd⟩ := Finset.mem_erase.mp hfd
    apply absurd (h.owned.slot fd hfd).symm hne
  exact ⟨hclose.minded, hclose.armed, hclose.owned, hclose.own, hclose.registered⟩

/-- `main` puts a timer off. -/
theorem Attending.delayTimer {s s' : Server ω} {hands : Set ℕ} (h : s.Attending hands) {fd : ℕ}
    {cur : ℤ} (hs' : s.delayTimer fd cur = some s') :
  s'.Attending hands
  := by
  obtain ⟨timerLst, rfl⟩ := delayTimer_eq_some hs'
  exact ⟨h.minded, h.armed, h.owned, h.own, h.registered⟩

/-- An object may be changed that keeps its descriptor. -/
theorem Attending.users {s : Server ω} {hands : Set ℕ} (h : s.Attending hands) {fd : ℕ}
    {c : HttpConn} (hc : c.sockfd = (s.users fd).sockfd) :
  Attending { s with users := Function.update s.users fd c } hands
  := ⟨h.minded, h.armed, h.owned.congr hc, fun fd' hfd' => (h.own fd' hfd').congr hc,
    h.registered⟩

/-- A request that is put into a queue with room is minded. -/
theorem Attending.append {s : Server ω} {fd : ℕ} (h : s.Attending {fd})
    (hroom : s.workqueue.length < s.maxRequest) :
  (s.append fd).Attending ∅
  := by
  have hqueue : s.append fd = { s with workqueue := s.workqueue ++ [⟨fd, s.conn fd⟩] } :=
    if_neg (not_le.mpr hroom)
  rw [hqueue]
  refine ⟨?_, h.armed, h.owned, ?_, h.registered⟩
  · intro fd' hfd' hpending _
    by_cases heq : fd' = fd
    · apply Or.inr (Or.inl ⟨_, List.mem_append_right _ List.mem_cons_self, heq.symm⟩)
    · rcases h.minded fd' hfd' hpending heq with harmed | ⟨job, hjob, hfd⟩ | hworker
      · apply Or.inl harmed
      · apply Or.inr (Or.inl ⟨job, List.mem_append_left _ hjob, hfd⟩)
      · apply Or.inr (Or.inr hworker)
  · rintro fd' (hfd' | hfd' | ⟨job, hjob, hfd⟩ | hworker)
    · apply h.own fd' (Or.inl hfd')
    · cases hfd'
    · rcases List.mem_append.mp hjob with hjob | hjob
      · apply h.own fd' (Or.inr (Or.inr (Or.inl ⟨job, hjob, hfd⟩)))
      · obtain rfl := List.mem_singleton.mp hjob
        apply h.own fd' (Or.inr (Or.inl hfd.symm))
    · apply h.own fd' (Or.inr (Or.inr (Or.inr hworker)))

/-- Arming a descriptor leaves the others minded. -/
theorem Attending.arm {s : Server ω} {hands : Set ℕ} (h : s.Attending hands) (fd : Option ℕ)
    (ev : Interest) :
  (s.arm fd ev).Attending hands ∧ (s.arm fd ev).opened = s.opened ∧
    ∀ fd' ∈ s.opened, fd = some fd' → (s.arm fd ev).epoll fd' ≠ none
  := by
  cases fd with
  | none => exact ⟨h, rfl, fun _ _ heq => absurd heq.symm (Option.some_ne_none _)⟩
  | some fd =>
      rw [Server.arm]
      split
      next hfd =>
        refine ⟨⟨?_, ?_, h.owned, h.own, ?_⟩, rfl, ?_⟩
        · intro fd' hfd' hpending hhands
          rcases h.minded fd' hfd' hpending hhands with harmed | hrest
          · apply Or.inl (armed_of_armed ev harmed)
          · apply Or.inr hrest
        · exact fun fd' hfd' => opened_of_armed_arm h.armed hfd.1 hfd'
        · intro fd' hfd'
          change Function.update s.added fd .clean fd' ≠ .failed
          by_cases heq : fd' = fd
          · rw [heq, Function.update_self]
            decide
          · rw [Function.update_of_ne heq]
            exact h.registered fd' hfd'
        · rintro fd' _ heq
          obtain rfl := Option.some.inj heq
          dsimp only
          rw [Function.update_self]
          apply Option.some_ne_none ev
      next hfd =>
        refine ⟨h, rfl, ?_⟩
        rintro fd' hfd' heq
        obtain rfl := Option.some.inj heq
        exact absurd ⟨hfd', h.registered _ hfd'⟩ hfd

/-- `main` reads from a connection. -/
theorem Attending.readConn {s s' : Server ω} {fd : ℕ} (h : s.Attending {fd}) {rs : List Recv}
    (hroom : ∀ c, (s.users fd).read rs = some (true, c) → s.workqueue.length < s.maxRequest)
    {cur : ℤ} (hs' : s.readConn fd rs cur = some s') :
  s'.Attending ∅
  := by
  obtain ⟨⟨ok, c⟩, hread, hs'⟩ := Option.bind_eq_some_iff.mp hs'
  have h₁ := h.users (HttpConn.read_sockfd hread)
  cases ok with
  | false => exact h₁.closeByTimer hs'
  | true => exact (h₁.append (hroom c hread)).delayTimer hs'

/-- `main` writes to a connection. -/
theorem Attending.writeConn {s s' : Server ω} {fd : ℕ} (h : s.Attending {fd})
    {os : List Outcome} {cur : ℤ} (hs' : s.writeConn fd os cur = some s') :
  s'.Attending ∅
  := by
  obtain ⟨⟨ok, s₁⟩, hs₁, hs'⟩ := Option.bind_eq_some_iff.mp hs'
  obtain ⟨c, hc, ⟨rfl, rfl⟩ | ⟨ev, rfl⟩⟩ := sendConn_eq_some hs₁
  · exact (h.users hc).closeByTimer hs'
  · obtain ⟨h₁, hopened, harmed⟩ := (h.users hc).arm c.sockfd ev
    cases ok with
    | false => exact h₁.closeByTimer hs'
    | true =>
        apply (h₁.release _).delayTimer hs'
        intro hfd
        rw [hopened] at hfd
        apply Or.inl (harmed fd hfd (hc.trans (h.owned.sock fd hfd)))

/-- A descriptor is armed that is registered. -/
theorem interest_ne_none {added : Registration} (h : added ≠ .failed) :
  added.interest ≠ none
  := by
  cases added with
  | failed => exact absurd rfl h
  | made writable other => exact Option.some_ne_none _

/-- `main` accepts a connection, which is registered. -/
theorem Attending.acceptConn {s s' : Server ω} (h : s.Attending ∅) {fd timer : ℕ} {cur : ℤ}
    {added : Registration} (hadded : s.userCount < maxFd → added ≠ .failed)
    (hs' : s.acceptConn fd timer cur added = some s') :
  s'.Attending ∅
  := by
  obtain ⟨hfd, ⟨-, rfl⟩ | ⟨hcount, hs'⟩⟩ := acceptConn_eq_some hs'
  · exact h
  · obtain ⟨_, timerLst, -, -, rfl⟩ := addTimer_eq_some hs'
    refine ⟨?_, ?_, h.owned.insert fd _, fun fd' hfd' => (h.own fd' hfd').update (Or.inr rfl), ?_⟩
    · intro fd' hfd' hpending hhands
      by_cases heq : fd' = fd
      · left
        change Function.update s.epoll fd _ fd' ≠ none
        rw [heq, Function.update_self]
        exact interest_ne_none (hadded hcount)
      · rcases h.minded fd' (Finset.mem_of_mem_insert_of_ne hfd' heq) hpending hhands
          with harmed | hrest
        · left
          change Function.update s.epoll fd _ fd' ≠ none
          rw [Function.update_of_ne heq]
          exact harmed
        · apply Or.inr hrest
    · intro fd' hfd'
      have harmed : ∀ fd', s.epoll fd' ≠ none → fd' ∈ insert fd s.opened :=
        fun fd' hfd' => Finset.mem_insert_of_mem (h.armed fd' hfd')
      apply opened_of_armed_arm harmed (Finset.mem_insert_self ..) hfd'
    · intro fd' hfd'
      change Function.update s.added fd added fd' ≠ .failed
      by_cases heq : fd' = fd
      · rw [heq, Function.update_self]
        exact hadded hcount
      · rw [Function.update_of_ne heq]
        exact h.registered fd' (Finset.mem_of_mem_insert_of_ne hfd' heq)

/-- The timers that fire close connections. -/
theorem Attending.foldl_cbFunc {s : Server ω} {hands : Set ℕ} (h : s.Attending hands)
    (calls : List (ℕ × ℕ)) :
  (calls.foldl (fun s call => s.cbFunc call.1 call.2) s).Attending hands
  := by
  induction calls generalizing s with
  | nil => exact h
  | cons call calls ih => exact ih (h.cbFunc call.1 call.2)

/-- `main` comes to the end of a batch. -/
theorem Attending.finishBatch {s s' : Server ω} (h : s.Attending ∅) (hbatch : s.batch = some [])
    {cur : ℤ} (hs' : s.finishBatch cur = some s') :
  s'.Attending ∅
  := by
  have hpending : s.pending = [] := by
    rw [pending, hbatch]
    rfl
  have hwait : ∀ timeout, Attending { s with batch := none, timeout := timeout } ∅ := by
    intro timeout
    refine ⟨?_, h.armed, h.owned, ?_, h.registered⟩
    · intro fd hfd _
      apply h.minded fd hfd
      rw [hpending]
      apply List.not_mem_nil
    · rintro fd (hfd | hrest)
      · cases hfd
      · apply h.own fd (Or.inr hrest)
  rw [Server.finishBatch] at hs'
  split at hs'
  · obtain ⟨⟨calls, lst⟩, -, hs'⟩ := Option.bind_eq_some_iff.mp hs'
    obtain rfl := Option.some.inj hs'
    have hcalls := (hwait false).foldl_cbFunc calls
    exact ⟨hcalls.minded, hcalls.armed, hcalls.owned, hcalls.own, hcalls.registered⟩
  · obtain rfl := Option.some.inj hs'
    apply hwait s.timeout

/-- `epoll_wait` returns. -/
theorem Attending.wait {s : Server ω} (h : s.Attending ∅) (hbatch : s.batch = none)
    {ready : List Ready} (hready : s.Deliverable ready) :
  Attending { s with
    batch := some ready
    epoll := fun fd => if fd ∈ clients ready then none else s.epoll fd } ∅
  := by
  have hpending : s.pending = [] := by
    rw [pending, hbatch]
    rfl
  refine ⟨?_, ?_, h.owned, ?_, h.registered⟩
  · intro fd hfd hready' hhands
    have hclients : fd ∉ clients ready := hready'
    rcases h.minded fd hfd (by rw [hpending]; exact List.not_mem_nil) hhands with harmed | hrest
    · left
      dsimp only
      rw [if_neg hclients]
      exact harmed
    · apply Or.inr hrest
  · intro fd hfd
    dsimp only at hfd
    split at hfd
    next => exact absurd rfl hfd
    next => exact h.armed fd hfd
  · rintro fd (hfd | hrest)
    · apply Or.inr (h.owned.sock fd (h.armed fd (hready.armed hfd)))
    · apply h.own fd (Or.inr hrest)

/-! ### The workers -/

/-- A worker executes `close_conn`. -/
theorem Attending.closeConn {s : Server ω} (h : s.Attending ∅) {job : Job}
    (hjob : s.InUse ∅ job.fd) :
  (s.closeConn job).Attending ∅ ∧ job.fd ∉ (s.closeConn job).opened
  := by
  rw [Server.closeConn]
  split
  next hsock =>
    refine ⟨h, ?_⟩
    intro hfd
    cases hsock.symm.trans (h.owned.sock _ hfd)
  next fd hsock =>
    obtain rfl := (h.own _ hjob).eq hsock
    refine ⟨⟨?_, ?_, h.owned.closeConn _ _, fun fd hfd => (h.own fd hfd).update (Or.inl rfl),
      fun fd hfd => h.registered fd (Finset.mem_of_mem_erase hfd)⟩,
      Finset.notMem_erase job.fd s.opened⟩
    · intro fd hfd hpending hhands
      obtain ⟨hne, hfd⟩ := Finset.mem_erase.mp hfd
      rcases h.minded fd hfd hpending hhands with harmed | hrest
      · apply Or.inl (armed_of_armed_close hne harmed)
      · apply Or.inr hrest
    · exact fun fd hfd => opened_of_armed_close h.armed hfd

section Workers

variable [DecidableEq ω]

/-- A worker changes its state. -/
theorem Attending.setWorker {s : Server ω} {hands : Set ℕ} (h : s.Attending hands) {w : ω}
    {x : Worker}
    (hunfinished : ∀ job, (s.workers w).unfinished = some job →
      (s.setWorker w x).Minded job.fd ∨ job.fd ∉ s.opened)
    (hown : ∀ job, x.job = some job → s.InUse hands job.fd) :
  (s.setWorker w x).Attending hands
  := by
  refine ⟨?_, h.armed, h.owned, ?_, h.registered⟩
  · intro fd hfd hpending hhands
    rcases h.minded fd hfd hpending hhands with harmed | hqueue | ⟨w', job, hw', hjob⟩
    · apply Or.inl harmed
    · apply Or.inr (Or.inl hqueue)
    · by_cases heq : w' = w
      · rw [heq] at hw'
        rw [← hjob] at hfd ⊢
        exact (hunfinished job hw').resolve_right (not_not.mpr hfd)
      · refine Or.inr (Or.inr ⟨w', job, ?_, hjob⟩)
        exact ((Threads.read_update Worker.unfinished ..).trans (if_neg heq)).trans hw'
  · rintro fd (hfd | hfd | hqueue | ⟨w', job, hw', rfl⟩)
    · apply h.own fd (Or.inl hfd)
    · apply h.own fd (Or.inr (Or.inl hfd))
    · apply h.own fd (Or.inr (Or.inr (Or.inl hqueue)))
    · rcases Threads.read_update_eq_some hw' with ⟨-, hw'⟩ | ⟨-, hw'⟩
      · apply h.own job.fd (hown job hw')
      · exact h.own job.fd (Or.inr (Or.inr (Or.inr ⟨w', job, hw', rfl⟩)))

/-- A worker goes on with its job. -/
theorem Attending.setWorker_same {s : Server ω} {hands : Set ℕ} (h : s.Attending hands) {w : ω}
    {x : Worker} {job : Job} (hw : (s.workers w).unfinished = some job)
    (hx : x.unfinished = some job) (hjob : (s.workers w).job = some job)
    (hxjob : x.job = some job) :
  (s.setWorker w x).Attending hands
  := by
  apply h.setWorker
  · intro job' hw'
    obtain rfl := Option.some.inj (hw.symm.trans hw')
    left
    refine Or.inr (Or.inr ⟨w, job, ?_, rfl⟩)
    exact ((Threads.read_update Worker.unfinished ..).trans (if_pos rfl)).trans hx
  · intro job' hx'
    obtain rfl := Option.some.inj (hxjob.symm.trans hx')
    apply Or.inr (Or.inr (Or.inr ⟨w, job, hjob, rfl⟩))

/-- A worker that has no job takes the first one from the queue. -/
theorem Attending.take {s : Server ω} (h : s.Attending ∅) {w : ω} {job : Job}
    {queue : List Job} (hw : s.workers w = .idle) (hqueue : s.workqueue = job :: queue) :
  ({ s with workqueue := queue }.setWorker w (.took job)).Attending ∅
  := by
  refine ⟨?_, h.armed, h.owned, ?_, h.registered⟩
  · intro fd hfd hpending hhands
    rcases h.minded fd hfd hpending hhands with harmed | ⟨job', hjob', rfl⟩ | ⟨w', job', hw', rfl⟩
    · apply Or.inl harmed
    · rw [hqueue] at hjob'
      rcases List.mem_cons.mp hjob' with rfl | hjob'
      · refine Or.inr (Or.inr ⟨w, job', ?_, rfl⟩)
        exact (Threads.read_update Worker.unfinished ..).trans (if_pos rfl)
      · apply Or.inr (Or.inl ⟨job', hjob', rfl⟩)
    · refine Or.inr (Or.inr ⟨w', job', ?_, rfl⟩)
      refine ((Threads.read_update Worker.unfinished ..).trans (if_neg ?_)).trans hw'
      rintro rfl
      rw [hw] at hw'
      cases hw'
  · rintro fd (hfd | hfd | ⟨job', hjob', rfl⟩ | ⟨w', job', hw', rfl⟩)
    · apply h.own fd (Or.inl hfd)
    · cases hfd
    · exact h.own _ (Or.inr (Or.inr (Or.inl ⟨job', hqueue ▸ List.mem_cons_of_mem _ hjob', rfl⟩)))
    · rcases Threads.read_update_eq_some hw' with ⟨-, hw'⟩ | ⟨-, hw'⟩
      · obtain rfl := Option.some.inj hw'
        exact h.own _ (Or.inr (Or.inr (Or.inl ⟨job, hqueue ▸ List.mem_cons_self, rfl⟩)))
      · exact h.own _ (Or.inr (Or.inr (Or.inr ⟨w', job', hw', rfl⟩)))

/-- A worker executes the last `modfd` of `process`. -/
theorem Attending.modfd {s : Server ω} (h : s.Attending ∅) {w : ω} {job : Job}
    (hw : ∀ job', (s.workers w).unfinished = some job' → job' = job) (ev : Interest) :
  ((s.arm (s.users job.fd).sockfd ev).setWorker w .idle).Attending ∅
  := by
  obtain ⟨harm, hopened, harmed⟩ := h.arm (s.users job.fd).sockfd ev
  apply harm.setWorker
  · intro job' hw'
    rw [arm_workers] at hw'
    rw [hw job' hw', hopened]
    by_cases hfd : job.fd ∈ s.opened
    · apply Or.inl (Or.inl (harmed job.fd hfd (h.owned.sock _ hfd)))
    · apply Or.inr hfd
  · exact nofun

/-- A step that loses no connection. -/
theorem Attending.step {s s' : Server ω} (h : s.Attending ∅) {e : ServerEvent ω}
    (hok : LosesNone s e) (hs' : s.step e = some s') :
  s'.Attending ∅
  := by
  cases steps_of_step hs' with
  | wait hbatch hready => exact h.wait hbatch hready
  | accept hbatch hs' => exact (h.next_empty hbatch rfl).acceptConn hok hs'
  | hup hbatch hs' => exact (h.next_client hbatch).closeByTimer hs'
  | alarm hbatch =>
      have h₁ := h.next_empty hbatch rfl
      exact ⟨h₁.minded, h₁.armed, h₁.owned, h₁.own, h₁.registered⟩
  | read hbatch hs' =>
      apply (h.next_client hbatch).readConn _ hs'
      exact fun c hread => hok _ _ c hbatch hread
  | write hbatch hs' => exact (h.next_client hbatch).writeConn hs'
  | pass _ => exact absurd hok id
  | endBatch hbatch hs' => exact h.finishBatch hbatch hs'
  | take hw hqueue => exact h.take hw hqueue
  | rearm hw hc | refuse hw hc =>
      refine (h.users (HttpConn.process_sockfd hc)).setWorker_same ?_ rfl ?_ rfl
      · rw [hw]
        rfl
      · rw [hw]
        rfl
  | @closeConn w job hw =>
      have hjob : (s.workers w).job = some job := by
        rw [hw]
        rfl
      obtain ⟨hclose, hfd⟩ := h.closeConn (Or.inr (Or.inr (Or.inr ⟨w, job, hjob, rfl⟩)))
      apply hclose.setWorker
      · intro job' hjob'
        rw [closeConn_workers, hw] at hjob'
        obtain rfl := Option.some.inj hjob'
        apply Or.inr hfd
      · intro job' hjob'
        obtain rfl := Option.some.inj hjob'
        refine Or.inr (Or.inr (Or.inr ⟨w, job, ?_, rfl⟩))
        rw [closeConn_workers, hjob]
  | modfd hw =>
      apply h.modfd
      rw [hw]
      exact fun job' hjob' => (Option.some.inj hjob').symm
  | modfdClosed hw =>
      apply h.modfd
      rw [hw]
      exact nofun

end Workers

/-- There is room in the queue, and the registrations go well. -/
def Spare (s : Server ω) (e : ServerEvent ω) : Prop :=
  s.workqueue.length < s.maxRequest ∧
    match e with
    | .accept _ _ _ added => added ≠ .failed
    | .pass => False
    | _ => True

instance (s : Server ω) : ∀ e, Decidable (s.Spare e)
  | .accept _ _ _ _ => inferInstanceAs (Decidable (_ ∧ _ ≠ _))
  | .pass => inferInstanceAs (Decidable (_ ∧ False))
  | .wait _ | .hup | .alarm _ | .read _ _ | .write _ _ | .endBatch _ | .take _ | .process _ _
  | .closeConn _ | .modfd _ => inferInstanceAs (Decidable (_ ∧ True))

theorem Spare.losesNone {s : Server ω} {e : ServerEvent ω} (h : s.Spare e) :
  s.LosesNone e
  := by
  cases e with
  | read rs cur => exact fun _ _ _ _ _ => h.1
  | accept fd timer cur added => exact fun _ => h.2
  | pass => exact h.2
  | _ => trivial

end Server

end WebServer
