import WebServer.Server.Changes

/-!
# The indices of the arrays

`main` indexes `users` and `users_timer` with what `accept` returns and with the descriptors
of the events of a batch.  A descriptor of a batch is one that `accept` has returned before,
so it is in the arrays when that one was (`Ranged`).  What `accept` returns is not looked at:
`m_user_count` is compared with `MAX_FD`, which says neither that the call has succeeded nor
that the new descriptor is below `MAX_FD`.

The process has descriptors besides those of its clients; which ones is left open, so that
`accept` may return any that is not open for a client.
-/

namespace WebServer

/-- A step of `main` or of a worker, where `accept` may fail. -/
inductive LoopEvent (ω : Type) where
  | step (e : ServerEvent ω)
  /-- `accept` returns `-1`. -/
  | acceptFails

/-- What `accept` returns in a step that calls it. -/
def LoopEvent.connfd {ω : Type} : LoopEvent ω → Option ℤ
  | .step (.accept fd _ _ _) => some fd
  | .acceptFails => some (-1)
  | .step _ => none

namespace Server

variable {ω : Type}

/-- `main` is at an event of the listening socket. -/
def Listening (s : Server ω) : Prop := ∃ rest, s.batch = some (.listen :: rest)

/-- The index `main` uses after `accept` has returned `connfd`. -/
def indexedAccept (s : Server ω) (connfd : ℤ) : List ℤ :=
  match s.batch with
  | some (.listen :: _) => if (maxFd : ℤ) ≤ s.userCount then [] else [connfd]
  | _ => []

/-- The index `main` uses for an event of a client. -/
def indexedClient (s : Server ω) : List ℤ :=
  match s.batch with
  | some (.client sockfd _ :: _) => [(sockfd : ℤ)]
  | _ => []

/-- The indices that a step uses with `users` and `users_timer`.  The timers have pointers
to their `client_data` and the workers have pointers to their `http_conn`. -/
def indexed (s : Server ω) : LoopEvent ω → List ℤ
  | .step (.accept fd _ _ _) => s.indexedAccept fd
  | .acceptFails => s.indexedAccept (-1)
  | .step .hup | .step (.read _ _) | .step (.write _ _) => s.indexedClient
  | .step _ => []

/-- A step of `main` or of a worker.  A call of `accept` that fails goes unnoticed unless
there are too many users. -/
def loopStep [DecidableEq ω] (s : Server ω) : LoopEvent ω → Option (Server ω)
  | .step e => s.step e
  | .acceptFails =>
    match s.batch with
    | some (.listen :: rest) =>
      if (maxFd : ℤ) ≤ s.userCount then some { s with batch := some rest } else none
    | _ => none

/-- A call of `accept` fails, or there are too many users for the connection it returns. -/
def TurnedAway (s : Server ω) : LoopEvent ω → Prop
  | .step (.accept fd _ _ _) => s.Listening ∧ fd ∉ s.opened ∧ (maxFd : ℤ) ≤ s.userCount
  | .acceptFails => s.Listening
  | .step _ => False

/-- The counter, the timers and the arrays are the same. -/
structure SameClients (s s' : Server ω) : Prop where
  userCount : s'.userCount = s.userCount
  timerLst : s'.timerLst = s.timerLst
  users : s'.users = s.users
  usersTimer : s'.usersTimer = s.usersTimer

/-- The step indexes within the arrays, and a call of `accept` in it that fails or whose
connection is refused changes no client. -/
structure Indexes [DecidableEq ω] (s : Server ω) (e : LoopEvent ω) : Prop where
  inRange : ∀ i ∈ s.indexed e, 0 ≤ i ∧ i < maxFd
  turnedAway : s.TurnedAway e → ∃ s', s.loopStep e = some s' ∧ s.SameClients s'

/-- What `accept` returns is a place of the arrays, if `main` goes on with it. -/
def AcceptFits (s : Server ω) (e : LoopEvent ω) : Prop :=
  ∀ connfd, e.connfd = some connfd → s.Listening → s.userCount < maxFd →
    0 ≤ connfd ∧ connfd < maxFd

/-! ### Descriptors in range -/

/-- The descriptors that are open, armed or ready are places of the arrays. -/
structure Places (opened : Finset ℕ) (epoll : ℕ → Option Interest) (pending : List ℕ) :
    Prop where
  opened : ∀ fd ∈ opened, fd < maxFd
  armed : ∀ fd, epoll fd ≠ none → fd < maxFd
  pending : ∀ fd ∈ pending, fd < maxFd

section Places

variable {opened : Finset ℕ} {epoll : ℕ → Option Interest} {pending : List ℕ} {fd : ℕ}

theorem Places.close (h : Places opened epoll pending) (fd : ℕ) :
  Places (opened.erase fd) (Function.update epoll fd none) pending
  where
  opened := fun fd' hfd' => h.opened fd' (Finset.mem_of_mem_erase hfd')
  armed := by
    intro fd' hfd'
    by_cases heq : fd' = fd
    · rw [heq, Function.update_self] at hfd'
      apply absurd rfl hfd'
    · rw [Function.update_of_ne heq] at hfd'
      apply h.armed fd' hfd'
  pending := h.pending

/-- A descriptor in range may be armed. -/
theorem Places.arm (h : Places opened epoll pending) (hfd : fd < maxFd)
    (ev : Option Interest) :
  Places opened (Function.update epoll fd ev) pending
  where
  opened := h.opened
  armed := by
    intro fd' hfd'
    by_cases heq : fd' = fd
    · rw [heq]
      exact hfd
    · rw [Function.update_of_ne heq] at hfd'
      apply h.armed fd' hfd'
  pending := h.pending

/-- A descriptor in range may be opened. -/
theorem Places.insert (h : Places opened epoll pending) (hfd : fd < maxFd) :
  Places (insert fd opened) epoll pending
  where
  opened := by
    intro fd' hfd'
    rcases Finset.mem_insert.mp hfd' with rfl | hfd'
    · exact hfd
    · apply h.opened fd' hfd'
  armed := h.armed
  pending := h.pending

end Places

/-- The descriptors of the server are places of the arrays. -/
def Ranged (s : Server ω) : Prop := Places s.opened s.epoll s.pending

theorem init_ranged (users : ℕ → HttpConn) (usersTimer : ℕ → ClientData) (maxRequest : ℕ) :
  (init users usersTimer maxRequest : Server ω).Ranged
  := ⟨nofun, fun _ hfd => absurd rfl hfd, nofun⟩

/-- `main` comes to the next event of the batch. -/
theorem Ranged.next {s : Server ω} (h : s.Ranged) {r : Ready} {rest : List Ready}
    (hbatch : s.batch = some (r :: rest)) :
  Ranged { s with batch := some rest }
  := by
  refine ⟨h.opened, h.armed, ?_⟩
  intro fd hfd
  apply h.pending fd
  rw [Server.pending, hbatch, Option.getD_some, clients, ← List.singleton_append,
    List.filterMap_append]
  apply List.mem_append_right _ hfd

theorem Ranged.arm {s : Server ω} (h : s.Ranged) (fd : Option ℕ) (ev : Interest) :
  (s.arm fd ev).Ranged
  := by
  cases fd with
  | none => exact h
  | some fd =>
      rw [Server.arm]
      split
      next hfd => exact Places.arm h (h.opened fd hfd.1) (some ev)
      next => exact h

theorem Ranged.closeByTimer {s s' : Server ω} (h : s.Ranged) {fd : ℕ}
    (hs' : s.closeByTimer fd = some s') :
  s'.Ranged
  := by
  obtain ⟨timer, timerLst, -, -, rfl⟩ := closeByTimer_eq_some hs'
  apply Places.close h

theorem Ranged.delayTimer {s s' : Server ω} (h : s.Ranged) {fd : ℕ} {cur : ℤ}
    (hs' : s.delayTimer fd cur = some s') :
  s'.Ranged
  := by
  obtain ⟨timerLst, rfl⟩ := delayTimer_eq_some hs'
  exact h

theorem Ranged.append {s : Server ω} (h : s.Ranged) (fd : ℕ) :
  (s.append fd).Ranged
  := by
  rw [Server.append]
  split
  · exact h
  · exact h

theorem Ranged.acceptConn {s s' : Server ω} (h : s.Ranged) {fd timer : ℕ} {cur : ℤ}
    {added : Registration} (hfd : s.userCount < maxFd → fd < maxFd)
    (hs' : s.acceptConn fd timer cur added = some s') :
  s'.Ranged
  := by
  obtain ⟨-, ⟨-, rfl⟩ | ⟨hfew, hs'⟩⟩ := acceptConn_eq_some hs'
  · exact h
  · obtain ⟨_, _, -, -, rfl⟩ := addTimer_eq_some hs'
    exact (Places.insert h (hfd hfew)).arm (hfd hfew) added.interest

theorem Ranged.readConn {s s' : Server ω} (h : s.Ranged) {fd : ℕ} {rs : List Recv} {cur : ℤ}
    (hs' : s.readConn fd rs cur = some s') :
  s'.Ranged
  := by
  obtain ⟨⟨ok, c⟩, -, hs'⟩ := Option.bind_eq_some_iff.mp hs'
  have hread : Ranged { s with users := Function.update s.users fd c } := h
  cases ok with
  | true => exact (hread.append fd).delayTimer hs'
  | false => exact hread.closeByTimer hs'

theorem Ranged.writeConn {s s' : Server ω} (h : s.Ranged) {fd : ℕ} {os : List Outcome} {cur : ℤ}
    (hs' : s.writeConn fd os cur = some s') :
  s'.Ranged
  := by
  obtain ⟨⟨ok, s₁⟩, hsend, hs'⟩ := Option.bind_eq_some_iff.mp hs'
  have hsent : s₁.Ranged := by
    obtain ⟨c, -, ⟨-, rfl⟩ | ⟨ev, rfl⟩⟩ := sendConn_eq_some hsend
    · exact h
    · have hc : Ranged { s with users := Function.update s.users fd c } := h
      apply hc.arm
  cases ok with
  | true => exact hsent.delayTimer hs'
  | false => exact hsent.closeByTimer hs'

theorem Ranged.foldl_cbFunc {s : Server ω} (h : s.Ranged) (calls : List (ℕ × ℕ)) :
  (calls.foldl (fun s call => s.cbFunc call.1 call.2) s).Ranged
  := by
  induction calls generalizing s with
  | nil => exact h
  | cons call calls ih => exact ih (s := s.cbFunc call.1 call.2) (Places.close h _)

theorem Ranged.finishBatch {s s' : Server ω} (h : s.Ranged) {cur : ℤ}
    (hs' : s.finishBatch cur = some s') :
  s'.Ranged
  := by
  have hnil : ∀ timeout, Ranged { s with batch := none, timeout := timeout } := fun _ =>
    ⟨h.opened, h.armed, nofun⟩
  rw [Server.finishBatch] at hs'
  split at hs'
  next =>
    obtain ⟨⟨calls, timerLst⟩, -, hs'⟩ := Option.bind_eq_some_iff.mp hs'
    obtain rfl := Option.some.inj hs'
    apply (hnil false).foldl_cbFunc calls
  next =>
    obtain rfl := Option.some.inj hs'
    apply hnil s.timeout

theorem Ranged.wait {s : Server ω} (h : s.Ranged) {ready : List Ready}
    (hready : s.Deliverable ready) :
  Ranged { s with
    batch := some ready
    epoll := fun fd => if fd ∈ clients ready then none else s.epoll fd }
  := by
  refine ⟨h.opened, ?_, fun fd hfd => h.armed fd (hready.armed hfd)⟩
  intro fd hfd
  dsimp only at hfd
  split at hfd
  next => exact absurd rfl hfd
  next => exact h.armed fd hfd

theorem Ranged.closeConn {s : Server ω} (h : s.Ranged) (job : Job) :
  (s.closeConn job).Ranged
  := by
  rw [Server.closeConn]
  split
  next => exact h
  next fd _ => exact Places.close h fd

/-! ### Where the indices come from -/

/-- `main` goes on with what `accept` returns unless there are too many users. -/
theorem mem_indexedAccept {s : Server ω} {connfd i : ℤ} :
  i ∈ s.indexedAccept connfd ↔ s.Listening ∧ s.userCount < maxFd ∧ i = connfd
  := by
  rw [indexedAccept, Listening]
  split
  next rest hbatch =>
    split
    next hmany => simp [hbatch, not_lt.mpr hmany]
    next hfew => simp [hbatch, not_le.mp hfew]
  next hne =>
    constructor
    · intro h
      cases h
    · rintro ⟨⟨rest, hbatch⟩, -⟩
      apply absurd hbatch (hne rest)

/-- The descriptor of an event is in range. -/
theorem Ranged.indexedClient {s : Server ω} (h : s.Ranged) {i : ℤ} (hi : i ∈ s.indexedClient) :
  0 ≤ i ∧ i < maxFd
  := by
  rw [Server.indexedClient] at hi
  split at hi
  next sockfd ev rest hbatch =>
    obtain rfl := List.mem_singleton.mp hi
    refine ⟨Int.natCast_nonneg sockfd, ?_⟩
    have hpending : sockfd ∈ s.pending := by
      rw [Server.pending, hbatch]
      apply List.mem_cons_self
    exact_mod_cast h.pending sockfd hpending
  next => cases hi

/-- The indices of a step are in range exactly when what `accept` returns is. -/
theorem Ranged.indexed_iff {s : Server ω} (h : s.Ranged) (e : LoopEvent ω) :
  (∀ i ∈ s.indexed e, 0 ≤ i ∧ i < maxFd) ↔ s.AcceptFits e
  := by
  have haccept (connfd : ℤ) : (∀ i ∈ s.indexedAccept connfd, 0 ≤ i ∧ i < maxFd) ↔
      (s.Listening → s.userCount < maxFd → 0 ≤ connfd ∧ connfd < maxFd) := by
    simp only [mem_indexedAccept]
    constructor
    · intro hall hlisten hfew
      apply hall connfd ⟨hlisten, hfew, rfl⟩
    · rintro hfits i ⟨hlisten, hfew, rfl⟩
      apply hfits hlisten hfew
  have hclient : (∀ i ∈ s.indexedClient, 0 ≤ i ∧ i < maxFd) := fun i hi => h.indexedClient hi
  cases e with
  | acceptFails => simpa [indexed, AcceptFits, LoopEvent.connfd] using haccept (-1)
  | step e =>
      cases e with
      | accept fd timer cur added => simpa [indexed, AcceptFits, LoopEvent.connfd] using haccept fd
      | hup | read | write =>
          exact ⟨fun _ connfd hconnfd => absurd hconnfd nofun, fun _ => hclient⟩
      | wait | alarm | pass | endBatch | take | process | closeConn | modfd =>
          exact ⟨fun _ connfd hconnfd => absurd hconnfd nofun,
            fun _ i hi => absurd hi List.not_mem_nil⟩

/-! ### The steps -/

section Steps

variable [DecidableEq ω]

/-- Descriptors stay in range when `accept` returns one that is. -/
theorem Ranged.step {s s' : Server ω} (h : s.Ranged) {e : ServerEvent ω}
    (hfits : s.AcceptFits (.step e)) (hs' : s.step e = some s') :
  s'.Ranged
  := by
  cases steps_of_step hs' with
  | wait _ hready => exact h.wait hready
  | accept hbatch hs' =>
      apply (h.next hbatch).acceptConn _ hs'
      intro hfew
      exact_mod_cast (hfits _ rfl ⟨_, hbatch⟩ hfew).2
  | hup hbatch hs' => exact (h.next hbatch).closeByTimer hs'
  | alarm hbatch | pass hbatch => exact h.next hbatch
  | read hbatch hs' => exact (h.next hbatch).readConn hs'
  | write hbatch hs' => exact (h.next hbatch).writeConn hs'
  | endBatch hbatch hs' => exact h.finishBatch hs'
  | take => exact h
  | rearm => exact h
  | refuse => exact h
  | closeConn => exact h.closeConn _
  | modfd => exact h.arm ..
  | modfdClosed => exact h.arm ..

/-- A call of `accept` that fails and is refused only takes its event off the batch. -/
theorem Ranged.loopStep {s s' : Server ω} (h : s.Ranged) {e : LoopEvent ω}
    (hfits : s.AcceptFits e) (hs' : s.loopStep e = some s') :
  s'.Ranged
  := by
  cases e with
  | step e => exact h.step hfits hs'
  | acceptFails =>
      rw [Server.loopStep] at hs'
      split at hs'
      next rest hbatch =>
        split at hs'
        next =>
          obtain rfl := Option.some.inj hs'
          apply h.next hbatch
        next => cases hs'
      next => cases hs'

/-- A connection that is turned away changes no client, when `main` does not go on with a
call of `accept` that failed. -/
theorem sameClients_of_turnedAway {s : Server ω} {e : LoopEvent ω} (hfits : s.AcceptFits e)
    (haway : s.TurnedAway e) :
  ∃ s', s.loopStep e = some s' ∧ s.SameClients s'
  := by
  cases e with
  | acceptFails =>
      obtain ⟨rest, hbatch⟩ := haway
      have hmany : (maxFd : ℤ) ≤ s.userCount := by
        by_contra hfew
        apply absurd (hfits _ rfl ⟨rest, hbatch⟩ (not_le.mp hfew)).1 (by decide)
      refine ⟨{ s with batch := some rest }, ?_, ⟨rfl, rfl, rfl, rfl⟩⟩
      rw [loopStep, hbatch]
      apply if_pos hmany
  | step e =>
      cases e with
      | accept fd timer cur added =>
          obtain ⟨⟨rest, hbatch⟩, hfd, hmany⟩ := haway
          refine ⟨{ s with batch := some rest }, ?_, ⟨rfl, rfl, rfl, rfl⟩⟩
          rw [loopStep, Server.step, hbatch]
          change (if fd ∈ s.opened then none else _) = _
          rw [if_neg hfd]
          apply if_pos hmany
      | _ => exact haway.elim

theorem Ranged.indexes_iff {s : Server ω} (h : s.Ranged) (e : LoopEvent ω) :
  s.Indexes e ↔ s.AcceptFits e
  := by
  constructor
  · intro hindexes
    apply (h.indexed_iff e).mp hindexes.inRange
  · intro hfits
    exact ⟨(h.indexed_iff e).mpr hfits, sameClients_of_turnedAway hfits⟩

/-- Every step of a run indexes within the arrays, and changes no client when it turns a
connection away, exactly when `accept` returns a place of the arrays whenever there are
fewer than `MAX_FD` users. -/
theorem indexes_along_iff (users : ℕ → HttpConn) (usersTimer : ℕ → ClientData)
    (maxRequest : ℕ) (es : List (LoopEvent ω)) :
  Run.Along loopStep Indexes (init users usersTimer maxRequest) es ↔
    Run.Along loopStep AcceptFits (init users usersTimer maxRequest) es
  := by
  apply Run.along_iff_along (I := Ranged) _ _ (init_ranged users usersTimer maxRequest)
  · intro s e s' hs hfits hs'
    apply hs.loopStep hfits hs'
  · intro s e hs
    apply hs.indexes_iff e

end Steps

/-- The first call of `accept` fails. -/
theorem not_indexes :
  ¬ ∀ (users : ℕ → HttpConn) (usersTimer : ℕ → ClientData) (maxRequest : ℕ)
    (es : List (LoopEvent ℕ)),
    Run.Along loopStep Indexes (init users usersTimer maxRequest) es
  := by
  intro h
  have hrun := h (blank 1 : Server ℕ).users (blank 1 : Server ℕ).usersTimer 1
    [.step (.wait [.listen]), .acceptFails]
  obtain ⟨s, hs⟩ : ∃ s, loopStep (blank 1 : Server ℕ) (.step (.wait [.listen])) = some s :=
    ⟨_, rfl⟩
  have hindexed : -1 ∈ s.indexed .acceptFails := by
    cases hs
    decide
  apply absurd ((hrun.2 s hs).1.inRange (-1) hindexed).1 (by decide)

end Server

end WebServer
