import WebServer.Server.Drain
import WebServer.Server.Pools

/-!
# The server with its pools comes to rest

`workers_finish` of the server leaves out the semaphores, and `requests_finish` of the pools
leaves out what `process` does.  Here both go together: when `main` does nothing but come out of
`append`, then in whatever order the workers take their steps, through the queue, the pool of
connections and `process`, they come to rest, and all requests are answered
(`pools_finish`).
-/

open CString

namespace WebServer

namespace Pooled

variable {ω γ : Type}

/-- A step of a worker, or the post at the end of `append`. -/
def Work : PooledEvent ω → Prop
  | .server e => Server.OfWorker e
  | .pools _ => True

/-- The step loses no connection, and `accept` returns no descriptor whose object is in the queue
or with a worker. -/
def Heeds (s : Pooled ω γ) : PooledEvent ω → Prop
  | .server e => s.server.LosesNone e ∧ s.server.ObjectFree e
  | .pools _ => True

/-- How many steps are left for the workers. -/
def remaining [Fintype ω] (s : Pooled ω γ) : ℕ := s.server.remaining + s.pools.remaining

/-- The requests are answered: the queue is empty, the workers wait for requests, the connections
with the database are in their list, and the open connections are armed. -/
structure Rests [Fintype ω] (conns : List γ) (s : Pooled ω γ) : Prop where
  pools : s.pools.Finished conns
  queue : s.server.workqueue = []
  workers : ∀ w, s.server.workers w = .idle
  armed : ∀ fd ∈ s.server.opened, fd ∉ s.server.pending → s.server.epoll fd ≠ none

/-- A worker is before a request at which `process` faults, whatever `do_request` finds. -/
def Faulty (s : Pooled ω γ) : Prop := ∃ w job, s.server.workers w = .took job ∧ s.server.Faults job

section Step

variable [Fintype ω] [DecidableEq ω] [DecidableEq γ] {conns : List γ} {s s' : Pooled ω γ}

/-- What is kept along a run whose steps heed. -/
structure Minds (conns : List γ) (s : Pooled ω γ) : Prop where
  tidy : s.Tidy conns
  attending : s.server.Attending ∅

theorem Minds.step (h : s.Minds conns) {e : PooledEvent ω} (he : s.Heeds e)
    (hs' : s.step e = some s') :
  s'.Minds conns
  := by
  have hfree : s.ObjectFree e := by
    cases e with
    | server e => exact he.2
    | pools e => trivial
  refine ⟨h.tidy.step hfree hs', ?_⟩
  cases steps_of_step hs' with
  | server _ hserver _ => exact h.attending.step he.1 hserver
  | @take w _ _ _ _ _ hserver =>
      exact h.attending.step (e := .take w) (Server.losesNone_of_worker (e := .take w) trivial _)
        hserver
  | idle _ _ | release _ _ | pools _ _ => exact h.attending

omit [Fintype ω] [DecidableEq ω] [DecidableEq γ] in
theorem heeds_of_work {e : PooledEvent ω} (he : Work e) (s : Pooled ω γ) :
  s.Heeds e
  := by
  cases e with
  | server e =>
      refine ⟨Server.losesNone_of_worker he s.server, ?_⟩
      cases e with
      | accept => exact absurd he id
      | _ => trivial
  | pools e => trivial

omit [Fintype ω] in
/-- A step of a worker in `process` leaves the pools. -/
theorem feed_of_worker {e : ServerEvent ω} (he : Server.OfWorker e) :
  feed s.pools (s.server.request e) (s.server.initialised e) = some s.pools
  := by
  cases e with
  | take | process | closeConn | modfd => rfl
  | wait | accept | hup | alarm | read | write | pass | endBatch => exact absurd he id

/-- Each step of the work takes something off what is left. -/
theorem Minds.remaining_lt (h : s.Minds conns) {e : PooledEvent ω} (he : Work e)
    (hs' : s.step e = some s') :
  s'.remaining < s.remaining
  := by
  have hlt {e : BorrowingEvent Unit ω Job} {pools : Borrowing Unit ω γ Job ℕ}
      (he : Borrowing.Working e) (hpools : s.pools.step Job.fd e = some pools) :
      pools.remaining < s.pools.remaining :=
    (Borrowing.moves_of_step h.tidy.sound.inv.request he hpools).remaining_lt
  cases steps_of_step hs' with
  | server _ hserver hpools =>
      rw [feed_of_worker he] at hpools
      cases hpools
      exact Nat.add_lt_add_right (Server.remaining_lt he hserver) _
  | @take w _ _ _ hpools _ hserver =>
      exact Nat.add_lt_add (Server.remaining_lt (e := .take w) trivial hserver)
        (hlt (e := .queue (.pop w)) trivial hpools)
  | @idle w _ hpools _ => exact Nat.add_lt_add_left (hlt (e := .queue (.pop w)) trivial hpools) _
  | @release w _ _ hpools => exact Nat.add_lt_add_left (hlt (e := .release w) trivial hpools) _
  | @pools e _ halone hpools =>
      have hworking : Borrowing.Working e := by
        match e with
        | .queue (.append _ _) | .init _ => exact absurd halone id
        | .queue (.post _) | .queue (.wait _) | .queue (.pop _) | .queue (.done _) | .check _
        | .wait _ | .take _ | .store _ | .load _ | .release _ | .post _ => trivial
      exact Nat.add_lt_add_left (hlt hworking hpools) _

theorem drains :
  Run.Drains (step : Pooled ω γ → _ → _) (Minds conns) Work remaining
  where
  keep := fun s _ _ h he hs' => h.step (heeds_of_work he s) hs'
  less := fun _ _ _ h he hs' => h.remaining_lt he hs'

omit [Fintype ω] in
/-- A worker in `process` can go on, unless that faults. -/
theorem exists_step_of_busy {w : ω} {job : Job} (hjob : (s.server.workers w).job = some job)
    (hbuilt : (s.pools.raii w).isBuilt = true) (hfault : ¬ s.Faulty) :
  ∃ e, Work e ∧ s.step e ≠ none
  := by
  have hstep {e : ServerEvent ω} {t : Server ω} (hready : s.ready e = true)
      (he : Server.OfWorker e) (ht : s.server.step e = some t) :
      s.step (.server e) ≠ none := by
    rw [(Steps.server hready ht (feed_of_worker he)).step]
    exact Option.some_ne_none _
  cases hw : s.server.workers w with
  | idle =>
      rw [hw] at hjob
      cases hjob
  | took job' =>
      by_contra hnone
      push Not at hnone
      apply hfault
      refine ⟨w, job', hw, Server.faults_of_none hw fun found => ?_⟩
      by_contra hsome
      obtain ⟨t, ht⟩ := Option.ne_none_iff_exists'.mp hsome
      exact hstep (e := .process w found) hbuilt trivial ht
        (hnone (.server (.process w found)) trivial)
  | closes job' =>
      exact ⟨.server (.closeConn w), trivial, hstep hbuilt trivial (by rw [Server.step, hw])⟩
  | rearms job' ev =>
      exact ⟨.server (.modfd w), trivial, hstep hbuilt trivial (by rw [Server.step, hw])⟩
  | closed job' =>
      exact ⟨.server (.modfd w), trivial, hstep hbuilt trivial (by rw [Server.step, hw])⟩

/-- When no step of the work is possible and `process` does not fault, no step of the pools is
possible. -/
theorem Coupled.pools_done (h : s.Coupled) (hdone : Run.Done Pooled.step Work s)
    (hfault : ¬ s.Faulty) :
  Run.Done (Borrowing.step Job.fd) Borrowing.Working s.pools
  := by
  have halone {e : BorrowingEvent Unit ω Job} (he : Alone e) : s.pools.step Job.fd e = none := by
    cases hstep : s.pools.step Job.fd e with
    | none => rfl
    | some pools =>
        have hnone := hdone (.pools e) trivial
        rw [(Steps.pools he hstep).step] at hnone
        cases hnone
  intro e he
  match e with
  | .queue (.append _ _) | .init _ => exact absurd he id
  | .queue (.post _) | .queue (.wait _) | .queue (.done _) | .check _ | .wait _ | .take _
  | .store _ | .load _ | .post _ => exact halone trivial
  | .queue (.pop w) =>
      cases hstep : s.pools.step Job.fd (.queue (.pop w)) with
      | none => rfl
      | some pools =>
          obtain ⟨job, server, hjob, hserver, -⟩ := h.take hstep
          have hnone := hdone (.pools (.queue (.pop w))) trivial
          rw [(Steps.take hstep hjob hserver).step] at hnone
          cases hnone
  | .release w =>
      cases hstep : s.pools.step Job.fd (.release w) with
      | none => rfl
      | some pools =>
          cases Borrowing.steps_of_step hstep with
          | @release _ _ hraii =>
              obtain ⟨job, hprocesses⟩ := (hraii ▸ h.workers w).exists_job (fun hr => by cases hr)
              have hagree := h.workers w
              rw [hprocesses, hraii] at hagree
              rcases hagree.of_built with hjob | hidle
              · obtain ⟨e, he, hsome⟩ := exists_step_of_busy hjob (by rw [hraii]; rfl) hfault
                exact absurd (hdone e he) hsome
              · have hnone := hdone (.pools (.release w)) trivial
                rw [(Steps.release hidle hstep).step] at hnone
                cases hnone

/-- When no step of the work is possible, the requests are answered, or `process` faults. -/
theorem Minds.rests [Nonempty ω] (h : s.Minds conns) (hdone : Run.Done Pooled.step Work s) :
  s.Faulty ∨ s.Rests conns
  := by
  by_cases hfault : s.Faulty
  · exact .inl hfault
  · have hfinished := h.tidy.sound.finished (h.tidy.coupled.pools_done hdone hfault)
    have hidle : ∀ w, s.server.workers w = .idle :=
      fun w => ((h.tidy.coupled.workers w).of_outside (.inl (hfinished.workers w))).1
    have hqueue : s.server.workqueue = [] :=
      List.map_eq_nil_iff.mp (h.tidy.coupled.queue.symm.trans hfinished.queue)
    refine .inr ⟨hfinished, hqueue, hidle, fun fd hfd hpending => ?_⟩
    rcases h.attending.attended fd hfd hpending with harmed | ⟨job, hjob, -⟩ | ⟨w, job, hjob, -⟩
    · exact harmed
    · rw [hqueue] at hjob
      cases hjob
    · rw [hidle w] at hjob
      cases hjob

end Step

/-- From every state that is reached without a request that finds the queue full, a connection
that could not be registered or gets an object in use, or an event that `main` does not tell
apart, for any numbers of workers and of connections with the database: when `main` does nothing
more than post a request that it has pushed, the workers finish in so many steps, in whatever
order they take them.  Then all requests are answered, unless `process` faults at one. -/
theorem pools_finish [Fintype ω] [DecidableEq ω] [DecidableEq γ] {connect : ℕ → Option γ}
    {maxconn maxRequest : ℤ} {pool : ConnectionPool ω γ} {threads : ThreadPool Unit ω Job}
    (hthreads : ThreadPool.construct maxRequest = some threads)
    (hconns : ConnectionPool.init connect maxconn = some pool) {users : ℕ → HttpConn}
    {usersTimer : ℕ → ClientData} {fs : List (PooledEvent ω)} {s : Pooled ω γ}
    (hheeds : Run.Along step Heeds (start users usersTimer threads pool) fs)
    (h : Run.exec step (start users usersTimer threads pool) fs = some s) :
  Run.Finishes step Work s.remaining (fun t => t.Faulty ∨ t.Rests pool.connList) s
  := by
  have hnonempty := (Borrowing.construct_waits hthreads).1
  have hstart : (start users usersTimer threads pool).Minds pool.connList :=
    ⟨start_tidy hthreads hconns users usersTimer, Server.init_attending _ _ _⟩
  have hminds := Run.exec_invariant (fun _ _ _ hs he hs' => hs.step he hs') hstart hheeds h
  exact drains.finishes (fun _ ht hdone => ht.rests hdone) hminds

theorem pools_finish_borrows :
  ∃ (pool : ConnectionPool Unit ℕ) (s : Pooled Unit ℕ), s.server.workers () = .took ⟨5, 0⟩ ∧
    s.pools.raii () = .stored ∧
    Run.Finishes step Work s.remaining (fun t => t.Faulty ∨ t.Rests pool.connList) s
  := by
  obtain ⟨threads, pool, s, hthreads, hpool, hs, hspare, hworker, hraii⟩ := exec_borrows
  refine ⟨pool, s, hworker, hraii, pools_finish hthreads hpool (hspare.imp ?_) hs⟩
  intro t e ht
  cases e with
  | server e => exact ⟨ht.1.losesNone, ht.2⟩
  | pools e => trivial

end Pooled

end WebServer
