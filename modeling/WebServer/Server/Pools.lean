import WebServer.Lib.Refinement
import WebServer.Pool.Drain
import WebServer.Server.Attended
import WebServer.Server.Exclusive

/-!
# The server with its pools

In the machine of the server `append` is a part of one step of `main`, and a worker that is
idle takes a job in one step.  In the program `append` leaves its lock before it posts the
semaphore, and a worker waits for the semaphore, takes the lock, borrows a connection with the
database, runs `process` and gives the connection back.  Here the server goes together with
the thread pool and the pool of connections.

The two never disagree: in every state that is reached, they have the same queue, and each
worker has the request of its job and its `connectionRAII` while it is in `process` (`Coupled`).
And the runs of the server are exactly what the runs of the whole are seen as, when only the
steps of the server and the taking of jobs are looked at (`pools_trace_iff`).

Two workers with the same object share its `mysql`, and `init()` of an object that a worker has
sets it to null.  That does not happen in the runs in which `accept` returns no descriptor whose
object is in the queue or with a worker (`Tidy`), and in these no connection is lost.
-/

open CString

namespace WebServer

/-- The worker that takes a step, if it is not `main`. -/
def ServerEvent.worker {ω : Type} : ServerEvent ω → Option ω
  | .take w | .process w _ | .closeConn w | .modfd w => some w
  | .wait _ | .accept _ _ _ _ | .hup | .alarm _ | .read _ _ | .write _ _ | .pass
  | .endBatch _ => none

namespace Server

variable {ω : Type}

/-! ### The queue and the workers in a step -/

/-- The request that `main` passes to `append` in a step. -/
def request (s : Server ω) : ServerEvent ω → Option Job
  | .read rs _ =>
    match s.batch with
    | some (.client fd .readable :: _) =>
      match (s.users fd).read rs with
      | some (true, _) => some ⟨fd, s.conn fd⟩
      | _ => none
    | _ => none
  | _ => none

/-- The object of which `main` calls `init()` in a step. -/
def initialised (s : Server ω) : ServerEvent ω → Option Job
  | .accept fd _ _ _ => if maxFd ≤ s.userCount then none else some ⟨fd, s.accepted⟩
  | .write os _ =>
    match s.batch with
    | some (.client fd .writable :: _) =>
      match (s.users fd).write os with
      | (_, some .idle) | (_, some .kept) => some ⟨fd, s.conn fd⟩
      | _ => none
    | _ => none
  | _ => none

/-- The queue behind a call of `append`, if there is one. -/
def queueWith (s : Server ω) : Option Job → List Job
  | none => s.workqueue
  | some job =>
    if s.maxRequest ≤ s.workqueue.length then s.workqueue else s.workqueue ++ [job]

/-- The bound of the queue, the queue, and the workers. -/
def dispatch (s : Server ω) : ℕ × List Job × (ω → Worker) := (s.maxRequest, s.workqueue, s.workers)

theorem append_dispatch (s : Server ω) (fd : ℕ) :
  (s.append fd).dispatch = (s.maxRequest, s.queueWith (some ⟨fd, s.conn fd⟩), s.workers)
  := by
  rw [append, queueWith]
  split
  · rfl
  · rfl

theorem closeByTimer_dispatch {s s' : Server ω} {fd : ℕ} (h : s.closeByTimer fd = some s') :
  s'.dispatch = s.dispatch
  := by
  obtain ⟨timer, timerLst, -, -, rfl⟩ := closeByTimer_eq_some h
  rfl

theorem delayTimer_dispatch {s s' : Server ω} {fd : ℕ} {cur : ℤ}
    (h : s.delayTimer fd cur = some s') :
  s'.dispatch = s.dispatch
  := by
  obtain ⟨timerLst, rfl⟩ := delayTimer_eq_some h
  rfl

theorem arm_dispatch (s : Server ω) (fd : Option ℕ) (ev : Interest) :
  (s.arm fd ev).dispatch = s.dispatch
  := by
  cases fd with
  | none => rfl
  | some fd =>
      rw [arm]
      split
      · rfl
      · rfl

theorem closeConn_dispatch (s : Server ω) (job : Job) :
  (s.closeConn job).dispatch = s.dispatch
  := by
  rw [closeConn]
  split
  · rfl
  · rfl

section Steps

variable [DecidableEq ω] {s s' : Server ω} {e : ServerEvent ω}

/-- A step of `main` changes no worker, and the queue as `append` does. -/
theorem dispatch_of_main (he : e.worker = none) (h : s.step e = some s') :
  s'.dispatch = (s.maxRequest, s.queueWith (s.request e), s.workers)
  := by
  cases steps_of_step h with
  | take | rearm | refuse | closeConn | modfd | modfdClosed => cases he
  | wait | alarm | pass => rfl
  | accept hbatch h =>
      obtain ⟨-, ⟨-, rfl⟩ | ⟨-, h⟩⟩ := acceptConn_eq_some h
      · rfl
      · obtain ⟨_, _, -, -, rfl⟩ := addTimer_eq_some h
        rfl
  | hup hbatch h => exact (closeByTimer_dispatch h).trans rfl
  | @read rs cur fd rest s' hbatch h =>
      obtain ⟨⟨ok, c⟩, hread, h⟩ := Option.bind_eq_some_iff.mp h
      have hrequest : s.request (.read rs cur) = if ok then some ⟨fd, s.conn fd⟩ else none := by
        rw [request, hbatch]
        dsimp only at hread ⊢
        rw [hread]
        cases ok with
        | true => rfl
        | false => rfl
      rw [hrequest]
      cases ok with
      | true => exact (delayTimer_dispatch h).trans (append_dispatch _ fd)
      | false =>
          change closeByTimer _ fd = some s' at h
          exact (closeByTimer_dispatch h).trans rfl
  | write hbatch h =>
      obtain ⟨⟨ok, s₁⟩, hsend, h⟩ := Option.bind_eq_some_iff.mp h
      have hsame : s₁.dispatch = s.dispatch := by
        obtain ⟨c, -, ⟨-, rfl⟩ | ⟨ev, rfl⟩⟩ := sendConn_eq_some hsend
        · rfl
        · exact arm_dispatch ..
      cases ok with
      | true => exact (delayTimer_dispatch h).trans hsame
      | false => exact (closeByTimer_dispatch h).trans hsame
  | endBatch hbatch h =>
      rw [finishBatch] at h
      split at h
      · obtain ⟨⟨calls, timerLst⟩, -, h⟩ := Option.bind_eq_some_iff.mp h
        cases h
        obtain ⟨opened, epoll, userCount, subtracted, fired, heq⟩ :=
          foldl_cbFunc_eq ({ s with batch := none, timeout := false }) calls
        rw [heq]
        rfl
      · cases h
        rfl

/-- A step of a worker in `process` changes neither the queue nor the other workers, and the
worker keeps its job or is idle. -/
theorem dispatch_of_worker {w : ω} (he : e.worker = some w) (hne : e ≠ .take w)
    (h : s.step e = some s') :
  ∃ job x, (s.workers w).job = some job ∧ (x.job = some job ∨ x = .idle) ∧
    s'.dispatch = (s.maxRequest, s.workqueue, Function.update s.workers w x)
  := by
  have hset {s₁ : Server ω} (hs₁ : s₁.dispatch = s.dispatch) (x : Worker) :
      (s₁.setWorker w x).dispatch = (s.maxRequest, s.workqueue, Function.update s.workers w x) := by
    obtain ⟨hmax, hrest⟩ := Prod.mk.inj hs₁
    obtain ⟨hqueue, hworkers⟩ := Prod.mk.inj hrest
    rw [dispatch, setWorker, ← hmax, ← hqueue, ← hworkers]
  cases steps_of_step h with
  | wait | accept | hup | alarm | read | write | pass | endBatch => cases he
  | take =>
      cases he
      exact absurd rfl hne
  | rearm hw hc | refuse hw hc =>
      cases he
      exact ⟨_, _, by rw [hw]; rfl, .inl rfl, hset rfl _⟩
  | closeConn hw =>
      cases he
      exact ⟨_, _, by rw [hw]; rfl, .inl rfl, hset (closeConn_dispatch ..) _⟩
  | modfd hw | modfdClosed hw =>
      cases he
      exact ⟨_, _, by rw [hw]; rfl, .inr rfl, hset (arm_dispatch ..) _⟩

end Steps

end Server

/-! ### The machine -/

/-- The server, with the thread pool and the pool of the connections with the database. -/
structure Pooled (ω γ : Type) where
  server : Server ω
  pools : Borrowing Unit ω γ Job ℕ

/-- A step of `main` or of a worker in `process`, or in the functions of the pools. -/
inductive PooledEvent (ω : Type) where
  | server (e : ServerEvent ω)
  | pools (e : BorrowingEvent Unit ω Job)

/-- Whether a worker has its `connectionRAII`. -/
def ConnectionRAII.isBuilt {γ : Type} : ConnectionRAII γ → Bool
  | .built _ => true
  | .before | .constructing | .got _ | .stored | .destructing | .destroyed => false

namespace Pooled

variable {ω γ : Type}

/-- The server is started. -/
def start (users : ℕ → HttpConn) (usersTimer : ℕ → ClientData) (threads : ThreadPool Unit ω Job)
    (conns : ConnectionPool ω γ) : Pooled ω γ where
  server := Server.init users usersTimer threads.maxRequest
  pools := Borrowing.start threads conns

/-- Whether `main` is not in `append`, or the worker has its `connectionRAII`.  That a worker
takes a job is a step of the thread pool. -/
def ready (s : Pooled ω γ) : ServerEvent ω → Bool
  | .take _ => false
  | .process w _ | .closeConn w | .modfd w => (s.pools.raii w).isBuilt
  | .wait _ | .accept _ _ _ _ | .hup | .alarm _ | .read _ _ | .write _ _ | .pass | .endBatch _ =>
    s.pools.threads.producers () = .outside

/-- A step of the pools that goes without the server. -/
def Alone : BorrowingEvent Unit ω Job → Prop
  | .queue (.append _ _) | .queue (.pop _) | .init _ | .release _ => False
  | .queue (.post _) | .queue (.wait _) | .queue (.done _) | .check _ | .wait _ | .take _
  | .store _ | .load _ | .post _ => True

section Step

variable [DecidableEq ω] [DecidableEq γ]

/-- `main` calls `append`, if it has a request, or `init()`, if it initialises an object.  No step
does both. -/
def feed (pools : Borrowing Unit ω γ Job ℕ) :
    Option Job → Option Job → Option (Borrowing Unit ω γ Job ℕ)
  | some job, _ => pools.step Job.fd (.queue (.append () (some job)))
  | none, some job => pools.step Job.fd (.init job)
  | none, none => some pools

/-- A step of the server with its pools. -/
def step (s : Pooled ω γ) : PooledEvent ω → Option (Pooled ω γ)
  | .server e =>
    if s.ready e then
      (s.server.step e).bind fun server =>
        (feed s.pools (s.server.request e) (s.server.initialised e)).map fun pools =>
          ⟨server, pools⟩
    else
      none
  | .pools (.queue (.append _ _)) | .pools (.init _) => none
  | .pools (.queue (.pop w)) =>
    (s.pools.step Job.fd (.queue (.pop w))).bind fun pools =>
      match pools.threads.workers w with
      | .processes _ => (s.server.step (.take w)).map fun server => ⟨server, pools⟩
      | .waits | .woken => some ⟨s.server, pools⟩
  | .pools (.release w) =>
    if s.server.workers w = .idle then
      (s.pools.step Job.fd (.release w)).map fun pools => ⟨s.server, pools⟩
    else
      none
  | .pools e => (s.pools.step Job.fd e).map fun pools => ⟨s.server, pools⟩

/-- What a step may do. -/
inductive Steps (s : Pooled ω γ) : PooledEvent ω → Pooled ω γ → Prop where
  | server {e : ServerEvent ω} {server : Server ω} {pools : Borrowing Unit ω γ Job ℕ}
    (hready : s.ready e = true) (h : s.server.step e = some server)
    (hpools : feed s.pools (s.server.request e) (s.server.initialised e) = some pools) :
    Steps s (.server e) ⟨server, pools⟩
  | take {w : ω} {job : Job} {server : Server ω} {pools : Borrowing Unit ω γ Job ℕ}
    (hpools : s.pools.step Job.fd (.queue (.pop w)) = some pools)
    (hw : pools.threads.workers w = .processes job) (h : s.server.step (.take w) = some server) :
    Steps s (.pools (.queue (.pop w))) ⟨server, pools⟩
  | idle {w : ω} {pools : Borrowing Unit ω γ Job ℕ}
    (hpools : s.pools.step Job.fd (.queue (.pop w)) = some pools)
    (hw : ∀ job, pools.threads.workers w ≠ .processes job) :
    Steps s (.pools (.queue (.pop w))) ⟨s.server, pools⟩
  | release {w : ω} {pools : Borrowing Unit ω γ Job ℕ} (hw : s.server.workers w = .idle)
    (hpools : s.pools.step Job.fd (.release w) = some pools) :
    Steps s (.pools (.release w)) ⟨s.server, pools⟩
  | pools {e : BorrowingEvent Unit ω Job} {pools : Borrowing Unit ω γ Job ℕ} (he : Alone e)
    (hpools : s.pools.step Job.fd e = some pools) :
    Steps s (.pools e) ⟨s.server, pools⟩

theorem steps_of_step {s s' : Pooled ω γ} {e : PooledEvent ω} (h : s.step e = some s') :
  s.Steps e s'
  := by
  cases e with
  | server e =>
      rw [step] at h
      split at h
      next hready =>
        obtain ⟨server, hserver, h⟩ := Option.bind_eq_some_iff.mp h
        obtain ⟨pools, hpools, rfl⟩ := Option.map_eq_some_iff.mp h
        exact .server hready hserver hpools
      next => cases h
  | pools e =>
      match e with
      | .queue (.append _ _) | .init _ => cases h
      | .queue (.pop w) =>
          obtain ⟨pools, hpools, h⟩ := Option.bind_eq_some_iff.mp h
          split at h
          next job hw =>
            obtain ⟨server, hserver, rfl⟩ := Option.map_eq_some_iff.mp h
            exact .take hpools hw hserver
          next hw =>
            cases h
            exact .idle hpools (fun job hjob => by cases hw.symm.trans hjob)
          next hw =>
            cases h
            exact .idle hpools (fun job hjob => by cases hw.symm.trans hjob)
      | .release w =>
          rw [step] at h
          split at h
          next hw =>
            obtain ⟨pools, hpools, rfl⟩ := Option.map_eq_some_iff.mp h
            exact .release hw hpools
          next => cases h
      | .queue (.post _) | .queue (.wait _) | .queue (.done _) | .check _ | .wait _ | .take _
      | .store _ | .load _ | .post _ =>
          obtain ⟨pools, hpools, rfl⟩ := Option.map_eq_some_iff.mp h
          exact .pools trivial hpools

/-- What a step may do, it does. -/
theorem Steps.step {s s' : Pooled ω γ} {e : PooledEvent ω} (h : s.Steps e s') :
  s.step e = some s'
  := by
  cases h with
  | server hready h hpools =>
      rw [Pooled.step, if_pos hready, h, Option.bind_some, hpools]
      rfl
  | take hpools hw h =>
      rw [Pooled.step, hpools, Option.bind_some, hw]
      dsimp only
      rw [h]
      rfl
  | idle hpools hw =>
      rw [Pooled.step, hpools, Option.bind_some]
      split
      next job hjob => exact absurd hjob (hw job)
      next => rfl
      next => rfl
  | release hw hpools =>
      rw [Pooled.step, if_pos hw, hpools]
      rfl
  | pools he hpools =>
      rename_i e pools
      match e with
      | .queue (.append _ _) | .queue (.pop _) | .init _ | .release _ => exact absurd he id
      | .queue (.post _) | .queue (.wait _) | .queue (.done _) | .check _ | .wait _ | .take _
      | .store _ | .load _ | .post _ =>
          change (s.pools.step Job.fd _).map _ = _
          rw [hpools]
          rfl

end Step

/-! ### The server and the pools agree -/

/-- Where a worker is in the server, in the thread pool, and with its `connectionRAII`. -/
inductive Agree : Worker → ThreadPool.Worker Job → ConnectionRAII γ → Prop where
  | waits : Agree .idle .waits .before
  | woken : Agree .idle .woken .before
  | borrows {job : Job} {r : ConnectionRAII γ} (hr : r.unbuilt = true) :
    Agree (.took job) (.processes job) r
  | process {x : Worker} {job : Job} {conRAII : Option γ} (hx : x.job = some job) :
    Agree x (.processes job) (.built conRAII)
  | returned {job : Job} {conRAII : Option γ} : Agree .idle (.processes job) (.built conRAII)
  | destructing {job : Job} : Agree .idle (.processes job) .destructing
  | destroyed {job : Job} : Agree .idle (.processes job) .destroyed

/-- A worker without a request. -/
theorem Agree.of_outside {x : Worker} {y : ThreadPool.Worker Job} {r : ConnectionRAII γ}
    (h : Agree x y r) (hy : y = .waits ∨ y = .woken) :
  x = .idle ∧ r = .before
  := by
  cases h with
  | waits | woken => exact ⟨rfl, rfl⟩
  | borrows _ | process _ | returned | destructing | destroyed =>
      rcases hy with hy | hy
      · cases hy
      · cases hy

/-- A worker with a request that has yet to build its `connectionRAII`. -/
theorem Agree.of_unbuilt {x : Worker} {job : Job} {r : ConnectionRAII γ}
    (h : Agree x (.processes job) r) (hr : r.unbuilt = true) :
  x = .took job
  := by
  cases h with
  | borrows _ => rfl
  | process _ | returned | destructing | destroyed => cases hr

/-- A worker with a request that has its `connectionRAII`. -/
theorem Agree.of_built {x : Worker} {job : Job} {conRAII : Option γ}
    (h : Agree x (.processes job) (.built conRAII)) :
  x.job = some job ∨ x = .idle
  := by
  cases h with
  | borrows hr => cases hr
  | process hx => exact .inl hx
  | returned => exact .inr rfl

/-- A worker with a request that gives its connection back. -/
theorem Agree.of_destroyed {x : Worker} {job : Job} {r : ConnectionRAII γ}
    (h : Agree x (.processes job) r) (hr : r = .destructing ∨ r = .destroyed) :
  x = .idle
  := by
  cases h with
  | destructing | destroyed => rfl
  | borrows hunbuilt =>
      rcases hr with rfl | rfl
      · cases hunbuilt
      · cases hunbuilt
  | process _ | returned =>
      rcases hr with hr | hr
      · cases hr
      · cases hr

/-- A worker that constructs its `connectionRAII`, or has it, has a request. -/
theorem Agree.exists_job {x : Worker} {y : ThreadPool.Worker Job} {r : ConnectionRAII γ}
    (h : Agree x y r) (hr : r ≠ .before) :
  ∃ job, y = .processes job
  := by
  cases h with
  | waits | woken => exact absurd rfl hr
  | borrows _ | process _ | returned | destructing | destroyed => exact ⟨_, rfl⟩

/-- No permit of the semaphore of the queue is without its request, the queue of the pool is that
of the server, and each worker is at the same place. -/
structure Coupled [Fintype ω] (s : Pooled ω γ) : Prop where
  conserved : s.pools.threads.Conserved
  room : s.pools.threads.maxRequest = s.server.maxRequest
  queue : s.pools.threads.workqueue = s.server.workqueue.map some
  workers : ∀ w, Agree (s.server.workers w) (s.pools.threads.workers w) (s.pools.raii w)

section Agree

variable [DecidableEq ω] {a : ω → Worker} {b : ω → ThreadPool.Worker Job}
  {c : ω → ConnectionRAII γ} {w : ω}

/-- One worker goes to another place. -/
theorem agree_update (h : ∀ j, Agree (a j) (b j) (c j)) {x : Worker}
    {y : ThreadPool.Worker Job} {r : ConnectionRAII γ} (hw : Agree x y r) (j : ω) :
  Agree (Function.update a w x j) (Function.update b w y j) (Function.update c w r j)
  := by
  by_cases hj : j = w
  · subst hj
    rw [Function.update_self, Function.update_self, Function.update_self]
    exact hw
  · rw [Function.update_of_ne hj, Function.update_of_ne hj, Function.update_of_ne hj]
    exact h j

/-- A worker goes to another place in the server only. -/
theorem agree_update_server (h : ∀ j, Agree (a j) (b j) (c j)) {x : Worker}
    (hw : Agree x (b w) (c w)) (j : ω) :
  Agree (Function.update a w x j) (b j) (c j)
  := by
  have hj := agree_update (w := w) h hw j
  rwa [Function.update_eq_self, Function.update_eq_self] at hj

/-- A worker goes to another place in the thread pool only. -/
theorem agree_update_threads (h : ∀ j, Agree (a j) (b j) (c j)) {y : ThreadPool.Worker Job}
    (hw : Agree (a w) y (c w)) (j : ω) :
  Agree (a j) (Function.update b w y j) (c j)
  := by
  have hj := agree_update (w := w) h hw j
  rwa [Function.update_eq_self, Function.update_eq_self] at hj

/-- A worker goes on with its `connectionRAII` only. -/
theorem agree_update_raii (h : ∀ j, Agree (a j) (b j) (c j)) {r : ConnectionRAII γ}
    (hw : Agree (a w) (b w) r) (j : ω) :
  Agree (a j) (b j) (Function.update c w r j)
  := by
  have hj := agree_update (w := w) h hw j
  rwa [Function.update_eq_self, Function.update_eq_self] at hj

end Agree

section Coupled

variable [Fintype ω] [DecidableEq ω] [DecidableEq γ] {s : Pooled ω γ}

omit [Fintype ω] in
/-- What `main` does to the pools, if it does not append a request. -/
theorem feed_none {pools pools' : Borrowing Unit ω γ Job ℕ} {initialised : Option Job}
    (h : feed pools none initialised = some pools') :
  ∃ mysql, pools' = { pools with mysql := mysql }
  := by
  cases initialised with
  | none =>
      cases h
      exact ⟨pools.mysql, rfl⟩
  | some job =>
      cases h
      exact ⟨_, rfl⟩

/-- A step that only `main` takes: its calls of `append` and `init()`. -/
theorem Coupled.main (h : s.Coupled) {e : ServerEvent ω} (he : e.worker = none)
    {server : Server ω} {pools : Borrowing Unit ω γ Job ℕ} (hserver : s.server.step e = some server)
    (hpools : feed s.pools (s.server.request e) (s.server.initialised e) = some pools) :
  Coupled ⟨server, pools⟩
  := by
  have hdispatch := Server.dispatch_of_main he hserver
  obtain ⟨hmax, hrest⟩ := Prod.mk.inj hdispatch
  obtain ⟨hqueue, hworkers⟩ := Prod.mk.inj hrest
  cases hrequest : s.server.request e with
  | none =>
      rw [hrequest] at hpools hqueue
      obtain ⟨mysql, rfl⟩ := feed_none hpools
      exact ⟨h.conserved, h.room.trans hmax.symm, h.queue.trans (congrArg _ hqueue).symm,
        fun w => (congrFun hworkers w).symm ▸ h.workers w⟩
  | some job =>
      rw [hrequest] at hpools hqueue
      obtain ⟨threads, hthreads, rfl⟩ := Option.map_eq_some_iff.mp hpools
      have hconserved := h.conserved.step hthreads
      have hlength : s.pools.threads.workqueue.length = s.server.workqueue.length := by
        rw [h.queue, List.length_map]
      cases ThreadPool.steps_of_step hthreads with
      | refuse _ hfull =>
          rw [h.room, hlength] at hfull
          rw [Server.queueWith, if_pos hfull] at hqueue
          exact ⟨hconserved, h.room.trans hmax.symm, h.queue.trans (congrArg _ hqueue).symm,
            fun w => (congrFun hworkers w).symm ▸ h.workers w⟩
      | append _ hroom =>
          rw [h.room, hlength] at hroom
          rw [Server.queueWith, if_neg (not_le.mpr hroom)] at hqueue
          refine ⟨hconserved, h.room.trans hmax.symm, ?_,
            fun w => (congrFun hworkers w).symm ▸ h.workers w⟩
          change s.pools.threads.workqueue ++ [some job] = server.workqueue.map some
          rw [h.queue, hqueue, List.map_append]
          rfl

omit [DecidableEq γ] in
/-- A step of a worker in `process`. -/
theorem Coupled.process (h : s.Coupled) {e : ServerEvent ω} {w : ω}
    (he : e.worker = some w) (hne : e ≠ .take w) (hbuilt : (s.pools.raii w).isBuilt = true)
    {server : Server ω} (hserver : s.server.step e = some server) :
  Coupled ⟨server, s.pools⟩
  := by
  obtain ⟨job, x, hjob, hx, hdispatch⟩ := Server.dispatch_of_worker he hne hserver
  obtain ⟨hmax, hrest⟩ := Prod.mk.inj hdispatch
  obtain ⟨hqueue, hworkers⟩ := Prod.mk.inj hrest
  have hagree : Agree x (s.pools.threads.workers w) (s.pools.raii w) := by
    have hw := h.workers w
    generalize s.server.workers w = y, s.pools.threads.workers w = z, s.pools.raii w = r
      at hw hjob hbuilt
    cases hw with
    | waits | woken | destructing | destroyed => cases hbuilt
    | borrows hr =>
        cases r with
        | built _ => cases hr
        | before | constructing | got _ | stored | destructing | destroyed => cases hbuilt
    | returned => cases hjob
    | process hy =>
        obtain rfl := Option.some.inj (hy.symm.trans hjob)
        rcases hx with hx | rfl
        · exact .process hx
        · exact .returned
  refine ⟨h.conserved, h.room.trans hmax.symm, h.queue.trans (congrArg _ hqueue).symm, ?_⟩
  intro j
  change Agree (server.workers j) _ _
  rw [hworkers]
  exact agree_update_server h.workers hagree j

/-- A worker takes a job out of the queue. -/
theorem Coupled.take (h : s.Coupled) {w : ω} {pools : Borrowing Unit ω γ Job ℕ}
    (hpools : s.pools.step Job.fd (.queue (.pop w)) = some pools) :
  ∃ job server, pools.threads.workers w = .processes job ∧
    s.server.step (.take w) = some server ∧ Coupled ⟨server, pools⟩
  := by
  obtain ⟨threads, hthreads, rfl⟩ := Option.map_eq_some_iff.mp hpools
  have hconserved := h.conserved.step hthreads
  cases ThreadPool.steps_of_step hthreads with
  | idle hk hnil => exact absurd hnil (h.conserved.found w hk)
  | @pop _ request rest hk hqueue =>
      obtain ⟨job, queue, hjobs, rfl, hrest⟩ :=
        List.map_eq_cons_iff.mp (h.queue.symm.trans hqueue)
      obtain ⟨hidle, hbefore⟩ := (h.workers w).of_outside (.inr hk)
      refine ⟨job, { s.server with workqueue := queue }.setWorker w (.took job),
        Function.update_self .., ?_, hconserved, h.room, hrest.symm, fun j => ?_⟩
      · rw [Server.step, hidle, hjobs]
      · have hagree : Agree (.took job) (.processes job) (s.pools.raii w) := by
          rw [hbefore]
          exact .borrows rfl
        have hj := agree_update (w := w) h.workers hagree j
        rwa [Function.update_eq_self] at hj

omit [DecidableEq γ] in
/-- A worker goes on in the pool of connections. -/
theorem Coupled.settle (h : s.Coupled) {w : ω} {r : ConnectionRAII γ}
    (hagree : Agree (s.server.workers w) (s.pools.threads.workers w) r)
    (conns : ConnectionPool ω γ) (mysql : ℕ → Option γ) :
  Coupled ⟨s.server, { s.pools with
    conns := conns
    raii := Function.update s.pools.raii w r
    mysql := mysql }⟩
  := ⟨h.conserved, h.room, h.queue, agree_update_raii h.workers hagree⟩

omit [DecidableEq ω] [DecidableEq γ] in
/-- A worker that constructs its `connectionRAII` goes on with it. -/
theorem Coupled.construct (h : s.Coupled) {w : ω} {job : Job}
    (hw : s.pools.threads.workers w = .processes job) {r r' : ConnectionRAII γ}
    (hk : s.pools.raii w = r) (hr : r.unbuilt = true)
    (hr' : r'.unbuilt = true ∨ r'.isBuilt = true) :
  Agree (s.server.workers w) (s.pools.threads.workers w) r'
  := by
  have hagree := h.workers w
  rw [hw, hk] at hagree
  rw [hw, hagree.of_unbuilt hr]
  rcases hr' with hr' | hr'
  · exact .borrows hr'
  · cases r' with
    | built _ => exact .process rfl
    | before | constructing | got _ | stored | destructing | destroyed => cases hr'

omit [DecidableEq γ] in
/-- A step of the thread pool that goes without the server. -/
theorem Coupled.queue_step (h : s.Coupled) {e : ThreadPoolEvent Unit ω Job} (he : Alone (.queue e))
    (hne : ∀ w, e ≠ .done w) {threads : ThreadPool Unit ω Job}
    (hthreads : s.pools.threads.step e = some threads) :
  Coupled ⟨s.server, { s.pools with threads := threads }⟩
  := by
  have hconserved := h.conserved.step hthreads
  cases ThreadPool.steps_of_step hthreads with
  | refuse | append | idle | pop => exact absurd he id
  | done => exact absurd rfl (hne _)
  | post => exact ⟨hconserved, h.room, h.queue, h.workers⟩
  | wait hk hn =>
      obtain ⟨hidle, hbefore⟩ := (h.workers _).of_outside (.inl hk)
      refine ⟨hconserved, h.room, h.queue, fun j => agree_update_threads h.workers ?_ j⟩
      rw [hidle, hbefore]
      exact .woken

omit [DecidableEq γ] in
/-- A worker goes back to its loop. -/
theorem Coupled.done (h : s.Coupled) {w : ω} {threads : ThreadPool Unit ω Job}
    (hk : s.pools.raii w = .destroyed) (hthreads : s.pools.threads.step (.done w) = some threads) :
  Coupled ⟨s.server, { s.pools with
    threads := threads
    raii := Function.update s.pools.raii w .before }⟩
  := by
  have hconserved := h.conserved.step hthreads
  cases ThreadPool.steps_of_step hthreads with
  | done hw =>
      have hagree := h.workers w
      rw [hw, hk] at hagree
      refine ⟨hconserved, h.room, h.queue, fun j => ?_⟩
      have hwaits : Agree (s.server.workers w) .waits (.before : ConnectionRAII γ) := by
        rw [hagree.of_destroyed (.inr rfl)]
        exact .waits
      have hj := agree_update (w := w) h.workers hwaits j
      rwa [Function.update_eq_self] at hj

/-- A step of the pools that goes without the server. -/
theorem Coupled.alone (h : s.Coupled) {e : BorrowingEvent Unit ω Job}
    {pools : Borrowing Unit ω γ Job ℕ} (he : Alone e)
    (hpools : s.pools.step Job.fd e = some pools) :
  Coupled ⟨s.server, pools⟩
  := by
  have hjob {w : ω} {r : ConnectionRAII γ} (hr : s.pools.raii w = r) (hne : r ≠ .before) :
      ∃ job, s.pools.threads.workers w = .processes job :=
    (h.workers w).exists_job (hr ▸ hne)
  cases Borrowing.steps_of_step hpools with
  | queue hne hthreads => exact h.queue_step he hne hthreads
  | done hk hthreads => exact h.done hk hthreads
  | init | release => exact absurd he id
  | @check w job pool hw hk hpool =>
      apply h.settle (h.construct hw hk rfl (.inl _))
      cases ConnectionPool.steps_of_step hpool with
      | refuse _ _ =>
          rw [Borrowing.checked_eq_got (Function.update_self ..)]
          rfl
      | check _ _ =>
          rw [Borrowing.checked_eq_constructing (Function.update_self ..)]
          rfl
  | wait hk _ =>
      obtain ⟨job, hw⟩ := hjob hk (fun hr => by cases hr)
      exact h.settle (h.construct hw hk rfl (.inl rfl)) ..
  | take hk _ =>
      obtain ⟨job, hw⟩ := hjob hk (fun hr => by cases hr)
      exact h.settle (h.construct hw hk rfl (.inl rfl)) ..
  | store hw hk => exact h.settle (h.construct hw hk rfl (.inl rfl)) ..
  | load hw hk => exact h.settle (h.construct hw hk rfl (.inr rfl)) ..
  | @post w pool hk _ =>
      obtain ⟨job, hw⟩ := hjob hk (fun hr => by cases hr)
      have hagree := h.workers w
      rw [hw, hk] at hagree
      apply h.settle
      rw [hw, hagree.of_destroyed (.inl rfl)]
      exact .destroyed

/-- A worker gives its connection back. -/
theorem Coupled.release (h : s.Coupled) {w : ω} {pools : Borrowing Unit ω γ Job ℕ}
    (hw : s.server.workers w = .idle) (hpools : s.pools.step Job.fd (.release w) = some pools) :
  Coupled ⟨s.server, pools⟩
  := by
  cases Borrowing.steps_of_step hpools with
  | @release w conRAII hk =>
      apply h.settle
      obtain ⟨job, hjob⟩ := (hk ▸ h.workers w).exists_job (fun hr => by cases hr)
      rw [hw, hjob]
      split
      · exact .destructing
      · exact .destroyed

/-- In every step the server and the pools go on to agree. -/
theorem Coupled.step {s' : Pooled ω γ} (h : s.Coupled) {e : PooledEvent ω}
    (hs' : s.step e = some s') :
  s'.Coupled
  := by
  cases steps_of_step hs' with
  | @server e server pools hready hserver hpools =>
      match e with
      | .take _ => cases hready
      | .process w _ | .closeConn w | .modfd w =>
          cases hpools
          exact h.process rfl (fun he => by cases he) hready hserver
      | .wait _ | .accept _ _ _ _ | .hup | .alarm _ | .read _ _ | .write _ _ | .pass
      | .endBatch _ =>
          exact h.main rfl hserver hpools
  | take hpools _ hserver =>
      obtain ⟨-, server', -, hserver', hcoupled⟩ := h.take hpools
      obtain rfl := Option.some.inj (hserver.symm.trans hserver')
      exact hcoupled
  | idle hpools hw =>
      obtain ⟨job, -, hjob, -, -⟩ := h.take hpools
      exact absurd hjob (hw job)
  | release hw hpools => exact h.release hw hpools
  | pools he hpools => exact h.alone he hpools

end Coupled

/-! ### No connection is lost -/

/-- `accept` returns no descriptor whose object is in the queue or with a worker. -/
def ObjectFree (s : Pooled ω γ) : PooledEvent ω → Prop
  | .server e => s.server.ObjectFree e
  | .pools _ => True

/-- What is kept along a run in which the objects of new connections are free: nothing writes the
`mysql` that a worker has yet to read back. -/
structure Tidy [Fintype ω] (conns : List γ) (s : Pooled ω γ) : Prop where
  coupled : s.Coupled
  sound : s.pools.Sound Job.fd conns
  guarded : s.server.Guarded

section Tidy

variable [Fintype ω] {conns : List γ} {s s' : Pooled ω γ}

/-- The object whose `mysql` a worker has yet to read back is with that worker. -/
theorem Coupled.handled (h : s.Coupled) {w : ω} {fd : ℕ}
    (hw : s.pools.readsBack Job.fd w = some fd) :
  ∃ job, s.server.workers w = .took job ∧ job.fd = fd
  := by
  obtain ⟨job, hprocesses, hstored, hfd⟩ := Borrowing.readsBack_eq_some.mp hw
  have hagree := h.workers w
  rw [hprocesses, hstored] at hagree
  exact ⟨job, hagree.of_unbuilt rfl, hfd⟩

/-- `main` calls `init()` of an object that no worker has. -/
theorem Tidy.undisturbed_init (h : s.Tidy conns) {job : Job}
    (hfree : ∀ job', s.server.Handled job' → job'.fd ≠ job.fd) :
  s.pools.Undisturbed Job.fd (.init job)
  := by
  intro w hsome hwrites
  obtain ⟨fd, hfd⟩ := Option.isSome_iff_exists.mp hsome
  obtain ⟨job', hw, hjob'⟩ := h.coupled.handled hfd
  rw [hfd] at hwrites
  apply hfree job' (.inr ⟨w, by rw [hw]; rfl⟩)
  exact hjob'.trans (Option.some.inj hwrites)

/-- A worker stores its connection in an object that no other worker has. -/
theorem Tidy.undisturbed_store (h : s.Tidy conns) {w : ω} {job : Job} {con : Option γ}
    (hw : s.pools.threads.workers w = .processes job) (hk : s.pools.raii w = .got con) :
  s.pools.Undisturbed Job.fd (.store w)
  := by
  intro j hsome hwrites
  obtain ⟨fd, hfd⟩ := Option.isSome_iff_exists.mp hsome
  obtain ⟨job', hj, hjob'⟩ := h.coupled.handled hfd
  have hagree := h.coupled.workers w
  rw [hw, hk] at hagree
  have htook := hagree.of_unbuilt rfl
  rw [hfd, Borrowing.writes, hw] at hwrites
  obtain rfl := h.guarded.exclusive.one j w job' job (by rw [hj]; rfl) (by rw [htook]; rfl)
    (hjob'.trans (Option.some.inj hwrites))
  obtain ⟨-, -, hstored, -⟩ := Borrowing.readsBack_eq_some.mp hfd
  cases hk.symm.trans hstored

variable [DecidableEq ω] [DecidableEq γ]

omit [Fintype ω] [DecidableEq ω] [DecidableEq γ] in
/-- The object that `main` initialises is free. -/
theorem free_of_initialised {s : Server ω} (h : s.Guarded) {e : ServerEvent ω}
    (he : s.ObjectFree e) {job : Job} (hjob : s.initialised e = some job) :
  ∀ job', s.Handled job' → job'.fd ≠ job.fd
  := by
  match e with
  | .accept fd _ _ _ =>
      rw [Server.initialised] at hjob
      split at hjob
      next => cases hjob
      next hfew =>
        cases hjob
        exact he (not_le.mp hfew)
  | .write os _ =>
      rw [Server.initialised] at hjob
      split at hjob
      next fd rest hbatch =>
        have hserved := h.client hbatch
        split at hjob
        next =>
          cases hjob
          exact hserved.free
        next =>
          cases hjob
          exact hserved.free
        next => cases hjob
      next => cases hjob
  | .wait _ | .hup | .alarm _ | .read _ _ | .pass | .endBatch _ | .take _ | .process _ _
  | .closeConn _ | .modfd _ => cases hjob

/-- What `main` does to the pools. -/
theorem Tidy.feed (h : s.Tidy conns) {e : ServerEvent ω} (he : s.server.ObjectFree e)
    {pools : Borrowing Unit ω γ Job ℕ}
    (hpools : feed s.pools (s.server.request e) (s.server.initialised e) = some pools) :
  pools.Sound Job.fd conns
  := by
  cases hrequest : s.server.request e with
  | some job =>
      rw [hrequest] at hpools
      change s.pools.step Job.fd (.queue (.append () (some job))) = some pools at hpools
      exact h.sound.step (Borrowing.undisturbed_of_writes rfl) hpools
  | none =>
      rw [hrequest] at hpools
      cases hinit : s.server.initialised e with
      | none =>
          rw [hinit] at hpools
          cases hpools
          exact h.sound
      | some job =>
          rw [hinit] at hpools
          exact h.sound.step (h.undisturbed_init (free_of_initialised h.guarded he hinit)) hpools

/-- A step of the pools. -/
theorem Tidy.pools_step (h : s.Tidy conns) {e : BorrowingEvent Unit ω Job}
    (he : ∀ job, e ≠ .init job) {pools : Borrowing Unit ω γ Job ℕ}
    (hpools : s.pools.step Job.fd e = some pools) :
  pools.Sound Job.fd conns
  := by
  refine h.sound.step ?_ hpools
  cases Borrowing.steps_of_step hpools with
  | init => exact absurd rfl (he _)
  | store hw hk => exact h.undisturbed_store hw hk
  | queue | done | check | wait | take | load | release | post =>
      exact Borrowing.undisturbed_of_writes rfl

/-- A step in which `accept` returns no descriptor whose object is in use. -/
theorem Tidy.step (h : s.Tidy conns) {e : PooledEvent ω} (he : s.ObjectFree e)
    (hs' : s.step e = some s') :
  s'.Tidy conns
  := by
  have hcoupled := h.coupled.step hs'
  cases steps_of_step hs' with
  | server _ hserver hpools => exact ⟨hcoupled, h.feed he hpools, h.guarded.step he hserver⟩
  | @take w _ _ _ hpools _ hserver =>
      exact ⟨hcoupled, h.pools_step (fun _ he => by cases he) hpools,
        h.guarded.step (e := .take w) trivial hserver⟩
  | idle hpools _ | release _ hpools =>
      exact ⟨hcoupled, h.pools_step (fun _ he => by cases he) hpools, h.guarded⟩
  | pools halone hpools =>
      refine ⟨hcoupled, h.pools_step ?_ hpools, h.guarded⟩
      rintro job rfl
      exact halone

end Tidy

end Pooled

/-! ### A worker on its own in the pools -/

namespace Borrowing

variable {ι κ γ α β : Type} {object : α → β} {conns : List γ} {s : Borrowing ι κ γ α β}

/-- The worker waits for a request, or has its `connectionRAII`. -/
def Settled (s : Borrowing ι κ γ α β) (k : κ) : Prop :=
  s.threads.workers k = .waits ∨ (s.raii k).isBuilt = true

theorem isBuilt_iff {r : ConnectionRAII γ} :
  r.isBuilt = true ↔ ∃ conRAII, r = .built conRAII
  := by
  cases r with
  | built conRAII => exact ⟨fun _ => ⟨conRAII, rfl⟩, fun _ => rfl⟩
  | before | constructing | got _ | stored | destructing | destroyed =>
      exact ⟨fun h => absurd h Bool.false_ne_true, fun ⟨_, h⟩ => by cases h⟩

/-- A settled worker reads nothing back. -/
theorem Settled.readsBack {k : κ} (h : s.Settled k) :
  s.readsBack object k = none
  := by
  cases hback : s.readsBack object k with
  | none => rfl
  | some o =>
      obtain ⟨q, hw, hk, -⟩ := readsBack_eq_some.mp hback
      rcases h with h | h
      · cases h.symm.trans hw
      · rw [hk] at h
        cases h

variable [Fintype ι] [Fintype κ]

omit [Fintype ι] in
theorem Settled.outside {k : κ} (h : s.Settled k) (hinv : s.Inv object conns) :
  (s.conns.clients k).place = .outside
  := by
  have hfits := hinv.fits k
  rcases h with h | h
  · rw [hinv.before (fun q hq => by cases h.symm.trans hq)] at hfits
    rw [hfits]
  · obtain ⟨conRAII, hk⟩ := isBuilt_iff.mp h
    rw [hk] at hfits
    rw [hfits]

/-- When all workers are settled and no producer has a request to post, the semaphores have what
the queue and the list have. -/
theorem Sound.semaphores (h : s.Sound object conns)
    (hproducers : ∀ i, s.threads.producers i = .outside) (hsettled : ∀ k, s.Settled k) :
  s.threads.queuesem = s.threads.workqueue.length ∧ s.conns.reserve = s.conns.connList.length
  := by
  have hplace := fun k => (hsettled k).outside h.inv
  have hpending : s.threads.pending = 0 :=
    Finset.sum_eq_zero fun i _ => by rw [hproducers i]; rfl
  have hwoken : s.threads.woken = 0 := by
    refine Finset.sum_eq_zero fun k _ => ?_
    cases hk : s.threads.workers k with
    | waits | processes => rfl
    | woken =>
        rcases hsettled k with hwaits | hbuilt
        · cases hk.symm.trans hwaits
        · rw [h.inv.before (fun q hq => by cases hk.symm.trans hq)] at hbuilt
          cases hbuilt
  have hwaiting : Threads.total ConnectionPool.Client.waiting s.conns.clients = 0 :=
    Finset.sum_eq_zero fun k _ => by rw [ConnectionPool.Client.waiting, hplace k]
  have hposting : Threads.total ConnectionPool.Client.posting s.conns.clients = 0 :=
    Finset.sum_eq_zero fun k _ => by rw [ConnectionPool.Client.posting, hplace k]
  have hlength := h.threads.length
  have hlength' := h.inv.pool.length
  rw [hpending, hwoken, Multiset.card_zero] at hlength
  rw [hwaiting, hposting] at hlength'
  exact ⟨hlength.symm, hlength'.symm⟩

variable [DecidableEq ι] [DecidableEq κ] [DecidableEq γ] [DecidableEq β] {k : κ}

omit [Fintype ι] [Fintype κ] [DecidableEq ι] [DecidableEq γ] [DecidableEq β] in
/-- Nobody has a connection to read back when one worker goes on that has none either. -/
theorem readsBack_update (hnone : ∀ j, s.readsBack object j = none) {t : Borrowing ι κ γ α β}
    (hthreads : t.threads = s.threads) {r : ConnectionRAII γ}
    (hraii : t.raii = Function.update s.raii k r) (hr : r ≠ .stored) (j : κ) :
  t.readsBack object j = none
  := by
  by_contra hsome
  obtain ⟨o, hback⟩ := Option.ne_none_iff_exists'.mp hsome
  have hk : t.raii k ≠ .stored := by
    rw [hraii, Function.update_self]
    exact hr
  have hj := (readsBack_of_ne (s := s) (fun _ _ => by rw [hthreads])
    (fun _ hne => by rw [hraii, Function.update_of_ne hne]) hk hback).2
  cases (hnone j).symm.trans hj

/-- A worker that has a connection, or null, stores it and reads it back, when nobody else has one
to read back. -/
theorem Sound.builds (h : s.Sound object conns) {q : α} {con : Option γ}
    (hworker : s.threads.workers k = .processes q) (hraii : s.raii k = .got con)
    (hnone : ∀ j, s.readsBack object j = none) :
  ∃ t, Run.exec (Borrowing.step object) s [.store k, .load k] = some t ∧ t.Sound object conns ∧
    t.threads = s.threads ∧ t.raii = Function.update s.raii k (.built con)
  := by
  have hundisturbed : s.Undisturbed object (.store k) := by
    intro j hsome
    rw [hnone j] at hsome
    cases hsome
  obtain ⟨s₁, hs₁, hthreads, hmysql, hraii₁⟩ : ∃ s₁, s.step object (.store k) = some s₁ ∧
      s₁.threads = s.threads ∧ s₁.mysql (object q) = con ∧
      s₁.raii = Function.update s.raii k .stored :=
    ⟨_, (Steps.store hworker hraii).step, rfl, Function.update_self .., rfl⟩
  have hload := step_load object (hthreads ▸ hworker) (by rw [hraii₁, Function.update_self])
  refine ⟨_, Run.exec_cons.mpr ⟨s₁, hs₁, Run.exec_cons.mpr ⟨_, hload, rfl⟩⟩,
    (h.step hundisturbed hs₁).step (undisturbed_of_writes rfl) hload, hthreads, ?_⟩
  change Function.update s₁.raii k (.built (s₁.mysql (object q))) = _
  rw [hraii₁, hmysql, Function.update_idem]

/-- A worker with a request constructs its `connectionRAII` when no other one is in the functions
of the pool of connections: it gets a connection, or null when the list is empty. -/
theorem Sound.connects (h : s.Sound object conns) {q : α}
    (hworker : s.threads.workers k = .processes q) (hraii : s.raii k = .before)
    (hnone : ∀ j, s.readsBack object j = none)
    (hreserve : s.conns.reserve = s.conns.connList.length) :
  ∃ es t conRAII, Run.exec (Borrowing.step object) s es = some t ∧
    (∀ e ∈ es, e = .check k ∨ e = .wait k ∨ e = .take k ∨ e = .store k ∨ e = .load k) ∧
    t.Sound object conns ∧ t.threads = s.threads ∧
    t.raii = Function.update s.raii k (.built conRAII)
  := by
  have hclient := h.inv.fits k
  rw [hraii] at hclient
  cases hlist : s.conns.connList with
  | nil =>
      have hcheck := ConnectionPool.Steps.refuse hclient hlist
      obtain ⟨s₁, hs₁, hthreads₁, hraii₁⟩ : ∃ s₁, s.step object (.check k) = some s₁ ∧
          s₁.threads = s.threads ∧ s₁.raii = Function.update s.raii k (.got none) := by
        refine ⟨_, (Steps.check hworker hraii hcheck.step).step, rfl, ?_⟩
        rw [checked_eq_got (Function.update_self ..)]
        rfl
      obtain ⟨t, ht, hsound, hthreads, hraii'⟩ :=
        (h.step (undisturbed_of_writes rfl) hs₁).builds (hthreads₁ ▸ hworker)
          (by rw [hraii₁, Function.update_self])
          (readsBack_update hnone hthreads₁ hraii₁ fun hr => by cases hr)
      refine ⟨[.check k, .store k, .load k], t, none, Run.exec_cons.mpr ⟨s₁, hs₁, ht⟩, by simp,
        hsound, hthreads.trans hthreads₁, ?_⟩
      rw [hraii', hraii₁, Function.update_idem]
  | cons con rest =>
      rw [hlist, List.length_cons] at hreserve
      have hcheck := ConnectionPool.Steps.check hclient (hlist ▸ List.cons_ne_nil con rest)
      obtain ⟨s₁, hs₁, hthreads₁, hraii₁, hclient₁, hreserve₁, hlist₁⟩ : ∃ s₁,
          s.step object (.check k) = some s₁ ∧ s₁.threads = s.threads ∧
          s₁.raii = Function.update s.raii k .constructing ∧
          s₁.conns.clients k = ⟨.checked, []⟩ ∧ s₁.conns.reserve = rest.length + 1 ∧
          s₁.conns.connList = con :: rest := by
        refine ⟨_, (Steps.check hworker hraii hcheck.step).step, rfl, ?_,
          Function.update_self .., hreserve, hlist⟩
        rw [checked_eq_constructing (Function.update_self ..)]
        rfl
      have hwait := ConnectionPool.Steps.wait hclient₁ hreserve₁
      obtain ⟨s₂, hs₂, hthreads₂, hraii₂, hclient₂, hlist₂⟩ : ∃ s₂,
          s₁.step object (.wait k) = some s₂ ∧ s₂.threads = s₁.threads ∧
          s₂.raii = Function.update s₁.raii k .constructing ∧
          s₂.conns.clients k = ⟨.waited, []⟩ ∧ s₂.conns.connList = con :: rest :=
        ⟨_, (Steps.wait (by rw [hraii₁, Function.update_self]) hwait.step).step, rfl, rfl,
          Function.update_self .., hlist₁⟩
      have htake := ConnectionPool.Steps.take hclient₂ hlist₂
      obtain ⟨s₃, hs₃, hthreads₃, hraii₃⟩ : ∃ s₃, s₂.step object (.take k) = some s₃ ∧
          s₃.threads = s₂.threads ∧ s₃.raii = Function.update s₂.raii k (.got (some con)) := by
        refine ⟨_, (Steps.take (by rw [hraii₂, Function.update_self]) htake.step).step, rfl, ?_⟩
        rw [returned_eq (Function.update_self ..)]
        rfl
      have hsound₃ : s₃.Sound object conns :=
        ((h.step (undisturbed_of_writes rfl) hs₁).step (undisturbed_of_writes rfl) hs₂).step
          (undisturbed_of_writes rfl) hs₃
      have hthreads : s₃.threads = s.threads := (hthreads₃.trans hthreads₂).trans hthreads₁
      have hraii₀ : s₃.raii = Function.update s.raii k (.got (some con)) := by
        rw [hraii₃, hraii₂, hraii₁, Function.update_idem, Function.update_idem]
      obtain ⟨t, ht, hsound, hthreads', hraii'⟩ := hsound₃.builds (hthreads ▸ hworker)
        (by rw [hraii₀, Function.update_self])
        (readsBack_update hnone hthreads hraii₀ fun hr => by cases hr)
      refine ⟨[.check k, .wait k, .take k, .store k, .load k], t, some con, Run.exec_cons.mpr
        ⟨s₁, hs₁, Run.exec_cons.mpr ⟨s₂, hs₂, Run.exec_cons.mpr ⟨s₃, hs₃, ht⟩⟩⟩, by simp, hsound,
        hthreads'.trans hthreads, ?_⟩
      rw [hraii', hraii₀, Function.update_idem]

/-- A worker whose `process` returned gives its connection back and goes on with its loop. -/
theorem Sound.returns (h : s.Sound object conns) {q : α} {conRAII : Option γ}
    (hworker : s.threads.workers k = .processes q) (hraii : s.raii k = .built conRAII) :
  ∃ es t, Run.exec (Borrowing.step object) s es = some t ∧
    (∀ e ∈ es, e = .release k ∨ e = .post k ∨ e = .queue (.done k)) ∧ t.Sound object conns ∧
    t.threads = { s.threads with workers := Function.update s.threads.workers k .waits } ∧
    t.raii = Function.update s.raii k .before
  := by
  have hdone {r : Borrowing ι κ γ α β} (hsound : r.Sound object conns)
      (hthreads : r.threads = s.threads)
      (hdestroyed : r.raii = Function.update s.raii k .destroyed) :
      ∃ t, r.step object (.queue (.done k)) = some t ∧ t.Sound object conns ∧
        t.threads = { s.threads with workers := Function.update s.threads.workers k .waits } ∧
        t.raii = Function.update s.raii k .before := by
    have hstep := ThreadPool.Steps.done (hthreads.symm ▸ hworker)
    have hr : r.step object (.queue (.done k)) = some _ :=
      (Steps.done (by rw [hdestroyed, Function.update_self]) hstep.step).step
    refine ⟨_, hr, hsound.step (undisturbed_of_writes rfl) hr, ?_, ?_⟩
    · rw [hthreads]
    · change Function.update r.raii k _ = _
      rw [hdestroyed, Function.update_idem]
  have hrelease : s.step object (.release k) = some _ := (Steps.release hraii).step
  have hsound₁ := h.step (undisturbed_of_writes rfl) hrelease
  cases conRAII with
  | none =>
      obtain ⟨t, ht, hsound, hthreads, hbefore⟩ := hdone hsound₁ rfl rfl
      exact ⟨[.release k, .queue (.done k)], t, Run.exec_cons.mpr
        ⟨_, hrelease, Run.exec_cons.mpr ⟨t, ht, rfl⟩⟩, by simp, hsound, hthreads, hbefore⟩
  | some con =>
      obtain ⟨s₁, hs₁, hsound₁, hthreads₁, hraii₁⟩ : ∃ s₁, s.step object (.release k) = some s₁ ∧
          s₁.Sound object conns ∧ s₁.threads = s.threads ∧
          s₁.raii = Function.update s.raii k .destructing :=
        ⟨_, hrelease, hsound₁, rfl, rfl⟩
      have hclient₁ := hsound₁.inv.fits k
      rw [hraii₁, Function.update_self] at hclient₁
      have hpost := ConnectionPool.Steps.post hclient₁
      obtain ⟨s₂, hs₂, hthreads₂, hraii₂⟩ : ∃ s₂, s₁.step object (.post k) = some s₂ ∧
          s₂.threads = s₁.threads ∧ s₂.raii = Function.update s₁.raii k .destroyed :=
        ⟨_, (Steps.post (by rw [hraii₁, Function.update_self]) hpost.step).step, rfl, rfl⟩
      obtain ⟨t, ht, hsound, hthreads, hbefore⟩ := hdone
        (hsound₁.step (undisturbed_of_writes rfl) hs₂) (hthreads₂.trans hthreads₁)
        (by rw [hraii₂, hraii₁, Function.update_idem])
      exact ⟨[.release k, .post k, .queue (.done k)], t, Run.exec_cons.mpr ⟨s₁, hs₁,
        Run.exec_cons.mpr ⟨s₂, hs₂, Run.exec_cons.mpr ⟨t, ht, rfl⟩⟩⟩, by simp, hsound, hthreads,
        hbefore⟩

end Borrowing

/-! ### The runs -/

namespace Pooled

variable {ω γ : Type}

/-- What is seen of a step: what the server does, and that a worker takes a job. -/
def erase : PooledEvent ω → List (ServerEvent ω)
  | .server e => [e]
  | .pools (.queue (.pop w)) => [.take w]
  | .pools (.queue (.append _ _)) | .pools (.queue (.post _)) | .pools (.queue (.wait _))
  | .pools (.queue (.done _)) | .pools (.init _) | .pools (.check _) | .pools (.wait _)
  | .pools (.take _) | .pools (.store _) | .pools (.load _) | .pools (.release _)
  | .pools (.post _) => []

theorem erase_of_alone {e : BorrowingEvent Unit ω Job} (he : Alone e) :
  erase (.pools e) = []
  := by
  match e with
  | .queue (.append _ _) | .queue (.pop _) | .init _ | .release _ => exact absurd he id
  | .queue (.post _) | .queue (.wait _) | .queue (.done _) | .check _ | .wait _ | .take _
  | .store _ | .load _ | .post _ => rfl

variable [Fintype ω] [DecidableEq ω] [DecidableEq γ] {conns : List γ} {s : Pooled ω γ}

/-- A run of the server with its pools is seen as one of the server. -/
theorem refines :
  Run.Refines (step : Pooled ω γ → _ → _) Server.step Coupled Pooled.server erase
  where
  keep := fun _ _ _ h hs' => h.step hs'
  seen := by
    intro s e s' h hs'
    cases steps_of_step hs' with
    | server _ hserver _ => exact Run.exec_cons.mpr ⟨_, hserver, rfl⟩
    | take _ _ hserver => exact Run.exec_cons.mpr ⟨_, hserver, rfl⟩
    | idle hpools hw =>
        obtain ⟨job, -, hjob, -, -⟩ := h.take hpools
        exact absurd hjob (hw job)
    | release _ _ => rfl
    | pools he _ =>
        rw [erase_of_alone he]
        rfl

/-- `main` is not in `append`, and no worker is in the functions of the pools. -/
structure Calm (conns : List γ) (s : Pooled ω γ) : Prop where
  coupled : s.Coupled
  sound : s.pools.Sound Job.fd conns
  outside : s.pools.threads.producers () = .outside
  settled : ∀ w, s.pools.Settled w
  busy : ∀ w, s.server.workers w = .idle → s.pools.threads.workers w = .waits

omit [Fintype ω] in
/-- Steps of the pools that the server does not take part in. -/
theorem exec_pools (server : Server ω) {pools pools' : Borrowing Unit ω γ Job ℕ}
    {es : List (BorrowingEvent Unit ω Job)}
    (hes : ∀ e ∈ es, Alone e ∨ ∃ w, e = .release w ∧ server.workers w = .idle)
    (h : Run.exec (Borrowing.step Job.fd) pools es = some pools') :
  Run.exec step ⟨server, pools⟩ (es.map .pools) = some ⟨server, pools'⟩ ∧
    (es.map .pools).flatMap erase = []
  := by
  induction es generalizing pools with
  | nil =>
      cases h
      exact ⟨rfl, rfl⟩
  | cons e es ih =>
      obtain ⟨he, hes⟩ := List.forall_mem_cons.mp hes
      obtain ⟨pools₁, hpools₁, h⟩ := Run.exec_cons.mp h
      obtain ⟨hrun, herase⟩ := ih hes h
      have hstep : step ⟨server, pools⟩ (.pools e) = some ⟨server, pools₁⟩ ∧
          erase (.pools e) = [] := by
        rcases he with he | ⟨w, rfl, hw⟩
        · exact ⟨(Steps.pools he hpools₁).step, erase_of_alone he⟩
        · exact ⟨(Steps.release hw hpools₁).step, rfl⟩
      refine ⟨Run.exec_cons.mpr ⟨_, hstep.1, hrun⟩, ?_⟩
      rw [List.map_cons, List.flatMap_cons, hstep.2, herase]
      rfl

/-- From a calm state `main` may call `init()` of any object. -/
theorem Calm.exists_feed (h : s.Calm conns) (initialised : Option Job) :
  ∃ pools, feed s.pools none initialised = some pools ∧ pools.Sound Job.fd conns
  := by
  cases initialised with
  | none => exact ⟨s.pools, rfl, h.sound⟩
  | some job =>
      have hinit : s.pools.step Job.fd (.init job) = some _ := Borrowing.Steps.init.step
      refine ⟨_, hinit, h.sound.step (fun w hsome => ?_) hinit⟩
      rw [(h.settled w).readsBack] at hsome
      cases hsome

/-- From a calm state `main` takes a step, and comes out of `append`. -/
theorem Calm.main (h : s.Calm conns) {e : ServerEvent ω} (he : e.worker = none) {t : Server ω}
    (ht : s.server.step e = some t) :
  ∃ es s', Run.exec step s es = some s' ∧ s'.Calm conns ∧ s'.server = t ∧ es.flatMap erase = [e]
  := by
  have hready : s.ready e = true := by
    cases e with
    | take | process | closeConn | modfd => cases he
    | wait | accept | hup | alarm | read | write | pass | endBatch => exact decide_eq_true h.outside
  have hdispatch := Server.dispatch_of_main he ht
  have hworkers : t.workers = s.server.workers :=
    (Prod.mk.inj (Prod.mk.inj hdispatch).2).2
  have hbusy : ∀ w, t.workers w = .idle → s.pools.threads.workers w = .waits :=
    fun w hw => h.busy w (hworkers ▸ hw)
  cases hrequest : s.server.request e with
  | none =>
      obtain ⟨pools, hpools, hsound⟩ := h.exists_feed (s.server.initialised e)
      obtain ⟨mysql, rfl⟩ := feed_none hpools
      have hstep : s.Steps (.server e) ⟨t, _⟩ := .server hready ht (by rw [hrequest, hpools])
      exact ⟨[.server e], _, Run.exec_cons.mpr ⟨_, hstep.step, rfl⟩,
        ⟨h.coupled.step hstep.step, hsound, h.outside, h.settled, hbusy⟩, rfl, rfl⟩
  | some job =>
      have hfeed {threads : ThreadPool Unit ω Job}
          (hthreads : s.pools.threads.Steps (.append () (some job)) threads) :
          s.Steps (.server e) ⟨t, { s.pools with threads := threads }⟩ ∧
            Borrowing.Sound Job.fd conns { s.pools with threads := threads } := by
        have hpools : s.pools.step Job.fd (.queue (.append () (some job))) = some _ :=
          (Borrowing.Steps.queue (fun k hk => by cases hk) hthreads.step).step
        refine ⟨.server hready ht (by rw [hrequest]; exact hpools), ?_⟩
        exact h.sound.step (Borrowing.undisturbed_of_writes rfl) hpools
      by_cases hfull : s.pools.threads.maxRequest ≤ s.pools.threads.workqueue.length
      · obtain ⟨hstep, hsound⟩ := hfeed (.refuse h.outside hfull)
        exact ⟨[.server e], _, Run.exec_cons.mpr ⟨_, hstep.step, rfl⟩,
          ⟨h.coupled.step hstep.step, hsound, h.outside, h.settled, hbusy⟩, rfl, rfl⟩
      · obtain ⟨hstep, hsound⟩ := hfeed (.append h.outside (not_le.mp hfull))
        have hpushed : Function.update s.pools.threads.producers () (.pushed (some job)) ()
            = .pushed (some job) := Function.update_self ..
        obtain ⟨pools, hpools, hsound, hproducer, hsettled, hbusy⟩ :
            ∃ pools : Borrowing Unit ω γ Job ℕ, step s (.server e) = some ⟨t, pools⟩ ∧
            pools.Sound Job.fd conns ∧ pools.threads.producers () = .pushed (some job) ∧
            (∀ w, pools.Settled w) ∧
            ∀ w, t.workers w = .idle → pools.threads.workers w = .waits :=
          ⟨_, hstep.step, hsound, hpushed, h.settled, hbusy⟩
        have hpost := (ThreadPool.Steps.post hproducer).step
        have houtside : Function.update pools.threads.producers () .outside () = .outside :=
          Function.update_self ..
        have hposted : pools.step Job.fd (.queue (.post ())) = some _ :=
          (Borrowing.Steps.queue (fun k hk => by cases hk) hpost).step
        have hstep' : (⟨t, pools⟩ : Pooled ω γ).Steps (.pools (.queue (.post ()))) _ :=
          .pools trivial hposted
        exact ⟨[.server e, .pools (.queue (.post ()))], _,
          Run.exec_cons.mpr ⟨_, hpools, Run.exec_cons.mpr ⟨_, hstep'.step, rfl⟩⟩,
          ⟨(h.coupled.step hpools).step hstep'.step,
            hsound.step (Borrowing.undisturbed_of_writes rfl) hposted, houtside, hsettled, hbusy⟩,
          rfl, rfl⟩

/-- From a calm state a worker takes a job and constructs its `connectionRAII`. -/
theorem Calm.take (h : s.Calm conns) {w : ω} {t : Server ω}
    (ht : s.server.step (.take w) = some t) :
  ∃ es s', Run.exec step s es = some s' ∧ s'.Calm conns ∧ s'.server = t ∧
    es.flatMap erase = [.take w]
  := by
  obtain ⟨hsem, hreserve⟩ := h.sound.semaphores (fun _ => h.outside) h.settled
  cases Server.steps_of_step ht with
  | @take _ job queue hw hqueue =>
      have hwaits := h.busy w hw
      have hbefore := ((h.coupled.workers w).of_outside (.inl hwaits)).2
      rw [h.coupled.queue, hqueue, List.map_cons, List.length_cons] at hsem
      -- the worker comes back from its wait
      have hwait := ThreadPool.Steps.wait hwaits hsem
      have hwoken : Function.update s.pools.threads.workers w .woken w = .woken :=
        Function.update_self ..
      have hqueue₁ : s.pools.threads.workqueue = some job :: queue.map some := by
        rw [h.coupled.queue, hqueue, List.map_cons]
      obtain ⟨pools₁, hpools₁, hwoken₁, hqueue₁, hworkers₁, hproducers₁, hconns₁, hraii₁⟩ :
          ∃ pools₁, s.pools.step Job.fd (.queue (.wait w)) = some pools₁ ∧
            pools₁.threads.workers w = .woken ∧
            pools₁.threads.workqueue = some job :: queue.map some ∧
            pools₁.threads.workers = Function.update s.pools.threads.workers w .woken ∧
            pools₁.threads.producers = s.pools.threads.producers ∧
            pools₁.conns = s.pools.conns ∧ pools₁.raii = s.pools.raii :=
        ⟨_, (Borrowing.Steps.queue (fun k hk => by cases hk) hwait.step).step, hwoken, hqueue₁,
          rfl, rfl, rfl, rfl⟩
      -- and it takes the job
      have hpop := ThreadPool.Steps.pop hwoken₁ hqueue₁
      have hprocesses : Function.update pools₁.threads.workers w (.processes job) w
          = .processes job := Function.update_self ..
      obtain ⟨pools₂, hpools₂, hprocesses₂, hworkers₂, hproducers₂, hconns₂, hraii₂⟩ :
          ∃ pools₂, pools₁.step Job.fd (.queue (.pop w)) = some pools₂ ∧
            pools₂.threads.workers w = .processes job ∧
            pools₂.threads.workers = Function.update pools₁.threads.workers w (.processes job) ∧
            pools₂.threads.producers = pools₁.threads.producers ∧
            pools₂.conns = pools₁.conns ∧ pools₂.raii = pools₁.raii :=
        ⟨_, (Borrowing.Steps.queue (fun k hk => by cases hk) hpop.step).step, hprocesses,
          rfl, rfl, rfl, rfl⟩
      -- and constructs its `connectionRAII`
      have hraii := hraii₂.trans hraii₁
      have hconns := hconns₂.trans hconns₁
      have hsound₂ : pools₂.Sound Job.fd conns :=
        (h.sound.step (Borrowing.undisturbed_of_writes rfl) hpools₁).step
          (Borrowing.undisturbed_of_writes rfl) hpools₂
      have hnone (j : ω) : pools₂.readsBack Job.fd j = none := by
        by_contra hsome
        obtain ⟨fd, hback⟩ := Option.ne_none_iff_exists'.mp hsome
        obtain ⟨q, hj, hstored, -⟩ := Borrowing.readsBack_eq_some.mp hback
        rw [hraii] at hstored
        rcases h.settled j with hj' | hj'
        · rw [((h.coupled.workers j).of_outside (.inl hj')).2] at hstored
          cases hstored
        · rw [hstored] at hj'
          cases hj'
      obtain ⟨es, pools₃, conRAII, hrun, hes, hsound₃, hthreads₃, hraii₃⟩ := hsound₂.connects
        hprocesses₂ (by rw [hraii, hbefore]) hnone (by rw [hconns, hreserve])
      obtain ⟨hrun, herase⟩ := exec_pools ({ s.server with
        workqueue := queue }.setWorker w (.took job)) (fun e he => .inl (by
          rcases hes e he with rfl | rfl | rfl | rfl | rfl
          · trivial
          · trivial
          · trivial
          · trivial
          · trivial)) hrun
      have hwoke := (Steps.pools (e := .queue (.wait w)) trivial hpools₁).step
      have htook := (Steps.take (s := ⟨s.server, pools₁⟩) hpools₂ hprocesses₂ ht).step
      have hwhole := Run.exec_cons.mpr ⟨_, hwoke, Run.exec_cons.mpr ⟨_, htook, hrun⟩⟩
      refine ⟨_, _, hwhole, ⟨Run.exec_preserves (fun _ _ _ h hs' => h.step hs') h.coupled hwhole,
        hsound₃, ?_, ?_, ?_⟩, rfl, ?_⟩
      · change pools₃.threads.producers () = .outside
        rw [hthreads₃, hproducers₂, hproducers₁, h.outside]
      · intro j
        change pools₃.threads.workers j = .waits ∨ (pools₃.raii j).isBuilt = true
        rw [hthreads₃, hworkers₂, hworkers₁, hraii₃, hraii]
        by_cases hj : j = w
        · subst hj
          rw [Function.update_self, Function.update_self]
          exact .inr rfl
        · rw [Function.update_of_ne hj, Function.update_of_ne hj, Function.update_of_ne hj]
          exact h.settled j
      · intro j hidle
        change Function.update s.server.workers w (.took job) j = .idle at hidle
        change pools₃.threads.workers j = .waits
        by_cases hj : j = w
        · subst hj
          rw [Function.update_self] at hidle
          cases hidle
        · rw [Function.update_of_ne hj] at hidle
          rw [hthreads₃, hworkers₂, hworkers₁, Function.update_of_ne hj, Function.update_of_ne hj]
          exact h.busy j hidle
      · rw [List.flatMap_cons, List.flatMap_cons, herase]
        rfl

/-- From a calm state a worker takes a step of `process`, and when that is its last one, gives
its connection back. -/
theorem Calm.process (h : s.Calm conns) {e : ServerEvent ω} {w : ω} (he : e.worker = some w)
    (hne : e ≠ .take w) {t : Server ω} (ht : s.server.step e = some t) :
  ∃ es s', Run.exec step s es = some s' ∧ s'.Calm conns ∧ s'.server = t ∧ es.flatMap erase = [e]
  := by
  obtain ⟨job, x, hjob, hx, hdispatch⟩ := Server.dispatch_of_worker he hne ht
  have hworkers : t.workers = Function.update s.server.workers w x :=
    (Prod.mk.inj (Prod.mk.inj hdispatch).2).2
  have hbuilt : (s.pools.raii w).isBuilt = true := by
    refine (h.settled w).resolve_left fun hwaits => ?_
    rw [((h.coupled.workers w).of_outside (.inl hwaits)).1] at hjob
    cases hjob
  have hready : s.ready e = true ∧ s.server.request e = none := by
    match e with
    | .take _ =>
        cases he
        exact absurd rfl hne
    | .process _ _ | .closeConn _ | .modfd _ =>
        cases he
        exact ⟨hbuilt, rfl⟩
  have hinit : s.server.initialised e = none := by
    cases e with
    | process | closeConn | modfd => rfl
    | take => rfl
    | wait | accept | hup | alarm | read | write | pass | endBatch => cases he
  have hstep := (Steps.server hready.1 ht (by rw [hready.2, hinit]; rfl)).step
  have hother {j : ω} (hj : j ≠ w) (hidle : t.workers j = .idle) :
      s.pools.threads.workers j = .waits := by
    rw [hworkers, Function.update_of_ne hj] at hidle
    exact h.busy j hidle
  rcases hx with hx | rfl
  · have hbusy : ∀ j, t.workers j = .idle → s.pools.threads.workers j = .waits := by
      intro j hidle
      by_cases hj : j = w
      · subst hj
        rw [hworkers, Function.update_self] at hidle
        rw [hidle] at hx
        cases hx
      · exact hother hj hidle
    exact ⟨[.server e], _, Run.exec_cons.mpr ⟨_, hstep, rfl⟩,
      ⟨h.coupled.step hstep, h.sound, h.outside, h.settled, hbusy⟩, rfl, rfl⟩
  · obtain ⟨job', hprocesses⟩ := (h.coupled.workers w).exists_job (fun hr => by
      rw [hr] at hbuilt
      cases hbuilt)
    obtain ⟨conRAII, hraii⟩ := Borrowing.isBuilt_iff.mp hbuilt
    obtain ⟨es, pools, hrun, hes, hsound, hthreads, hraii'⟩ := h.sound.returns hprocesses hraii
    have hidle : t.workers w = .idle := by
      rw [hworkers, Function.update_self]
    obtain ⟨hrun, herase⟩ := exec_pools t (fun e he => by
      rcases hes e he with rfl | rfl | rfl
      · exact .inr ⟨w, rfl, hidle⟩
      · exact .inl trivial
      · exact .inl trivial) hrun
    have hwhole := Run.exec_cons.mpr ⟨_, hstep, hrun⟩
    refine ⟨_, _, hwhole, ⟨Run.exec_preserves (fun _ _ _ h hs' => h.step hs') h.coupled hwhole,
      hsound, ?_, ?_, ?_⟩, rfl, ?_⟩
    · change pools.threads.producers () = .outside
      rw [hthreads]
      exact h.outside
    · intro j
      change pools.threads.workers j = .waits ∨ (pools.raii j).isBuilt = true
      rw [hthreads, hraii']
      by_cases hj : j = w
      · subst hj
        exact .inl (Function.update_self ..)
      · rw [Function.update_of_ne hj]
        change Function.update s.pools.threads.workers w .waits j = .waits ∨ _
        rw [Function.update_of_ne hj]
        exact h.settled j
    · intro j hidle
      change pools.threads.workers j = .waits
      rw [hthreads]
      change Function.update s.pools.threads.workers w .waits j = .waits
      by_cases hj : j = w
      · subst hj
        exact Function.update_self ..
      · rw [Function.update_of_ne hj]
        exact hother hj hidle
    · rw [List.flatMap_cons, herase]
      rfl

/-- From every calm state the server with its pools can do what the server can do. -/
theorem realizes :
  Run.Realizes (step : Pooled ω γ → _ → _) Server.step (Calm conns) Pooled.server erase
  := by
  intro s e t h ht
  match e with
  | .take w => exact h.take ht
  | .process w _ | .closeConn w | .modfd w => exact h.process rfl (fun he => by cases he) ht
  | .wait _ | .accept _ _ _ _ | .hup | .alarm _ | .read _ _ | .write _ _ | .pass | .endBatch _ =>
      exact h.main rfl ht

omit [DecidableEq ω] [DecidableEq γ] in
/-- In the beginning nobody is in `append` or in the functions of the pools. -/
theorem start_calm {connect : ℕ → Option γ} {maxconn maxRequest : ℤ}
    {pool : ConnectionPool ω γ} {threads : ThreadPool Unit ω Job}
    (hthreads : ThreadPool.construct maxRequest = some threads)
    (hconns : ConnectionPool.init connect maxconn = some pool) (users : ℕ → HttpConn)
    (usersTimer : ℕ → ClientData) :
  (start users usersTimer threads pool).Calm pool.connList
  := by
  obtain ⟨-, hworkers, hproducers, hqueue⟩ := Borrowing.construct_waits hthreads
  refine ⟨⟨ThreadPool.construct_conserved hthreads, rfl, hqueue, fun w => ?_⟩,
    Borrowing.start_sound Job.fd hthreads hconns, ?_, fun w => .inl ?_, fun w _ => ?_⟩
  · change Agree .idle (threads.workers w) .before
    rw [hworkers]
    exact .waits
  · exact congrFun hproducers ()
  · exact congrFun hworkers w
  · exact congrFun hworkers w

omit [DecidableEq ω] [DecidableEq γ] in
/-- In the beginning no object is in use. -/
theorem start_tidy {connect : ℕ → Option γ} {maxconn maxRequest : ℤ}
    {pool : ConnectionPool ω γ} {threads : ThreadPool Unit ω Job}
    (hthreads : ThreadPool.construct maxRequest = some threads)
    (hconns : ConnectionPool.init connect maxconn = some pool) (users : ℕ → HttpConn)
    (usersTimer : ℕ → ClientData) :
  (start users usersTimer threads pool).Tidy pool.connList
  := by
  have hcalm := start_calm hthreads hconns users usersTimer
  exact ⟨hcalm.coupled, hcalm.sound, Server.init_guarded users usersTimer threads.maxRequest⟩

/-- In every state that is reached the server and its pools agree.  When `accept` returned no
descriptor whose object was in the queue or with a worker, each connection with the database is in
the list or with the one worker that got it. -/
theorem pools_coupled {connect : ℕ → Option γ} {maxconn maxRequest : ℤ}
    {pool : ConnectionPool ω γ} {threads : ThreadPool Unit ω Job}
    (hthreads : ThreadPool.construct maxRequest = some threads)
    (hconns : ConnectionPool.init connect maxconn = some pool) {users : ℕ → HttpConn}
    {usersTimer : ℕ → ClientData} {fs : List (PooledEvent ω)}
    (h : Run.exec step (start users usersTimer threads pool) fs = some s) :
  s.Coupled ∧ (Run.Along step ObjectFree (start users usersTimer threads pool) fs →
    s.pools.Inv Job.fd pool.connList)
  := by
  constructor
  · exact Run.exec_preserves (fun _ _ _ h hs' => h.step hs')
      (start_calm hthreads hconns users usersTimer).coupled h
  · intro hfree
    have htidy := Run.exec_invariant (fun _ _ _ h he hs' => Tidy.step h he hs')
      (start_tidy hthreads hconns users usersTimer) hfree h
    exact htidy.sound.inv

/-- The runs of the server are what the runs of the server with its pools are seen as. -/
theorem pools_trace_iff {connect : ℕ → Option γ} {maxconn maxRequest : ℤ}
    {pool : ConnectionPool ω γ} {threads : ThreadPool Unit ω Job}
    (hthreads : ThreadPool.construct maxRequest = some threads)
    (hconns : ConnectionPool.init connect maxconn = some pool) (users : ℕ → HttpConn)
    (usersTimer : ℕ → ClientData) (es : List (ServerEvent ω)) (t : Server ω) :
  Run.exec Server.step (Server.init users usersTimer threads.maxRequest) es = some t ↔
    ∃ fs s, Run.exec step (start users usersTimer threads pool) fs = some s ∧
      s.server = t ∧ fs.flatMap erase = es
  := by
  have hcalm := start_calm hthreads hconns users usersTimer
  exact Run.exec_iff refines realizes hcalm.coupled hcalm

theorem pools_trace_iff_oneWorker :
  ∃ (threads : ThreadPool Unit Unit Job) (pool : ConnectionPool Unit ℕ),
    ∀ (es : List (ServerEvent Unit)) (t : Server Unit),
      Run.exec Server.step (Server.init (fun _ => Sending.forFile 0) (fun _ => ⟨0, none⟩)
          threads.maxRequest) es = some t ↔
        ∃ fs s, Run.exec step (start (fun _ => Sending.forFile 0) (fun _ => ⟨0, none⟩)
            threads pool) fs = some s ∧ s.server = t ∧ fs.flatMap erase = es
  := by
  obtain ⟨threads, hthreads⟩ : ∃ threads : ThreadPool Unit Unit Job,
    ThreadPool.construct 2 = some threads := ⟨_, rfl⟩
  obtain ⟨pool, hpool⟩ : ∃ pool : ConnectionPool Unit ℕ,
    ConnectionPool.init (fun _ => some 5) 1 = some pool := ⟨_, rfl⟩
  exact ⟨threads, pool, pools_trace_iff hthreads hpool _ _⟩

/-- A worker has taken the request of a client, and constructs its `connectionRAII`. -/
def borrows : List (PooledEvent Unit) :=
  [.server (.wait [.listen]), .server (.accept 5 100 0 .clean), .server (.endBatch 0),
    .server (.wait [.client 5 .readable]), .server (.read [.bytes (ascii "GET"), .again] 1),
    .pools (.queue (.post ())), .pools (.queue (.wait ())), .pools (.queue (.pop ())),
    .pools (.check ()), .pools (.wait ()), .pools (.take ()), .pools (.store ())]

/-- There is room in the queue, the registrations go well, and no connection gets an object in
use. -/
def Spare (s : Pooled ω γ) : PooledEvent ω → Prop
  | .server e => s.server.Spare e ∧ s.server.ObjectFree e
  | .pools _ => True

instance (s : Pooled ω γ) : ∀ e, Decidable (s.Spare e)
  | .server e => inferInstanceAs (Decidable (_ ∧ s.server.ObjectFree e))
  | .pools _ => .isTrue trivial

set_option maxRecDepth 10000 in
theorem exec_borrows :
  ∃ (threads : ThreadPool Unit Unit Job) (pool : ConnectionPool Unit ℕ) (s : Pooled Unit ℕ),
    ThreadPool.construct 2 = some threads ∧ ConnectionPool.init (fun _ => some 5) 1 = some pool ∧
    Run.exec step (start (fun _ => Sending.forFile 0) (fun _ => ⟨0, none⟩) threads pool) borrows
      = some s ∧
    Run.Along step Spare (start (fun _ => Sending.forFile 0) (fun _ => ⟨0, none⟩) threads pool)
      borrows ∧
    s.server.workers () = .took ⟨5, 0⟩ ∧ s.pools.raii () = .stored
  := by
  obtain ⟨threads, hthreads⟩ : ∃ threads : ThreadPool Unit Unit Job,
    ThreadPool.construct 2 = some threads := ⟨_, rfl⟩
  obtain ⟨pool, hpool⟩ : ∃ pool : ConnectionPool Unit ℕ,
    ConnectionPool.init (fun _ => some 5) 1 = some pool := ⟨_, rfl⟩
  have hrun : ((ThreadPool.construct 2).bind fun threads =>
      (ConnectionPool.init (fun _ => some 5) 1).bind fun pool =>
        (Run.exec step (start (fun _ => Sending.forFile 0) (fun _ => ⟨0, none⟩) threads pool)
          borrows).map fun s => decide (
            Run.Along step Spare
              (start (fun _ => Sending.forFile 0) (fun _ => ⟨0, none⟩) threads pool) borrows ∧
            s.server.workers () = .took ⟨5, 0⟩ ∧ s.pools.raii () = .stored)) = some true := by
    decide +kernel
  rw [hthreads, Option.bind_some, hpool, Option.bind_some] at hrun
  obtain ⟨s, hs, hfacts⟩ := Option.map_eq_some_iff.mp hrun
  exact ⟨threads, pool, s, hthreads, hpool, hs, of_decide_eq_true hfacts⟩

theorem pools_coupled_borrows :
  ∃ (pool : ConnectionPool Unit ℕ) (s : Pooled Unit ℕ), s.server.workers () = .took ⟨5, 0⟩ ∧
    s.pools.raii () = .stored ∧ s.Coupled ∧ s.pools.Inv Job.fd pool.connList
  := by
  obtain ⟨threads, pool, s, hthreads, hpool, hs, hspare, hworker, hraii⟩ := exec_borrows
  obtain ⟨hcoupled, hinv⟩ := pools_coupled hthreads hpool hs
  refine ⟨pool, s, hworker, hraii, hcoupled, hinv (hspare.imp ?_)⟩
  intro t e ht
  cases e with
  | server e => exact ht.2
  | pools e => trivial

end Pooled

end WebServer
