import WebServer.Pool.ThreadPool

/-!
# The end of the thread pool

The workers are detached, and `~threadpool` sets `m_shotdown` and waits for none of them.  A
worker looks at `m_shotdown` only before it waits for the semaphore, so it may be anywhere in
its loop when the destructor returns.

The steps of `work` are told apart here by the member of the pool that they read or write:
the flag, the semaphore, the lock, the queue under the lock, and `m_connPool`.  A worker that
has seen the flag unset has yet to call `sem_wait`; the call takes the semaphore, or finds it
zero and blocks, and only a worker that is blocked reads nothing until the next post.  The
destructor is run by another thread, and its steps come anywhere between those of the workers
and of the producers.  What a step finds in a pool that is no more is not known; the members
are left as they were, and `late` records the worker.  For the queue and the semaphore these
are the steps of `ThreadPool` (`exec_pool`).
-/

namespace WebServer

universe u v w

/-- Where a worker is in the loop of `work`: at the test of `m_shotdown`, before its call of
`sem_wait`, blocked in that call, behind it, in the section under the lock, with a request
before it gets a connection, in `process`, or behind the loop. -/
inductive Teardown.Place where
  | tests
  | calls
  | waits
  | woken
  | locked
  | took
  | processes
  | left
  deriving DecidableEq

/-- How far the destructor is. -/
inductive Teardown.Destructor where
  | notCalled
  | deletedThreads
  | shutDown
  | returned
  deriving DecidableEq

/-- The thread pool with its end.  `m_queuelocker` is the worker that holds the lock between
two steps, and `late` are the workers that used a member after the destructor has returned. -/
structure Teardown (ι : Type v) (κ : Type w) (α : Type u) where
  pool : ThreadPool ι κ α
  place : κ → Teardown.Place
  queuelocker : Option κ
  shotdown : Bool
  destructor : Teardown.Destructor
  late : List κ

/-- A step of a producer, of a worker, or of the destructor. -/
inductive TeardownEvent (ι : Type v) (κ : Type w) (α : Type u) where
  /-- The locked section of `append`. -/
  | append (producer : ι) (request : Option α)
  /-- The producer posts the semaphore and returns. -/
  | post (producer : ι)
  /-- The worker tests `m_shotdown`. -/
  | test (worker : κ)
  /-- The worker calls `sem_wait`, finds the semaphore zero, and blocks. -/
  | block (worker : κ)
  /-- The worker takes the semaphore, at its call or from where it is blocked. -/
  | wait (worker : κ)
  /-- The worker locks `m_queuelocker`. -/
  | lock (worker : κ)
  /-- The worker looks at `m_workqueue`, takes a request if there is one, and unlocks. -/
  | pop (worker : κ)
  /-- The worker reads `m_connPool`. -/
  | connect (worker : κ)
  /-- `process` returns. -/
  | done (worker : κ)
  /-- The destructor deletes `m_threads`. -/
  | deleteThreads
  /-- The destructor sets `m_shotdown`. -/
  | setShotdown
  /-- The members are destroyed, and the destructor returns. -/
  | finish

namespace Teardown

variable {ι : Type v} {κ : Type w} {α : Type u}

/-- The constructor `threadpool`. -/
def construct [Fintype κ] (maxRequest : ℤ) : Option (Teardown ι κ α) :=
  (ThreadPool.construct maxRequest).map fun pool => {
    pool := pool
    place := fun _ => .tests
    queuelocker := none
    shotdown := false
    destructor := .notCalled
    late := [] }

/-- The worker uses a member of the pool. -/
def touch (s : Teardown ι κ α) (k : κ) : Teardown ι κ α :=
  if s.destructor = .returned then { s with late := k :: s.late } else s

/-- No worker has used a member after the destructor has returned. -/
def NoneLate (s : Teardown ι κ α) : Prop := s.late = []

/-- Every worker has left its loop or is blocked at the semaphore, which nobody posts any
more. -/
structure Settled (s : Teardown ι κ α) : Prop where
  place : ∀ k, s.place k = .left ∨ s.place k = .waits
  quiet : (∃ k, s.place k = .waits) →
    s.pool.queuesem = 0 ∧ ∀ i, s.pool.producers i = .outside

/-- The destructor returns when the workers are settled, and no request is pushed after that
unless they have all left. -/
def Awaited (s : Teardown ι κ α) : TeardownEvent ι κ α → Prop
  | .finish => s.Settled
  | .append _ _ => s.destructor = .returned →
    s.pool.workqueue.length < s.pool.maxRequest → ∀ k, s.place k = .left
  | _ => True

section Decidable

variable [Fintype ι] [Fintype κ] [DecidableEq α]

instance (s : Teardown ι κ α) : Decidable s.Settled :=
  decidable_of_iff
    ((∀ k, s.place k = .left ∨ s.place k = .waits) ∧
      ((∃ k, s.place k = .waits) → s.pool.queuesem = 0 ∧ ∀ i, s.pool.producers i = .outside))
    ⟨fun h => ⟨h.1, h.2⟩, fun h => ⟨h.place, h.quiet⟩⟩

instance : ∀ (s : Teardown ι κ α) (e : TeardownEvent ι κ α), Decidable (s.Awaited e)
  | s, .finish => inferInstanceAs (Decidable s.Settled)
  | _, .append _ _ => inferInstanceAs (Decidable (_ → _ → _))
  | _, .post _ | _, .test _ | _, .block _ | _, .wait _ | _, .lock _ | _, .pop _
  | _, .connect _ | _, .done _ | _, .deleteThreads | _, .setShotdown => .isTrue trivial

end Decidable

/-- A step that ends what a worker or a producer has begun. -/
def GoesOn : TeardownEvent ι κ α → Prop
  | .append _ _ | .deleteThreads | .setShotdown | .finish => False
  | _ => True

variable [DecidableEq ι] [DecidableEq κ]

/-- The worker goes on to another place. -/
def goTo (s : Teardown ι κ α) (k : κ) (place : Place) : Teardown ι κ α :=
  { s with place := Function.update s.place k place }

/-- Where a worker goes on from the section under the lock. -/
def afterPop : ThreadPool.Worker α → Place
  | .processes _ => .took
  | _ => .tests

/-- A step of a producer, of a worker, or of the destructor. -/
def step (s : Teardown ι κ α) : TeardownEvent ι κ α → Option (Teardown ι κ α)
  | .append i request =>
    match s.queuelocker with
    | none => (s.pool.step (.append i request)).map fun pool => { s with pool := pool }
    | some _ => none
  | .post i => (s.pool.step (.post i)).map fun pool => { s with pool := pool }
  | .test k =>
    match s.place k with
    | .tests => some ((s.touch k).goTo k (if s.shotdown then .left else .calls))
    | _ => none
  | .block k =>
    match s.place k, s.pool.queuesem with
    | .calls, 0 => some ((s.touch k).goTo k .waits)
    | _, _ => none
  | .wait k =>
    match s.place k with
    | .calls | .waits =>
      (s.pool.step (.wait k)).map fun pool => { s.touch k with pool := pool }.goTo k .woken
    | _ => none
  | .lock k =>
    match s.place k, s.queuelocker with
    | .woken, none => some ({ s.touch k with queuelocker := some k }.goTo k .locked)
    | _, _ => none
  | .pop k =>
    match s.place k with
    | .locked =>
      (s.pool.step (.pop k)).map fun pool =>
        { s.touch k with pool := pool, queuelocker := none }.goTo k (afterPop (pool.workers k))
    | _ => none
  | .connect k =>
    match s.place k with
    | .took => some ((s.touch k).goTo k .processes)
    | _ => none
  | .done k =>
    match s.place k with
    | .processes =>
      (s.pool.step (.done k)).map fun pool => { s with pool := pool }.goTo k .tests
    | _ => none
  | .deleteThreads =>
    match s.destructor with
    | .notCalled => some { s with destructor := .deletedThreads }
    | _ => none
  | .setShotdown =>
    match s.destructor with
    | .deletedThreads => some { s with shotdown := true, destructor := .shutDown }
    | _ => none
  | .finish =>
    match s.destructor with
    | .shutDown => some { s with destructor := .returned }
    | _ => none

/-- What a step may do. -/
inductive Steps (s : Teardown ι κ α) : TeardownEvent ι κ α → Teardown ι κ α → Prop where
  | append {i : ι} {request : Option α} {pool : ThreadPool ι κ α}
    (hfree : s.queuelocker = none) (hpool : s.pool.step (.append i request) = some pool) :
    Steps s (.append i request) { s with pool := pool }
  | post {i : ι} {pool : ThreadPool ι κ α} (hpool : s.pool.step (.post i) = some pool) :
    Steps s (.post i) { s with pool := pool }
  | test {k : κ} (hk : s.place k = .tests) :
    Steps s (.test k) ((s.touch k).goTo k (if s.shotdown then .left else .calls))
  | block {k : κ} (hk : s.place k = .calls) (hzero : s.pool.queuesem = 0) :
    Steps s (.block k) ((s.touch k).goTo k .waits)
  | wait {k : κ} {pool : ThreadPool ι κ α} (hk : s.place k = .calls ∨ s.place k = .waits)
    (hpool : s.pool.step (.wait k) = some pool) :
    Steps s (.wait k) ({ s.touch k with pool := pool }.goTo k .woken)
  | lock {k : κ} (hk : s.place k = .woken) (hfree : s.queuelocker = none) :
    Steps s (.lock k) ({ s.touch k with queuelocker := some k }.goTo k .locked)
  | pop {k : κ} {pool : ThreadPool ι κ α} (hk : s.place k = .locked)
    (hpool : s.pool.step (.pop k) = some pool) :
    Steps s (.pop k)
      ({ s.touch k with pool := pool, queuelocker := none }.goTo k (afterPop (pool.workers k)))
  | connect {k : κ} (hk : s.place k = .took) :
    Steps s (.connect k) ((s.touch k).goTo k .processes)
  | done {k : κ} {pool : ThreadPool ι κ α} (hk : s.place k = .processes)
    (hpool : s.pool.step (.done k) = some pool) :
    Steps s (.done k) ({ s with pool := pool }.goTo k .tests)
  | deleteThreads (h : s.destructor = .notCalled) :
    Steps s .deleteThreads { s with destructor := .deletedThreads }
  | setShotdown (h : s.destructor = .deletedThreads) :
    Steps s .setShotdown { s with shotdown := true, destructor := .shutDown }
  | finish (h : s.destructor = .shutDown) :
    Steps s .finish { s with destructor := .returned }

theorem steps_of_step {s s' : Teardown ι κ α} {e : TeardownEvent ι κ α}
    (h : s.step e = some s') :
  s.Steps e s'
  := by
  cases e with
  | append i request =>
      rw [step] at h
      split at h
      next hfree =>
        obtain ⟨pool, hpool, rfl⟩ := Option.map_eq_some_iff.mp h
        exact .append hfree hpool
      next => cases h
  | post i =>
      obtain ⟨pool, hpool, rfl⟩ := Option.map_eq_some_iff.mp h
      exact .post hpool
  | test k =>
      rw [step] at h
      split at h
      next hk =>
        obtain rfl := Option.some.inj h
        exact .test hk
      next => cases h
  | block k =>
      rw [step] at h
      split at h
      next hk hzero =>
        obtain rfl := Option.some.inj h
        exact .block hk hzero
      next => cases h
  | wait k =>
      rw [step] at h
      split at h
      next hk =>
        obtain ⟨pool, hpool, rfl⟩ := Option.map_eq_some_iff.mp h
        exact .wait (Or.inl hk) hpool
      next hk =>
        obtain ⟨pool, hpool, rfl⟩ := Option.map_eq_some_iff.mp h
        exact .wait (Or.inr hk) hpool
      next => cases h
  | lock k =>
      rw [step] at h
      split at h
      next hk hfree =>
        obtain rfl := Option.some.inj h
        exact .lock hk hfree
      next => cases h
  | pop k =>
      rw [step] at h
      split at h
      next hk =>
        obtain ⟨pool, hpool, rfl⟩ := Option.map_eq_some_iff.mp h
        exact .pop hk hpool
      next => cases h
  | connect k =>
      rw [step] at h
      split at h
      next hk =>
        obtain rfl := Option.some.inj h
        exact .connect hk
      next => cases h
  | done k =>
      rw [step] at h
      split at h
      next hk =>
        obtain ⟨pool, hpool, rfl⟩ := Option.map_eq_some_iff.mp h
        exact .done hk hpool
      next => cases h
  | deleteThreads =>
      rw [step] at h
      split at h
      next hcall =>
        obtain rfl := Option.some.inj h
        exact .deleteThreads hcall
      next => cases h
  | setShotdown =>
      rw [step] at h
      split at h
      next hcall =>
        obtain rfl := Option.some.inj h
        exact .setShotdown hcall
      next => cases h
  | finish =>
      rw [step] at h
      split at h
      next hcall =>
        obtain rfl := Option.some.inj h
        exact .finish hcall
      next => cases h

/-- What a step may do, it does. -/
theorem Steps.step {s s' : Teardown ι κ α} {e : TeardownEvent ι κ α} (h : s.Steps e s') :
  s.step e = some s'
  := by
  cases h with
  | append hfree hpool =>
      rw [Teardown.step, hfree, hpool]
      rfl
  | post hpool =>
      rw [Teardown.step, hpool]
      rfl
  | test hk => rw [Teardown.step, hk]
  | block hk hzero =>
      rw [Teardown.step, hk, hzero]
      rfl
  | wait hk hpool =>
      rcases hk with hk | hk
      · rw [Teardown.step, hk, hpool]
        rfl
      · rw [Teardown.step, hk, hpool]
        rfl
  | lock hk hfree => rw [Teardown.step, hk, hfree]
  | pop hk hpool =>
      rw [Teardown.step, hk, hpool]
      rfl
  | connect hk => rw [Teardown.step, hk]
  | done hk hpool =>
      rw [Teardown.step, hk, hpool]
      rfl
  | deleteThreads hcall => rw [Teardown.step, hcall]
  | setShotdown hcall => rw [Teardown.step, hcall]
  | finish hcall => rw [Teardown.step, hcall]

/-! ### The pool without its end -/

/-- A step is a step of the thread pool or leaves its queue and semaphore. -/
theorem Steps.pool {s s' : Teardown ι κ α} {e : TeardownEvent ι κ α} (h : s.Steps e s') :
  s'.pool = s.pool ∨ ∃ e', s.pool.step e' = some s'.pool
  := by
  have htouch (k : κ) : (s.touch k).pool = s.pool := by
    rw [touch]
    split
    · rfl
    · rfl
  cases h with
  | append _ hpool => exact Or.inr ⟨_, hpool⟩
  | post hpool => exact Or.inr ⟨_, hpool⟩
  | wait _ hpool => exact Or.inr ⟨_, hpool⟩
  | pop _ hpool => exact Or.inr ⟨_, hpool⟩
  | done _ hpool => exact Or.inr ⟨_, hpool⟩
  | test | block | lock | connect => exact Or.inl (htouch _)
  | deleteThreads | setShotdown | finish => exact Or.inl rfl

/-- Whatever the destructor does, the queue and the semaphore make a run of the thread
pool. -/
theorem exec_pool {s t : Teardown ι κ α} {es : List (TeardownEvent ι κ α)}
    (h : Run.exec step s es = some t) :
  ∃ es', Run.exec ThreadPool.step s.pool es' = some t.pool
  := by
  induction es generalizing s with
  | nil =>
      cases h
      exact ⟨[], rfl⟩
  | cons e es ih =>
      obtain ⟨s', hs', h⟩ := Run.exec_cons.mp h
      obtain ⟨es', hes'⟩ := ih h
      rcases (steps_of_step hs').pool with hsame | ⟨e', he'⟩
      · rw [hsame] at hes'
        exact ⟨es', hes'⟩
      · exact ⟨e' :: es', Run.exec_cons.mpr ⟨s'.pool, he', hes'⟩⟩

/-- The work is conserved until the end, and so a worker that has waited finds a request. -/
theorem pool_conserved [Fintype ι] [Fintype κ] {maxRequest : ℤ} {pool s : Teardown ι κ α}
    {es : List (TeardownEvent ι κ α)} (hpool : construct maxRequest = some pool)
    (h : Run.exec step pool es = some s) :
  s.pool.Conserved
  := by
  obtain ⟨p, hp, rfl⟩ := Option.map_eq_some_iff.mp hpool
  obtain ⟨es', hes'⟩ := exec_pool h
  apply Run.exec_preserves _ (ThreadPool.construct_conserved hp) hes'
  intro s e s' hs hs'
  apply hs.step hs'

/-! ### Runs in which the workers are awaited -/

/-- No member was used late, and the workers are settled when the destructor has returned. -/
structure Safe (s : Teardown ι κ α) : Prop where
  noneLate : s.NoneLate
  settled : s.destructor = .returned → s.Settled

omit [DecidableEq ι] [DecidableEq κ] in
theorem construct_safe [Fintype κ] {maxRequest : ℤ} {s : Teardown ι κ α}
    (h : construct maxRequest = some s) :
  s.Safe
  := by
  obtain ⟨p, -, rfl⟩ := Option.map_eq_some_iff.mp h
  exact ⟨rfl, nofun⟩

omit [DecidableEq ι] [DecidableEq κ] in
theorem touch_of_ne {s : Teardown ι κ α} (h : s.destructor ≠ .returned) (k : κ) :
  s.touch k = s
  := if_neg h

omit [DecidableEq ι] [DecidableEq κ] in
theorem late_touch {s : Teardown ι κ α} (h : s.destructor = .returned) (k : κ) :
  (s.touch k).late = k :: s.late
  := by
  rw [touch, if_pos h]

omit [DecidableEq ι] [DecidableEq κ] in
/-- A worker elsewhere than behind its loop or blocked at the semaphore is not settled. -/
theorem Safe.running {s : Teardown ι κ α} (h : s.Safe) {k : κ} {p : Place} (hk : s.place k = p)
    (hleft : p ≠ .left) (hwaits : p ≠ .waits) :
  s.destructor ≠ .returned
  := by
  intro hreturned
  rcases (h.settled hreturned).place k with hk' | hk'
  · apply hleft (hk.symm.trans hk')
  · apply hwaits (hk.symm.trans hk')

/-- A step that is awaited keeps the pool safe. -/
theorem Safe.step {s s' : Teardown ι κ α} (h : s.Safe) {e : TeardownEvent ι κ α}
    (hawaited : s.Awaited e) (hs' : s.Steps e s') :
  s'.Safe
  := by
  cases hs' with
  | append hfree hpool =>
      refine ⟨h.noneLate, fun hreturned => ⟨(h.settled hreturned).place, ?_⟩⟩
      rintro ⟨k, hk⟩
      cases ThreadPool.steps_of_step hpool with
      | refuse _ _ => exact (h.settled hreturned).quiet ⟨k, hk⟩
      | append _ hroom => cases (hawaited hreturned hroom k).symm.trans hk
  | post hpool =>
      refine ⟨h.noneLate, fun hreturned => ⟨(h.settled hreturned).place, ?_⟩⟩
      rintro ⟨k, hk⟩
      obtain ⟨-, houtside⟩ := (h.settled hreturned).quiet ⟨k, hk⟩
      cases ThreadPool.steps_of_step hpool with
      | post hi => cases (houtside _).symm.trans hi
  | wait hk hpool =>
      have hrunning : s.destructor ≠ .returned := by
        intro hreturned
        rcases hk with hk | hk
        · exact h.running hk nofun nofun hreturned
        · obtain ⟨hzero, -⟩ := (h.settled hreturned).quiet ⟨_, hk⟩
          cases ThreadPool.steps_of_step hpool with
          | wait _ hn => cases hn.symm.trans hzero
      rw [touch_of_ne hrunning]
      exact ⟨h.noneLate, fun hreturned => absurd hreturned hrunning⟩
  | test hk | block hk _ | lock hk _ | pop hk _ | connect hk =>
      have hrunning := h.running hk nofun nofun
      rw [touch_of_ne hrunning]
      exact ⟨h.noneLate, fun hreturned => absurd hreturned hrunning⟩
  | done hk _ =>
      have hrunning := h.running hk nofun nofun
      exact ⟨h.noneLate, fun hreturned => absurd hreturned hrunning⟩
  | deleteThreads => exact ⟨h.noneLate, nofun⟩
  | setShotdown => exact ⟨h.noneLate, nofun⟩
  | finish => exact ⟨h.noneLate, fun _ => ⟨hawaited.place, hawaited.quiet⟩⟩

/-! ### Workers that are not awaited -/

/-- A place of the loop, up to steps that leave the queue and the semaphore. -/
def Place.coarse : Place → Place
  | .tests | .calls | .waits | .left => .waits
  | .woken | .locked => .woken
  | .took | .processes => .processes

/-- The place of a worker of the thread pool. -/
def placeOf : ThreadPool.Worker α → Place
  | .waits => .waits
  | .woken => .woken
  | .processes _ => .processes

/-- The places of the workers fit, and a worker that holds the lock is in its section. -/
structure Fits (s : Teardown ι κ α) : Prop where
  place : ∀ k, (s.place k).coarse = placeOf (s.pool.workers k)
  lock : ∀ k, s.queuelocker = some k → s.place k = .locked

omit [DecidableEq ι] [DecidableEq κ] in
theorem construct_fits [Fintype κ] {maxRequest : ℤ} {s : Teardown ι κ α}
    (h : construct maxRequest = some s) :
  s.Fits
  := by
  obtain ⟨p, hp, rfl⟩ := Option.map_eq_some_iff.mp h
  rw [ThreadPool.construct] at hp
  split at hp
  next => cases hp
  next =>
    obtain rfl := Option.some.inj hp
    exact ⟨fun _ => rfl, fun k hk => absurd hk (Option.some_ne_none k).symm⟩

omit [DecidableEq ι] in
/-- A worker goes on, in the loop and in the thread pool. -/
theorem coarse_update {place : κ → Place} {workers : κ → ThreadPool.Worker α}
    (h : ∀ k, (place k).coarse = placeOf (workers k)) (k : κ) {p : Place}
    {worker : ThreadPool.Worker α} (hk : p.coarse = placeOf worker) (j : κ) :
  (Function.update place k p j).coarse = placeOf (Function.update workers k worker j)
  := by
  by_cases hj : j = k
  · rw [hj, Function.update_self, Function.update_self]
    exact hk
  · rw [Function.update_of_ne hj, Function.update_of_ne hj]
    apply h j

omit [DecidableEq ι] in
/-- A worker goes on in the loop only. -/
theorem coarse_update_place {place : κ → Place} {workers : κ → ThreadPool.Worker α}
    (h : ∀ k, (place k).coarse = placeOf (workers k)) {k : κ} {p : Place}
    (hk : p.coarse = (place k).coarse) (j : κ) :
  (Function.update place k p j).coarse = placeOf (workers j)
  := by
  have hj := coarse_update h k (hk.trans (h k)) j
  rwa [Function.update_eq_self] at hj

/-- A worker that goes on from outside the section does not hold the lock. -/
theorem lock_update {place : κ → Place} {lock : Option κ}
    (h : ∀ k, lock = some k → place k = .locked) {k : κ} (hk : place k ≠ .locked) (p : Place)
    (j : κ) (hj : lock = some j) :
  Function.update place k p j = .locked
  := by
  rw [Function.update_of_ne]
  · apply h j hj
  · rintro rfl
    apply hk (h j hj)

omit [DecidableEq ι] [DecidableEq κ] in
/-- The use of a member changes the record of the late uses only. -/
theorem Fits.touch {s : Teardown ι κ α} (h : s.Fits) (k : κ) :
  ∃ late, s.touch k = { s with late := late } ∧ Fits { s with late := late }
  := by
  rw [Teardown.touch]
  split
  · exact ⟨_, rfl, h.place, h.lock⟩
  · exact ⟨s.late, rfl, h⟩

omit [DecidableEq ι] [DecidableEq κ] in
/-- No worker goes on. -/
theorem Fits.setPool {s : Teardown ι κ α} (h : s.Fits) {pool : ThreadPool ι κ α}
    (hworkers : pool.workers = s.pool.workers) :
  Fits { s with pool := pool }
  := by
  refine ⟨?_, h.lock⟩
  dsimp only
  rw [hworkers]
  apply h.place

omit [DecidableEq ι] in
/-- A worker outside the section goes on in the loop only. -/
theorem Fits.goTo {s : Teardown ι κ α} (h : s.Fits) {k : κ} (hk : s.place k ≠ .locked)
    {p : Place} (hp : p.coarse = (s.place k).coarse) :
  (s.goTo k p).Fits
  := ⟨coarse_update_place h.place hp, lock_update h.lock hk p⟩

omit [DecidableEq ι] in
/-- A worker outside the section goes on in the loop and in the thread pool. -/
theorem Fits.goToWith {s : Teardown ι κ α} (h : s.Fits) {k : κ} (hk : s.place k ≠ .locked)
    {pool : ThreadPool ι κ α} {worker : ThreadPool.Worker α}
    (hworkers : pool.workers = Function.update s.pool.workers k worker) {p : Place}
    (hp : p.coarse = placeOf worker) :
  ({ s with pool := pool }.goTo k p).Fits
  := by
  refine ⟨?_, lock_update h.lock hk p⟩
  dsimp only [Teardown.goTo]
  rw [hworkers]
  apply coarse_update h.place k hp

/-- The places fit after any step. -/
theorem Fits.step {s s' : Teardown ι κ α} (h : s.Fits) {e : TeardownEvent ι κ α}
    (hs' : s.Steps e s') :
  s'.Fits
  := by
  have hne {k : κ} {p : Place} (hk : s.place k = p) (hp : p ≠ .locked) : s.place k ≠ .locked := by
    rw [hk]
    exact hp
  cases hs' with
  | append _ hpool =>
      cases ThreadPool.steps_of_step hpool with
      | refuse _ _ => exact h.setPool rfl
      | append _ _ => exact h.setPool rfl
  | post hpool =>
      cases ThreadPool.steps_of_step hpool with
      | post _ => exact h.setPool rfl
  | @test k hk =>
      have hp : (if s.shotdown then Place.left else .calls).coarse = (s.place k).coarse := by
        rw [hk]
        split
        · rfl
        · rfl
      obtain ⟨late, hlate, h⟩ := h.touch k
      rw [hlate]
      apply h.goTo (hne hk nofun) hp
  | @block k hk _ =>
      have hp : Place.waits.coarse = (s.place k).coarse := by
        rw [hk]
        rfl
      obtain ⟨late, hlate, h⟩ := h.touch k
      rw [hlate]
      apply h.goTo (hne hk nofun) hp
  | @wait k _ hk hpool =>
      have hk : s.place k ≠ .locked := hk.elim (fun hk => hne hk nofun) fun hk => hne hk nofun
      obtain ⟨late, hlate, h⟩ := h.touch k
      rw [hlate]
      cases ThreadPool.steps_of_step hpool with
      | wait _ _ => exact h.goToWith hk rfl rfl
  | @lock k hk _ =>
      have hp : Place.locked.coarse = (s.place k).coarse := by
        rw [hk]
        rfl
      obtain ⟨late, hlate, h⟩ := h.touch k
      rw [hlate]
      refine ⟨coarse_update_place h.place hp, ?_⟩
      intro j hj
      obtain rfl := Option.some.inj hj
      apply Function.update_self
  | @pop k _ _ hpool =>
      obtain ⟨late, hlate, h⟩ := h.touch k
      rw [hlate]
      refine ⟨?_, nofun⟩
      cases ThreadPool.steps_of_step hpool with
      | idle _ _ =>
          dsimp only [Teardown.goTo]
          rw [Function.update_self]
          apply coarse_update h.place k rfl
      | @pop _ request _ _ _ =>
          dsimp only [Teardown.goTo]
          rw [Function.update_self]
          apply coarse_update h.place k
          cases request with
          | none => rfl
          | some r => rfl
  | @connect k hk =>
      have hp : Place.processes.coarse = (s.place k).coarse := by
        rw [hk]
        rfl
      obtain ⟨late, hlate, h⟩ := h.touch k
      rw [hlate]
      apply h.goTo (hne hk nofun) hp
  | done hk hpool =>
      cases ThreadPool.steps_of_step hpool with
      | done _ => exact h.goToWith (hne hk nofun) rfl rfl
  | deleteThreads => exact ⟨h.place, h.lock⟩
  | setShotdown => exact ⟨h.place, h.lock⟩
  | finish => exact ⟨h.place, h.lock⟩

/-- A worker uses a member late after some steps that end what has begun. -/
def EndsLate (s : Teardown ι κ α) : Prop :=
  ∃ es t, (∀ e ∈ es, GoesOn e) ∧ Run.exec step s es = some t ∧ ¬ t.NoneLate

/-- A step after which a worker has used a member late. -/
theorem endsLate_of_late {s s' : Teardown ι κ α} {e : TeardownEvent ι κ α} (h : s.Steps e s')
    (hgoes : GoesOn e) {k : κ} (hreturned : s.destructor = .returned)
    (hlate : s'.late = (s.touch k).late) :
  s.EndsLate
  := by
  refine ⟨[e], s', ?_, Run.exec_cons.mpr ⟨s', h.step, rfl⟩, ?_⟩
  · intro e' he'
    obtain rfl := List.mem_singleton.mp he'
    exact hgoes
  · rw [NoneLate, hlate, late_touch hreturned]
    apply List.cons_ne_nil

/-- A step before others. -/
theorem endsLate_of_steps {s s' : Teardown ι κ α} {e : TeardownEvent ι κ α}
    (h : s.Steps e s') (hgoes : GoesOn e) (hlate : s'.EndsLate) :
  s.EndsLate
  := by
  obtain ⟨es, t, hes, ht, hlate⟩ := hlate
  exact ⟨e :: es, t, List.forall_mem_cons.mpr ⟨hgoes, hes⟩,
    Run.exec_cons.mpr ⟨s', h.step, ht⟩, hlate⟩

/-- A worker in the section comes to its end. -/
theorem Fits.pop {s : Teardown ι κ α} (h : s.Fits) {k : κ} (hk : s.place k = .locked) :
  ∃ pool, s.pool.step (.pop k) = some pool
  := by
  have hplace := h.place k
  rw [hk] at hplace
  cases hworker : s.pool.workers k with
  | woken =>
      cases hqueue : s.pool.workqueue with
      | nil => exact ⟨_, (ThreadPool.Steps.idle hworker hqueue).step⟩
      | cons request rest => exact ⟨_, (ThreadPool.Steps.pop hworker hqueue).step⟩
  | waits | processes =>
      rw [hworker] at hplace
      cases hplace

/-- `process` returns. -/
theorem Fits.done {s : Teardown ι κ α} (h : s.Fits) {k : κ} (hk : s.place k = .processes) :
  ∃ pool, s.pool.step (.done k) = some pool
  := by
  have hplace := h.place k
  rw [hk] at hplace
  cases hworker : s.pool.workers k with
  | processes request => exact ⟨_, (ThreadPool.Steps.done hworker).step⟩
  | waits | woken =>
      rw [hworker] at hplace
      cases hplace

/-- A wait ends when the semaphore is not zero. -/
theorem Fits.wait {s : Teardown ι κ α} (h : s.Fits) {k : κ} (hk : (s.place k).coarse = .waits)
    (hsem : s.pool.queuesem ≠ 0) :
  ∃ pool, s.pool.step (.wait k) = some pool
  := by
  obtain ⟨n, hn⟩ := Nat.exists_eq_succ_of_ne_zero hsem
  have hplace := h.place k
  rw [hk] at hplace
  cases hworker : s.pool.workers k with
  | waits => exact ⟨_, (ThreadPool.Steps.wait hworker hn).step⟩
  | woken | processes =>
      rw [hworker] at hplace
      cases hplace

/-- A request that was pushed is posted. -/
theorem exists_post {p : ThreadPool ι κ α} {i : ι} (hi : p.producers i ≠ .outside) :
  ∃ p', p.step (.post i) = some p'
  := by
  cases hp : p.producers i with
  | outside => exact absurd hp hi
  | pushed request => exact ⟨_, (ThreadPool.Steps.post hp).step⟩

/-- A worker that calls `sem_wait` uses the semaphore, which it takes or finds zero. -/
theorem Fits.endsLate_of_calls {s : Teardown ι κ α} (h : s.Fits)
    (hreturned : s.destructor = .returned) {k : κ} (hk : s.place k = .calls) :
  s.EndsLate
  := by
  by_cases hsem : s.pool.queuesem = 0
  · exact endsLate_of_late (.block hk hsem) trivial hreturned rfl
  · have hcoarse : (s.place k).coarse = .waits := by
      rw [hk]
      rfl
    obtain ⟨pool, hpool⟩ := h.wait hcoarse hsem
    apply endsLate_of_late (.wait (Or.inl hk) hpool) trivial hreturned rfl

/-- A worker in its loop uses a member again, unless it is blocked at the semaphore. -/
theorem Fits.endsLate_of_place {s : Teardown ι κ α} (h : s.Fits)
    (hreturned : s.destructor = .returned) {k : κ} (hleft : s.place k ≠ .left)
    (hwaits : s.place k ≠ .waits) :
  s.EndsLate
  := by
  have hlocked {j : κ} (hj : s.place j = .locked) : s.EndsLate := by
    obtain ⟨pool, hpool⟩ := h.pop hj
    apply endsLate_of_late (.pop hj hpool) trivial hreturned rfl
  cases hk : s.place k with
  | tests => exact endsLate_of_late (.test hk) trivial hreturned rfl
  | calls => exact h.endsLate_of_calls hreturned hk
  | waits => exact absurd hk hwaits
  | woken =>
      -- the lock is free, or the worker that holds it uses the queue
      cases hlock : s.queuelocker with
      | none => exact endsLate_of_late (.lock hk hlock) trivial hreturned rfl
      | some j => exact hlocked (h.lock j hlock)
  | locked => exact hlocked hk
  | took => exact endsLate_of_late (.connect hk) trivial hreturned rfl
  | processes =>
      obtain ⟨pool, hpool⟩ := h.done hk
      apply endsLate_of_steps (.done hk hpool) trivial
      have htests : ({ s with pool := pool }.goTo k .tests).place k = .tests :=
        Function.update_self ..
      apply endsLate_of_late (.test htests) trivial hreturned rfl
  | left => exact absurd hk hleft

/-- A worker that is blocked uses the semaphore again when it is posted or will be. -/
theorem Fits.endsLate_of_waits {s : Teardown ι κ α} (h : s.Fits)
    (hreturned : s.destructor = .returned) {k : κ} (hk : s.place k = .waits)
    (hsem : s.pool.queuesem ≠ 0) :
  s.EndsLate
  := by
  have hcoarse : (s.place k).coarse = .waits := by
    rw [hk]
    rfl
  obtain ⟨pool, hpool⟩ := h.wait hcoarse hsem
  apply endsLate_of_late (.wait (Or.inr hk) hpool) trivial hreturned rfl

/-- Workers that are not settled when the destructor has returned use a member again. -/
theorem Fits.endsLate {s : Teardown ι κ α} (h : s.Fits) (hreturned : s.destructor = .returned)
    (hunsettled : ¬ s.Settled) :
  s.EndsLate
  := by
  by_cases hplace : ∀ k, s.place k = .left ∨ s.place k = .waits
  · have hquiet : ¬ ((∃ k, s.place k = .waits) →
        s.pool.queuesem = 0 ∧ ∀ i, s.pool.producers i = .outside) :=
      fun hquiet => hunsettled ⟨hplace, hquiet⟩
    push Not at hquiet
    obtain ⟨⟨k, hk⟩, hposted⟩ := hquiet
    by_cases hsem : s.pool.queuesem = 0
    · obtain ⟨i, hi⟩ := hposted hsem
      obtain ⟨pool, hpool⟩ := exists_post hi
      apply endsLate_of_steps (.post hpool) trivial
      apply (h.step (.post hpool)).endsLate_of_waits hreturned hk
      cases ThreadPool.steps_of_step hpool with
      | post _ => exact Nat.succ_ne_zero _
    · apply h.endsLate_of_waits hreturned hk hsem
  · push Not at hplace
    obtain ⟨k, hleft, hwaits⟩ := hplace
    apply h.endsLate_of_place hreturned hleft hwaits

/-- After a step that is not awaited the destructor has returned and the workers are not
settled. -/
theorem Safe.unsettled {s s' : Teardown ι κ α} (h : s.Safe) {e : TeardownEvent ι κ α}
    (hawaited : ¬ s.Awaited e) (hs' : s.Steps e s') :
  s'.destructor = .returned ∧ ¬ s'.Settled
  := by
  cases hs' with
  | @append i _ _ _ hpool =>
      rw [Awaited] at hawaited
      push Not at hawaited
      obtain ⟨hreturned, hroom, k, hleft⟩ := hawaited
      refine ⟨hreturned, ?_⟩
      intro hsettled
      have hk := ((h.settled hreturned).place k).resolve_left hleft
      cases ThreadPool.steps_of_step hpool with
      | refuse _ hfull => exact absurd hroom (not_lt.mpr hfull)
      | append _ _ =>
          have houtside := (hsettled.quiet ⟨k, hk⟩).2 i
          dsimp only at houtside
          rw [Function.update_self] at houtside
          cases houtside
  | finish => exact ⟨rfl, fun hsettled => hawaited ⟨hsettled.place, hsettled.quiet⟩⟩
  | _ => exact absurd trivial hawaited

/-- No worker uses a member after the destructor has returned in a run in which the workers
are awaited.  After the first step of which that does not hold, one of the steps that are
still to come does. -/
theorem noneLate_throughout [Fintype κ] {maxRequest : ℤ} {pool : Teardown ι κ α}
    (hpool : construct maxRequest = some pool) (es : List (TeardownEvent ι κ α)) :
  (Run.Along step Awaited pool es → Run.Throughout step NoneLate pool es) ∧
    ∀ s e s', Run.Along step Awaited pool es → Run.exec step pool es = some s →
      step s e = some s' → ¬ s.Awaited e → s'.EndsLate
  := by
  have keep (s : Teardown ι κ α) (e : TeardownEvent ι κ α) (s' : Teardown ι κ α)
      (hs : s.Safe ∧ s.Fits) (hawaited : s.Awaited e) (hs' : step s e = some s') :
      s'.Safe ∧ s'.Fits :=
    ⟨hs.1.step hawaited (steps_of_step hs'), hs.2.step (steps_of_step hs')⟩
  have hstart : pool.Safe ∧ pool.Fits := ⟨construct_safe hpool, construct_fits hpool⟩
  constructor
  · intro hawaited
    apply Run.throughout_of_along keep _ hstart hawaited
    intro s hs
    apply hs.1.noneLate
  · intro s e s' hawaited hs hs' hnot
    obtain ⟨hsafe, hfits⟩ := Run.exec_invariant keep hstart hawaited hs
    obtain ⟨hreturned, hunsettled⟩ := hsafe.unsettled hnot (steps_of_step hs')
    apply (hfits.step (steps_of_step hs')).endsLate hreturned hunsettled

/-- A worker that is in `process` when `m_shotdown` is set leaves its loop before the
destructor returns. -/
def leavesInTime : List (TeardownEvent (Fin 1) (Fin 1) ℕ) :=
  [.append 0 (some 7), .post 0, .test 0, .wait 0, .lock 0, .pop 0, .connect 0, .deleteThreads,
    .setShotdown, .done 0, .test 0, .finish]

theorem noneLate_throughout_leavesInTime :
  ∃ pool : Teardown (Fin 1) (Fin 1) ℕ, construct 2 = some pool ∧
    Run.Throughout step NoneLate pool leavesInTime
  := ⟨_, rfl, (@noneLate_throughout _ _ _ _ _ _ 2 _ rfl leavesInTime).1 (by decide)⟩

/-- The destructor runs before the worker tests `m_shotdown`. -/
theorem not_noneLate :
  ¬ ∀ (maxRequest : ℤ) (pool : Teardown (Fin 1) (Fin 1) ℕ)
    (es : List (TeardownEvent (Fin 1) (Fin 1) ℕ)), construct maxRequest = some pool →
      Run.Throughout step NoneLate pool es
  := by
  intro h
  obtain ⟨pool, hpool⟩ : ∃ pool : Teardown (Fin 1) (Fin 1) ℕ, construct 2 = some pool := ⟨_, rfl⟩
  have hrun := h 2 pool [.deleteThreads, .setShotdown, .finish, .test 0] hpool
  obtain ⟨s, hs, hlate⟩ : ∃ s, Run.exec step pool [.deleteThreads, .setShotdown, .finish, .test 0]
      = some s ∧ s.late = [0] := by
    cases hpool
    exact ⟨_, rfl, rfl⟩
  have hend : s.NoneLate := Run.throughout_end hrun hs
  cases hlate.symm.trans hend

end Teardown

end WebServer
