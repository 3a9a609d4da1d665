import Mathlib.Data.Multiset.AddSub
import WebServer.Lib.Run
import WebServer.Lib.Threads

/-!
# The thread pool

Any number of threads call `append`, one call after another, and the worker threads run
the loop of `work`.  The queue changes only in sections that hold `m_queuelocker`, and
the semaphore only by `post` and `wait`; these are the steps, and they come in any order.

The post of a request follows its push after the lock is left, and a worker takes a
request out some time after its wait.  So the queue holds what the semaphore counts, and
besides it what the producers have yet to post and what the workers have already waited
for (`Conserved.length`).
-/

namespace WebServer

universe u v w

/-- Where a thread is that calls `append`: outside of it, or behind the section in which
it pushed a request that it has yet to post. -/
inductive ThreadPool.Producer (α : Type u) where
  | outside
  | pushed (request : Option α)
  deriving DecidableEq

/-- Where a worker is in the loop of `work`: about to wait for the semaphore, behind that
wait, or in the `process` of a request. -/
inductive ThreadPool.Worker (α : Type u) where
  | waits
  | woken
  | processes (request : α)
  deriving DecidableEq

/-- The thread pool with the threads that use it.  A request is a pointer, and null is
one.  `accepted` are the requests that were pushed, `answers` what the calls of `append`
returned, and `popped` the requests that were taken out. -/
structure ThreadPool (ι : Type v) (κ : Type w) (α : Type u) where
  maxRequest : ℕ
  workqueue : List (Option α)
  queuesem : ℕ
  producers : ι → ThreadPool.Producer α
  workers : κ → ThreadPool.Worker α
  accepted : List (Option α)
  answers : List (Option α × Bool)
  popped : List (Option α)

/-- A step of one of the threads. -/
inductive ThreadPoolEvent (ι : Type v) (κ : Type w) (α : Type u) where
  /-- The locked section of `append`. -/
  | append (producer : ι) (request : Option α)
  /-- The producer posts the semaphore and returns. -/
  | post (producer : ι)
  /-- The worker returns from its wait for the semaphore. -/
  | wait (worker : κ)
  /-- The locked section of `work`. -/
  | pop (worker : κ)
  /-- `process` returns. -/
  | done (worker : κ)

/-- The request that a producer has pushed and has yet to post. -/
def ThreadPool.Producer.pending {α : Type u} : ThreadPool.Producer α → Multiset (Option α)
  | .outside => 0
  | .pushed request => {request}

/-- Whether a worker is between its wait and the locked section, as a number. -/
def ThreadPool.Worker.isWoken {α : Type u} : ThreadPool.Worker α → ℕ
  | .woken => 1
  | _ => 0

namespace ThreadPool

variable {ι : Type v} {κ : Type w} {α : Type u}

/-- The constructor `threadpool`; it throws when it is to have no threads or no room. -/
def construct [Fintype κ] (maxRequest : ℤ) : Option (ThreadPool ι κ α) :=
  if Fintype.card κ ≤ 0 ∨ maxRequest ≤ 0 then
    none
  else
    some {
      maxRequest := maxRequest.toNat
      workqueue := []
      queuesem := 0
      producers := fun _ => .outside
      workers := fun _ => .waits
      accepted := []
      answers := []
      popped := [] }

variable [DecidableEq ι] [DecidableEq κ]

/-- A step of one of the threads. -/
def step (s : ThreadPool ι κ α) : ThreadPoolEvent ι κ α → Option (ThreadPool ι κ α)
  | .append i request =>
    match s.producers i with
    | .outside =>
      if s.workqueue.length ≥ s.maxRequest then
        some { s with answers := s.answers ++ [(request, false)] }
      else
        some { s with
          workqueue := s.workqueue ++ [request]
          producers := Function.update s.producers i (.pushed request)
          accepted := s.accepted ++ [request] }
    | .pushed _ => none
  | .post i =>
    match s.producers i with
    | .outside => none
    | .pushed request =>
      some { s with
        queuesem := s.queuesem + 1
        producers := Function.update s.producers i .outside
        answers := s.answers ++ [(request, true)] }
  | .wait k =>
    match s.workers k, s.queuesem with
    | .waits, n + 1 =>
      some { s with
        queuesem := n
        workers := Function.update s.workers k .woken }
    | _, _ => none
  | .pop k =>
    match s.workers k, s.workqueue with
    | .woken, [] => some { s with workers := Function.update s.workers k .waits }
    | .woken, request :: rest =>
      some { s with
        workqueue := rest
        workers := Function.update s.workers k (request.elim .waits .processes)
        popped := s.popped ++ [request] }
    | _, _ => none
  | .done k =>
    match s.workers k with
    | .processes _ => some { s with workers := Function.update s.workers k .waits }
    | _ => none

/-- What a step may do. -/
inductive Steps (s : ThreadPool ι κ α) : ThreadPoolEvent ι κ α → ThreadPool ι κ α → Prop where
  /-- `append` finds no room. -/
  | refuse {i : ι} {request : Option α} (hi : s.producers i = .outside)
    (hfull : s.maxRequest ≤ s.workqueue.length) :
    Steps s (.append i request) { s with answers := s.answers ++ [(request, false)] }
  | append {i : ι} {request : Option α} (hi : s.producers i = .outside)
    (hroom : s.workqueue.length < s.maxRequest) :
    Steps s (.append i request) { s with
      workqueue := s.workqueue ++ [request]
      producers := Function.update s.producers i (.pushed request)
      accepted := s.accepted ++ [request] }
  | post {i : ι} {request : Option α} (hi : s.producers i = .pushed request) :
    Steps s (.post i) { s with
      queuesem := s.queuesem + 1
      producers := Function.update s.producers i .outside
      answers := s.answers ++ [(request, true)] }
  | wait {k : κ} {n : ℕ} (hk : s.workers k = .waits) (hn : s.queuesem = n + 1) :
    Steps s (.wait k) { s with
      queuesem := n
      workers := Function.update s.workers k .woken }
  /-- A worker finds no request. -/
  | idle {k : κ} (hk : s.workers k = .woken) (hnil : s.workqueue = []) :
    Steps s (.pop k) { s with workers := Function.update s.workers k .waits }
  | pop {k : κ} {request : Option α} {rest : List (Option α)} (hk : s.workers k = .woken)
    (hqueue : s.workqueue = request :: rest) :
    Steps s (.pop k) { s with
      workqueue := rest
      workers := Function.update s.workers k (request.elim .waits .processes)
      popped := s.popped ++ [request] }
  | done {k : κ} {request : α} (hk : s.workers k = .processes request) :
    Steps s (.done k) { s with workers := Function.update s.workers k .waits }

theorem steps_of_step {s s' : ThreadPool ι κ α} {e : ThreadPoolEvent ι κ α}
    (h : s.step e = some s') :
  s.Steps e s'
  := by
  cases e with
  | append i request =>
      rw [step] at h
      split at h
      next hi =>
        split at h
        next hfull =>
          obtain rfl := Option.some.inj h
          exact .refuse hi hfull
        next hroom =>
          obtain rfl := Option.some.inj h
          exact .append hi (not_le.mp hroom)
      next => cases h
  | post i =>
      rw [step] at h
      split at h
      next => cases h
      next request hi =>
        obtain rfl := Option.some.inj h
        exact .post hi
  | wait k =>
      rw [step] at h
      split at h
      next n hk hn =>
        obtain rfl := Option.some.inj h
        exact .wait hk hn
      next => cases h
  | pop k =>
      rw [step] at h
      split at h
      next hk hnil =>
        obtain rfl := Option.some.inj h
        exact .idle hk hnil
      next request rest hk hqueue =>
        obtain rfl := Option.some.inj h
        exact .pop hk hqueue
      next => cases h
  | done k =>
      rw [step] at h
      split at h
      next request hk =>
        obtain rfl := Option.some.inj h
        exact .done hk
      next => cases h

/-- What a step may do, it does. -/
theorem Steps.step {s s' : ThreadPool ι κ α} {e : ThreadPoolEvent ι κ α} (h : s.Steps e s') :
  s.step e = some s'
  := by
  cases h with
  | refuse hi hfull =>
      rw [ThreadPool.step, hi]
      apply if_pos hfull
  | append hi hroom =>
      rw [ThreadPool.step, hi]
      apply if_neg (not_le.mpr hroom)
  | post hi => rw [ThreadPool.step, hi]
  | wait hk hn => rw [ThreadPool.step, hk, hn]
  | idle hk hnil => rw [ThreadPool.step, hk, hnil]
  | pop hk hqueue => rw [ThreadPool.step, hk, hqueue]
  | done hk => rw [ThreadPool.step, hk]

/-! ### What the steps conserve -/

variable [Fintype ι] [Fintype κ]

/-- The requests that are pushed and not yet posted, one for each producer between its
push and its post. -/
def pending (s : ThreadPool ι κ α) : Multiset (Option α) :=
  Threads.total Producer.pending s.producers

/-- The number of workers between their wait and their locked section. -/
def woken (s : ThreadPool ι κ α) : ℕ :=
  Threads.total Worker.isWoken s.workers

/-- The requests for which `append` returned true. -/
def answeredTrue (s : ThreadPool ι κ α) : List (Option α) :=
  (s.answers.filter (·.2)).map Prod.fst

/-- No request is lost, taken twice or overtaken, each that was pushed belongs to a call
of `append` that returned true or will return true, the queue keeps within its bound, and
a worker that has waited finds a request in it. -/
structure Conserved (s : ThreadPool ι κ α) : Prop where
  fifo : s.popped ++ s.workqueue = s.accepted
  answered : (s.accepted : Multiset (Option α)) = s.answeredTrue + s.pending
  bound : s.workqueue.length ≤ s.maxRequest
  length : s.workqueue.length = s.queuesem + s.woken + Multiset.card s.pending
  found : ∀ k, s.workers k = .woken → s.workqueue ≠ []

omit [DecidableEq ι] [DecidableEq κ] in
/-- What is left to show of a state in which the queue has the length it should have. -/
theorem Conserved.of_length {s : ThreadPool ι κ α}
    (hfifo : s.popped ++ s.workqueue = s.accepted)
    (hanswered : (s.accepted : Multiset (Option α)) = s.answeredTrue + s.pending)
    (hbound : s.workqueue.length ≤ s.maxRequest)
    (hlength : s.workqueue.length = s.queuesem + s.woken + Multiset.card s.pending) :
  s.Conserved
  := by
  refine ⟨hfifo, hanswered, hbound, hlength, ?_⟩
  intro k hk
  -- the worker itself is among those that the length counts
  have hwoken : 1 ≤ s.woken := by
    have h := Threads.le_total Worker.isWoken s.workers k
    rwa [hk] at h
  apply List.ne_nil_of_length_pos
  omega

omit [DecidableEq ι] [DecidableEq κ] in
theorem construct_conserved {maxRequest : ℤ} {s : ThreadPool ι κ α}
    (h : construct maxRequest = some s) :
  s.Conserved
  := by
  rw [construct] at h
  split at h
  next => cases h
  next =>
    obtain rfl := Option.some.inj h
    have hpending : Threads.total Producer.pending (fun _ : ι => (.outside : Producer α)) = 0 :=
      Threads.total_const_zero rfl
    have hwoken : Threads.total Worker.isWoken (fun _ : κ => (.waits : Worker α)) = 0 :=
      Threads.total_const_zero rfl
    apply Conserved.of_length
    · rfl
    · simp [pending, answeredTrue, hpending]
    · apply Nat.zero_le
    · simp [pending, woken, hpending, hwoken]

/-- The locked section of `append`. -/
theorem Conserved.append {s s' : ThreadPool ι κ α} (h : s.Conserved) {i : ι}
    {request : Option α} (hs' : s.step (.append i request) = some s') :
  s'.Conserved
  := by
  cases steps_of_step hs' with
  | refuse _ _ =>
      have hanswered : ((s.answers ++ [(request, false)]).filter (·.2)).map Prod.fst
          = s.answeredTrue := by simp [answeredTrue]
      refine { h with answered := ?_ }
      change (s.accepted : Multiset (Option α))
        = ((((s.answers ++ [(request, false)]).filter (·.2)).map Prod.fst : List (Option α))
          : Multiset (Option α)) + s.pending
      rw [hanswered, h.answered]
  | append hi hroom =>
      have hpending : Threads.total Producer.pending
          (Function.update s.producers i (.pushed request)) = s.pending + {request} := by
        have hupdate := Threads.total_update Producer.pending s.producers i (.pushed request)
        rw [hi] at hupdate
        exact (add_zero _).symm.trans hupdate
      apply Conserved.of_length
      · change s.popped ++ (s.workqueue ++ [request]) = s.accepted ++ [request]
        rw [← h.fifo, List.append_assoc]
      · change ((s.accepted ++ [request] : List (Option α)) : Multiset (Option α))
          = s.answeredTrue
            + Threads.total Producer.pending (Function.update s.producers i (.pushed request))
        rw [hpending, ← Multiset.coe_add, h.answered, Multiset.coe_singleton, add_assoc]
      · change (s.workqueue ++ [request]).length ≤ s.maxRequest
        rw [List.length_append, List.length_singleton]
        omega
      · change (s.workqueue ++ [request]).length = s.queuesem + s.woken + Multiset.card
          (Threads.total Producer.pending (Function.update s.producers i (.pushed request)))
        rw [hpending, List.length_append, h.length, Multiset.card_add]
        simp only [List.length_singleton, Multiset.card_singleton]
        omega

/-- The producer posts the semaphore and returns true. -/
theorem Conserved.post {s s' : ThreadPool ι κ α} (h : s.Conserved) {i : ι}
    (hs' : s.step (.post i) = some s') :
  s'.Conserved
  := by
  cases steps_of_step hs' with
  | @post _ request hi =>
      have hpending : s.pending = Threads.total Producer.pending
          (Function.update s.producers i .outside) + {request} := by
        have hupdate := Threads.total_update Producer.pending s.producers i .outside
        rw [hi] at hupdate
        exact (add_zero _).symm.trans hupdate.symm
      have hanswered : ((s.answers ++ [(request, true)]).filter (·.2)).map Prod.fst
          = s.answeredTrue ++ [request] := by simp [answeredTrue]
      apply Conserved.of_length
      · apply h.fifo
      · change (s.accepted : Multiset (Option α))
          = ((((s.answers ++ [(request, true)]).filter (·.2)).map Prod.fst : List (Option α))
            : Multiset (Option α))
            + Threads.total Producer.pending (Function.update s.producers i .outside)
        rw [h.answered, hpending, hanswered, ← Multiset.coe_add, Multiset.coe_singleton,
          ← add_assoc, add_right_comm]
      · apply h.bound
      · change s.workqueue.length = s.queuesem + 1 + s.woken + Multiset.card
          (Threads.total Producer.pending (Function.update s.producers i .outside))
        rw [h.length, hpending, Multiset.card_add, Multiset.card_singleton]
        omega

/-- A worker returns from its wait for the semaphore. -/
theorem Conserved.wait {s s' : ThreadPool ι κ α} (h : s.Conserved) {k : κ}
    (hs' : s.step (.wait k) = some s') :
  s'.Conserved
  := by
  cases steps_of_step hs' with
  | @wait _ n hk hn =>
      have hwoken : Threads.total Worker.isWoken (Function.update s.workers k .woken)
          = s.woken + 1 := by
        have hupdate := Threads.total_update Worker.isWoken s.workers k .woken
        rwa [hk] at hupdate
      refine Conserved.of_length h.fifo h.answered h.bound ?_
      change s.workqueue.length = n
        + Threads.total Worker.isWoken (Function.update s.workers k .woken)
        + Multiset.card s.pending
      rw [h.length, hn, hwoken]
      omega

/-- The locked section of `work`. -/
theorem Conserved.pop {s s' : ThreadPool ι κ α} (h : s.Conserved) {k : κ}
    (hs' : s.step (.pop k) = some s') :
  s'.Conserved
  := by
  cases steps_of_step hs' with
  | idle hk hnil => exact absurd hnil (h.found k hk)
  | @pop _ request rest hk hqueue =>
      have hwoken : Threads.total Worker.isWoken
          (Function.update s.workers k (request.elim .waits .processes)) + 1 = s.woken := by
        have hupdate := Threads.total_update Worker.isWoken s.workers k
          (request.elim .waits .processes)
        rw [hk] at hupdate
        cases request with
        | none => exact hupdate
        | some r => exact hupdate
      have hfifo := h.fifo
      have hbound := h.bound
      have hlength := h.length
      rw [hqueue] at hfifo hbound hlength
      rw [List.length_cons] at hbound hlength
      apply Conserved.of_length
      · change s.popped ++ [request] ++ rest = s.accepted
        rw [← hfifo, List.append_assoc]
        rfl
      · apply h.answered
      · apply Nat.le_of_succ_le hbound
      · change rest.length = s.queuesem
          + Threads.total Worker.isWoken
            (Function.update s.workers k (request.elim .waits .processes))
          + Multiset.card s.pending
        omega

/-- A worker goes on with its loop. -/
theorem Conserved.done {s s' : ThreadPool ι κ α} (h : s.Conserved) {k : κ}
    (hs' : s.step (.done k) = some s') :
  s'.Conserved
  := by
  cases steps_of_step hs' with
  | done hk =>
      have hwoken : Threads.total Worker.isWoken (Function.update s.workers k .waits) = s.woken :=
        Threads.total_update_of_eq (by rw [hk]; rfl)
      refine Conserved.of_length h.fifo h.answered h.bound ?_
      change s.workqueue.length = s.queuesem
        + Threads.total Worker.isWoken (Function.update s.workers k .waits)
        + Multiset.card s.pending
      rw [hwoken, h.length]

/-- A step of any of the threads. -/
theorem Conserved.step {s s' : ThreadPool ι κ α} (h : s.Conserved)
    {e : ThreadPoolEvent ι κ α} (hs' : s.step e = some s') :
  s'.Conserved
  := by
  cases e with
  | append i request => exact h.append hs'
  | post i => exact h.post hs'
  | wait k => exact h.wait hs'
  | pop k => exact h.pop hs'
  | done k => exact h.done hs'

/-- In every state that the threads can reach, the work is conserved. -/
theorem requests_conserved {maxRequest : ℤ} {pool s : ThreadPool ι κ α}
    {es : List (ThreadPoolEvent ι κ α)} (hpool : construct maxRequest = some pool)
    (h : Run.exec step pool es = some s) :
  s.Conserved
  := by
  apply Run.exec_preserves _ (construct_conserved hpool) h
  intro s e s' hs hs'
  apply hs.step hs'

/-- A request goes through a pool of one worker while a second one waits to be posted. -/
theorem requests_conserved_one :
  ∃ pool s : ThreadPool (Fin 2) (Fin 1) ℕ,
    construct 2 = some pool
      ∧ Run.exec step pool [.append 0 (some 7), .append 1 (some 8), .post 0, .wait 0, .pop 0]
          = some s
      ∧ s.Conserved
  := ⟨_, _, rfl, rfl, @requests_conserved (Fin 2) (Fin 1) ℕ _ _ _ _ 2 _ _
      [.append 0 (some 7), .append 1 (some 8), .post 0, .wait 0, .pop 0] rfl rfl⟩

end ThreadPool

end WebServer
