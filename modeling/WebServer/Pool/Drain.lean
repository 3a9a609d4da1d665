import WebServer.Lib.Drain
import WebServer.Pool.Borrowing

/-!
# The work of the pools comes to an end

The workers wait for two semaphores, that of the queue and that of the connections, and a
worker that waits for a connection keeps its request.  All the same they never wait for each
other: whatever the numbers of workers and connections are, when no more requests are
appended, the workers take every request out of the queue and run `process` on it, in
whatever order they take their steps, and all the connections are given back
(`requests_finish`).

The connections come back when no object is in the queue, or with a worker that has yet to build
its `connectionRAII`, while a request of it is appended or its `init()` is called (`Fresh`).  Then
no two workers use one `mysql` at a time (`Apart`).

The measure counts how many steps are left for the requests (`remaining`).  A worker goes
through its loop and through the functions of the pool of connections in turns (`Turn`).
-/

namespace WebServer

universe u v w x y

namespace Borrowing

/-- Where a worker is: in its loop, with its `connectionRAII`, and in the functions of the pool
of connections. -/
structure Station (γ : Type u) (α : Type x) where
  worker : ThreadPool.Worker α
  raii : ConnectionRAII γ
  client : ConnectionPool.Client γ

variable {ι : Type v} {κ : Type w} {γ : Type u} {α : Type x} {β : Type y}

/-- Where the worker `k` is. -/
def station (s : Borrowing ι κ γ α β) (k : κ) : Station γ α :=
  ⟨s.threads.workers k, s.raii k, s.conns.clients k⟩

/-- The turns of a worker, with what it takes off the semaphore of the queue. -/
inductive Turn : ℕ → Station γ α → Station γ α → Prop where
  | wait {r : ConnectionRAII γ} {c : ConnectionPool.Client γ} :
    Turn 1 ⟨.waits, r, c⟩ ⟨.woken, r, c⟩
  | idle {r : ConnectionRAII γ} {c : ConnectionPool.Client γ} :
    Turn 0 ⟨.woken, r, c⟩ ⟨.waits, r, c⟩
  | pop {r : ConnectionRAII γ} {c : ConnectionPool.Client γ} {q : α} :
    Turn 0 ⟨.woken, r, c⟩ ⟨.processes q, r, c⟩
  | refuse {q : α} {con : Option γ} {c c' : ConnectionPool.Client γ} :
    Turn 0 ⟨.processes q, .before, c⟩ ⟨.processes q, .got con, c'⟩
  | check {q : α} {c : ConnectionPool.Client γ} {held : List (Option γ)} :
    Turn 0 ⟨.processes q, .before, c⟩ ⟨.processes q, .constructing, ⟨.checked, held⟩⟩
  | acquire {q : α} {held held' : List (Option γ)} :
    Turn 0 ⟨.processes q, .constructing, ⟨.checked, held⟩⟩
      ⟨.processes q, .constructing, ⟨.waited, held'⟩⟩
  | take {q : α} {con : Option γ} {held : List (Option γ)} {c : ConnectionPool.Client γ} :
    Turn 0 ⟨.processes q, .constructing, ⟨.waited, held⟩⟩ ⟨.processes q, .got con, c⟩
  | store {q : α} {con : Option γ} {c : ConnectionPool.Client γ} :
    Turn 0 ⟨.processes q, .got con, c⟩ ⟨.processes q, .stored, c⟩
  | load {q : α} {conRAII : Option γ} {c : ConnectionPool.Client γ} :
    Turn 0 ⟨.processes q, .stored, c⟩ ⟨.processes q, .built conRAII, c⟩
  | releaseNull {q : α} {conRAII : Option γ} {c c' : ConnectionPool.Client γ} :
    Turn 0 ⟨.processes q, .built conRAII, c⟩ ⟨.processes q, .destroyed, c'⟩
  | release {q : α} {conRAII : Option γ} {c c' : ConnectionPool.Client γ} :
    Turn 0 ⟨.processes q, .built conRAII, c⟩ ⟨.processes q, .destructing, c'⟩
  | post {q : α} {c c' : ConnectionPool.Client γ} :
    Turn 0 ⟨.processes q, .destructing, c⟩ ⟨.processes q, .destroyed, c'⟩
  | done {q : α} {c : ConnectionPool.Client γ} :
    Turn 0 ⟨.processes q, .destroyed, c⟩ ⟨.waits, .before, c⟩

/-- How many steps are left for a worker. -/
def toDo : Station γ α → ℕ
  | ⟨.waits, _, _⟩ => 0
  | ⟨.woken, _, _⟩ => 9
  | ⟨.processes _, .before, _⟩ => 8
  | ⟨.processes _, .constructing, ⟨.checked, _⟩⟩ => 7
  | ⟨.processes _, .constructing, _⟩ => 6
  | ⟨.processes _, .got _, _⟩ => 5
  | ⟨.processes _, .stored, _⟩ => 4
  | ⟨.processes _, .built _, _⟩ => 3
  | ⟨.processes _, .destructing, _⟩ => 2
  | ⟨.processes _, .destroyed, _⟩ => 1

theorem toDo_processes_le (q : α) (r : ConnectionRAII γ) (c : ConnectionPool.Client γ) :
  toDo ⟨.processes q, r, c⟩ ≤ 8
  := by
  obtain ⟨place, held⟩ := c
  cases r with
  | constructing =>
      cases place with
      | checked => exact Nat.le_succ 7
      | outside | waited | pushed => exact Nat.le_add_left 6 2
  | before => exact le_rfl
  | got _ => exact Nat.le_add_left 5 3
  | stored => exact Nat.le_add_left 4 4
  | built _ => exact Nat.le_add_left 3 5
  | destructing => exact Nat.le_add_left 2 6
  | destroyed => exact Nat.le_add_left 1 7

/-- A turn takes off more than it brings, when ten steps are reckoned for each request that
the semaphore of the queue counts. -/
theorem Turn.toDo_lt {n : ℕ} {c c' : Station γ α} (h : Turn n c c') :
  toDo c' < toDo c + 10 * n
  := by
  cases h with
  | wait => exact Nat.lt_succ_self 9
  | idle => exact Nat.succ_pos 8
  | pop => exact Nat.lt_succ_of_le (toDo_processes_le ..)
  | refuse | check | acquire | take | store | load | releaseNull | release | post | done =>
      dsimp only [toDo]
      omega

/-! ### The steps as turns -/

/-- One worker goes to another place. -/
theorem station_update [DecidableEq κ] {s s' : Borrowing ι κ γ α β} {k : κ} {c : Station γ α}
    (hworkers : s'.threads.workers = Function.update s.threads.workers k c.worker)
    (hraii : s'.raii = Function.update s.raii k c.raii)
    (hclients : s'.conns.clients = Function.update s.conns.clients k c.client) :
  s'.station = Function.update s.station k c
  := by
  funext j
  rw [station, hworkers, hraii, hclients]
  by_cases hj : j = k
  · subst hj
    rw [Function.update_self, Function.update_self, Function.update_self, Function.update_self]
  · rw [Function.update_of_ne hj, Function.update_of_ne hj, Function.update_of_ne hj,
      Function.update_of_ne hj]
    rfl

/-- A step that does the work that is there: it neither appends a request nor calls `init()`. -/
def Working : BorrowingEvent ι κ α → Prop
  | .queue (.append _ _) | .init _ => False
  | _ => True

/-- The post of a producer, which moves no worker, or a turn of a worker. -/
inductive Moves [DecidableEq κ] [Fintype ι] (s s' : Borrowing ι κ γ α β) : Prop where
  | post (hs' : s'.station = s.station) (hsem : s'.threads.queuesem = s.threads.queuesem + 1)
    (hpending : Multiset.card s.threads.pending = Multiset.card s'.threads.pending + 1)
  | turn {k : κ} {n : ℕ} {c : Station γ α} (hs' : s'.station = Function.update s.station k c)
    (hturn : Turn n (s.station k) c) (hsem : s.threads.queuesem = s'.threads.queuesem + n)
    (hpending : s'.threads.pending = s.threads.pending)

section Moves

variable [DecidableEq ι] [DecidableEq κ] [Fintype ι] {s : Borrowing ι κ γ α β} {k : κ} {q : α}

/-- A step of the queue. -/
theorem moves_of_queue {e : ThreadPoolEvent ι κ α} {threads : ThreadPool ι κ α}
    (hworking : Working (.queue e)) (he : ∀ k, e ≠ .done k)
    (h : s.threads.step e = some threads) :
  s.Moves { s with threads := threads }
  := by
  cases ThreadPool.steps_of_step h with
  | refuse | append => exact absurd hworking id
  | @post i request hi =>
      have hupdate :=
        Threads.total_update ThreadPool.Producer.pending s.threads.producers i .outside
      have hcard := congrArg Multiset.card hupdate
      rw [hi, Multiset.card_add, Multiset.card_add] at hcard
      exact .post rfl rfl hcard.symm
  | @wait k n hk hn =>
      have hturn : Turn 1 (s.station k) ⟨.woken, s.raii k, s.conns.clients k⟩ := by
        rw [station, hk]
        exact .wait
      refine .turn (station_update rfl ?_ ?_) hturn hn rfl
      · rw [Function.update_eq_self]
      · rw [Function.update_eq_self]
  | @idle k hk _ =>
      have hturn : Turn 0 (s.station k) ⟨.waits, s.raii k, s.conns.clients k⟩ := by
        rw [station, hk]
        exact .idle
      refine .turn (station_update rfl ?_ ?_) hturn rfl rfl
      · rw [Function.update_eq_self]
      · rw [Function.update_eq_self]
  | @pop k request rest hk _ =>
      have hturn : Turn 0 (s.station k)
          ⟨request.elim .waits .processes, s.raii k, s.conns.clients k⟩ := by
        rw [station, hk]
        cases request with
        | none => exact .idle
        | some q => exact .pop
      refine .turn (station_update rfl ?_ ?_) hturn rfl rfl
      · rw [Function.update_eq_self]
      · rw [Function.update_eq_self]
  | @done k q _ => exact absurd rfl (he k)

/-- `process` returned, and the worker goes back to its loop. -/
theorem moves_of_done {threads : ThreadPool ι κ α} (hk : s.raii k = .destroyed)
    (h : s.threads.step (.done k) = some threads) :
  s.Moves { s with threads := threads, raii := Function.update s.raii k .before }
  := by
  cases ThreadPool.steps_of_step h with
  | @done _ q hw =>
      have hturn : Turn 0 (s.station k) ⟨.waits, .before, s.conns.clients k⟩ := by
        rw [station, hw, hk]
        exact .done
      refine .turn (station_update rfl rfl ?_) hturn rfl rfl
      exact (Function.update_eq_self ..).symm

omit [DecidableEq ι] in
/-- A worker takes a step in the pool of connections. -/
theorem moves_of_settle {pool : ConnectionPool κ γ} {r : ConnectionRAII γ}
    {c : ConnectionPool.Client γ} (hclients : pool.clients = Function.update s.conns.clients k c)
    (hturn : Turn 0 (s.station k) ⟨s.threads.workers k, r, c⟩) :
  s.Moves (s.settle k pool r)
  := by
  refine .turn (c := ⟨s.threads.workers k, r, c⟩) (station_update ?_ rfl hclients) hturn rfl rfl
  exact (Function.update_eq_self ..).symm

omit [DecidableEq ι] in
/-- A worker goes on with its `connectionRAII` only. -/
theorem moves_of_raii {r r' : ConnectionRAII γ} {mysql : β → Option γ} (hk : s.raii k = r)
    (hturn : Turn 0 ⟨s.threads.workers k, r, s.conns.clients k⟩
      ⟨s.threads.workers k, r', s.conns.clients k⟩) :
  s.Moves { s with mysql := mysql, raii := Function.update s.raii k r' }
  := by
  have hturn : Turn 0 (s.station k) ⟨s.threads.workers k, r', s.conns.clients k⟩ := by
    rw [station, hk]
    exact hturn
  refine .turn (station_update ?_ rfl ?_) hturn rfl rfl
  · exact (Function.update_eq_self ..).symm
  · exact (Function.update_eq_self ..).symm

variable [DecidableEq γ]

omit [DecidableEq ι] in
/-- A worker calls `getConnection`. -/
theorem moves_of_check (hw : s.threads.workers k = .processes q) (hk : s.raii k = .before)
    {pool : ConnectionPool κ γ} (hpool : s.conns.step (.check k) = some pool) :
  s.Moves (s.settle k pool (checked pool k))
  := by
  cases ConnectionPool.steps_of_step hpool with
  | refuse hi _ =>
      rw [checked_eq_got (Function.update_self ..)]
      refine moves_of_settle rfl ?_
      rw [station, hw, hk]
      exact .refuse
  | check hi _ =>
      rw [checked_eq_constructing (Function.update_self ..)]
      refine moves_of_settle rfl ?_
      rw [station, hw, hk]
      exact .check

omit [DecidableEq ι] in
/-- A worker waits for a connection. -/
theorem moves_of_wait (hw : s.threads.workers k = .processes q) (hk : s.raii k = .constructing)
    {pool : ConnectionPool κ γ} (hpool : s.conns.step (.wait k) = some pool) :
  s.Moves (s.settle k pool .constructing)
  := by
  cases ConnectionPool.steps_of_step hpool with
  | wait hi _ =>
      refine moves_of_settle rfl ?_
      rw [station, hw, hk, hi]
      exact .acquire

omit [DecidableEq ι] in
/-- A worker takes a connection. -/
theorem moves_of_take (hw : s.threads.workers k = .processes q) (hk : s.raii k = .constructing)
    {pool : ConnectionPool κ γ} (hpool : s.conns.step (.take k) = some pool) :
  s.Moves (s.settle k pool (.got (returned pool k)))
  := by
  cases ConnectionPool.steps_of_step hpool with
  | take hi _ =>
      refine moves_of_settle rfl ?_
      rw [station, hw, hk, hi]
      exact .take

omit [DecidableEq ι] in
/-- A worker calls `releaseConnection`. -/
theorem moves_of_release (hw : s.threads.workers k = .processes q) {conRAII : Option γ}
    (hk : s.raii k = .built conRAII) :
  s.Moves (s.settle k (s.conns.releaseConnection k conRAII)
    (if conRAII.isSome then .destructing else .destroyed))
  := by
  cases conRAII with
  | none =>
      refine moves_of_settle rfl ?_
      rw [station, hw, hk]
      exact .releaseNull
  | some con =>
      refine moves_of_settle rfl ?_
      rw [station, hw, hk]
      exact .release

omit [DecidableEq ι] in
/-- A worker posts the semaphore of the connections. -/
theorem moves_of_post (hw : s.threads.workers k = .processes q) (hk : s.raii k = .destructing)
    {pool : ConnectionPool κ γ} (hpool : s.conns.step (.post k) = some pool) :
  s.Moves (s.settle k pool .destroyed)
  := by
  cases ConnectionPool.steps_of_step hpool with
  | post _ =>
      refine moves_of_settle rfl ?_
      rw [station, hw, hk]
      exact .post

/-- Each step of the work is a post or a turn, when a worker that constructs, has or destroys a
`connectionRAII` has a request. -/
theorem moves_of_step [DecidableEq β] {object : α → β} {s' : Borrowing ι κ γ α β}
    (hrequest : ∀ k, s.raii k ≠ .before → ∃ q, s.threads.workers k = .processes q)
    {e : BorrowingEvent ι κ α} (he : Working e) (hs' : s.step object e = some s') :
  s.Moves s'
  := by
  have hprocesses {k : κ} {r : ConnectionRAII γ} (hk : s.raii k = r) (hr : r ≠ .before) :
      ∃ q, s.threads.workers k = .processes q := hrequest k (hk ▸ hr)
  cases steps_of_step hs' with
  | queue hne hthreads => exact moves_of_queue he hne hthreads
  | done hk hthreads => exact moves_of_done hk hthreads
  | init => exact absurd he id
  | check hw hk hpool => exact moves_of_check hw hk hpool
  | wait hk hpool =>
      obtain ⟨q, hw⟩ := hprocesses hk (fun hr => by cases hr)
      exact moves_of_wait hw hk hpool
  | take hk hpool =>
      obtain ⟨q, hw⟩ := hprocesses hk (fun hr => by cases hr)
      exact moves_of_take hw hk hpool
  | store hw hk =>
      apply moves_of_raii hk
      rw [hw]
      exact .store
  | load hw hk =>
      apply moves_of_raii hk
      rw [hw]
      exact .load
  | release hk =>
      obtain ⟨q, hw⟩ := hprocesses hk (fun hr => by cases hr)
      exact moves_of_release hw hk
  | post hk hpool =>
      obtain ⟨q, hw⟩ := hprocesses hk (fun hr => by cases hr)
      exact moves_of_post hw hk hpool

end Moves

/-! ### What is left to do -/

/-- How many steps are left: of the workers, and for each request that the semaphore of the
queue counts or that is yet to be posted. -/
def remaining [Fintype ι] [Fintype κ] (s : Borrowing ι κ γ α β) : ℕ :=
  Threads.total toDo s.station + 10 * s.threads.queuesem + 11 * Multiset.card s.threads.pending

/-- Each step of the work takes something off what is left. -/
theorem Moves.remaining_lt [DecidableEq κ] [Fintype ι] [Fintype κ] {s s' : Borrowing ι κ γ α β}
    (h : s.Moves s') :
  s'.remaining < s.remaining
  := by
  cases h with
  | post hs' hsem hpending =>
      rw [remaining, remaining, hs', hsem, hpending]
      omega
  | @turn k n c hs' hturn hsem hpending =>
      have hupdate := Threads.total_update toDo s.station k c
      have hlt := hturn.toDo_lt
      rw [remaining, remaining, hs', hsem, hpending]
      omega

/-! ### No two workers use one `mysql` at a time -/

end Borrowing

/-- Whether a worker has yet to read `conRAII` back. -/
def ConnectionRAII.unbuilt {γ : Type u} : ConnectionRAII γ → Bool
  | .before | .constructing | .got _ | .stored => true
  | .built _ | .destructing | .destroyed => false

namespace Borrowing

/-- The object of a worker that has a request and has yet to build its `connectionRAII`. -/
def opens (object : α → β) (s : Borrowing ι κ γ α β) (k : κ) : Option β :=
  match s.threads.workers k with
  | .processes q => if (s.raii k).unbuilt then some (object q) else none
  | .waits | .woken => none

/-- The objects of the requests in the queue. -/
def queued (object : α → β) (s : Borrowing ι κ γ α β) : List β :=
  s.threads.workqueue.reduceOption.map object

/-- Each object is at most once in the queue or with a worker that has yet to build its
`connectionRAII`. -/
structure Apart (object : α → β) (s : Borrowing ι κ γ α β) : Prop where
  queue : (s.queued object).Nodup
  apart : ∀ k o, s.opens object k = some o → o ∉ s.queued object
  one : ∀ j k o, s.opens object j = some o → s.opens object k = some o → j = k

/-- A request that is appended is of an object that is neither in the queue nor with a worker that
has yet to build its `connectionRAII`, and `init()` is called of no object of such a worker. -/
def Fresh (object : α → β) (s : Borrowing ι κ γ α β) : BorrowingEvent ι κ α → Prop
  | .queue (.append _ (some q)) =>
    object q ∉ s.queued object ∧ ∀ k, s.opens object k ≠ some (object q)
  | .init q => ∀ k, s.opens object k ≠ some (object q)
  | _ => True

instance [Fintype κ] [DecidableEq β] (object : α → β) (s : Borrowing ι κ γ α β) :
    ∀ e : BorrowingEvent ι κ α, Decidable (s.Fresh object e)
  | .queue (.append _ (some _)) => inferInstanceAs (Decidable (_ ∧ ∀ _, _))
  | .init _ => inferInstanceAs (Decidable (∀ _, _))
  | .queue (.append _ none) | .queue (.post _) | .queue (.wait _) | .queue (.pop _)
  | .queue (.done _) | .check _ | .wait _ | .take _ | .store _ | .load _ | .release _ | .post _ =>
    .isTrue trivial

section Apart

variable {object : α → β} {s s' : Borrowing ι κ γ α β}

theorem opens_eq_some {k : κ} {o : β} :
  s.opens object k = some o ↔
    ∃ q, s.threads.workers k = .processes q ∧ (s.raii k).unbuilt = true ∧ object q = o
  := by
  rw [opens]
  constructor
  · intro h
    split at h
    next q hw =>
      split at h
      next hk => exact ⟨q, hw, hk, Option.some.inj h⟩
      next => cases h
    next => cases h
    next => cases h
  · rintro ⟨q, hw, hk, rfl⟩
    rw [hw]
    exact if_pos hk

theorem opens_of_readsBack {k : κ} {o : β} (h : s.readsBack object k = some o) :
  s.opens object k = some o
  := by
  obtain ⟨q, hw, hk, ho⟩ := readsBack_eq_some.mp h
  exact opens_eq_some.mpr ⟨q, hw, by rw [hk]; rfl, ho⟩

/-- Objects that leave the queue and the workers leave the others apart. -/
theorem Apart.mono (h : s.Apart object) (hqueue : (s'.queued object).Sublist (s.queued object))
    (hopens : ∀ k o, s'.opens object k = some o → s.opens object k = some o) :
  s'.Apart object
  where
  queue := h.queue.sublist hqueue
  apart := fun k o hk hmem => h.apart k o (hopens k o hk) (hqueue.subset hmem)
  one := fun j k o hj hk => h.one j k o (hopens j o hj) (hopens k o hk)

/-- A request is appended whose object is nowhere. -/
theorem Apart.append (h : s.Apart object) {i : ι} {request : Option α} {threads : ThreadPool ι κ α}
    (hqueue : threads.workqueue = s.threads.workqueue ++ [request])
    (hworkers : threads.workers = s.threads.workers)
    (hfresh : s.Fresh object (.queue (.append i request))) :
  Apart object { s with threads := threads }
  := by
  have hopens (k : κ) (o : β)
      (hk : opens object { s with threads := threads } k = some o) :
      s.opens object k = some o := by
    rw [opens] at hk ⊢
    rwa [← hworkers]
  have hqueued : queued object { s with threads := threads }
      = s.queued object ++ (request.map object).toList := by
    rw [queued, queued, hqueue, List.reduceOption_append, List.map_append]
    cases request with
    | none => rfl
    | some q => rfl
  cases request with
  | none =>
      rw [Option.map_none, Option.toList_none, List.append_nil] at hqueued
      apply h.mono (hqueued ▸ .refl _) hopens
  | some q =>
      rw [Option.map_some, Option.toList_some] at hqueued
      obtain ⟨hqueue, hworkers⟩ := hfresh
      refine ⟨?_, fun k o hk => ?_, fun j k o hj hk => h.one j k o (hopens j o hj) (hopens k o hk)⟩
      · rw [hqueued]
        refine h.queue.append (List.nodup_singleton _) fun o ho hmem => hqueue ?_
        rwa [← List.mem_singleton.mp hmem]
      · rw [hqueued, List.mem_append, not_or]
        refine ⟨h.apart k o (hopens k o hk), fun hmem => hworkers k ?_⟩
        rw [← List.mem_singleton.mp hmem]
        exact hopens k o hk

variable [DecidableEq κ]

/-- A worker goes on with its `connectionRAII` only. -/
theorem opens_of_raii {t : Borrowing ι κ γ α β} {j : κ} {o : β}
    (h : t.opens object j = some o) {k : κ} {r : ConnectionRAII γ}
    (hthreads : t.threads = s.threads) (hraii : t.raii = Function.update s.raii k r)
    (hr : r.unbuilt = true → (s.raii k).unbuilt = true) :
  s.opens object j = some o
  := by
  obtain ⟨q, hw, hj, ho⟩ := opens_eq_some.mp h
  rw [hthreads] at hw
  refine opens_eq_some.mpr ⟨q, hw, ?_, ho⟩
  rw [hraii] at hj
  by_cases hjk : j = k
  · subst hjk
    rw [Function.update_self] at hj
    exact hr hj
  · rwa [Function.update_of_ne hjk] at hj

/-- A worker goes on in its loop, and has no request then. -/
theorem opens_of_worker {t : Borrowing ι κ γ α β} {j : κ} {o : β}
    (h : t.opens object j = some o) {k : κ} {x : ThreadPool.Worker α}
    (hworkers : t.threads.workers = Function.update s.threads.workers k x)
    (hx : ∀ q, x ≠ .processes q) (hraii : ∀ j, j ≠ k → t.raii j = s.raii j) :
  s.opens object j = some o
  := by
  obtain ⟨q, hw, hj, ho⟩ := opens_eq_some.mp h
  rw [hworkers] at hw
  by_cases hjk : j = k
  · rw [hjk, Function.update_self] at hw
    exact absurd hw (hx q)
  · rw [Function.update_of_ne hjk] at hw
    rw [hraii j hjk] at hj
    exact opens_eq_some.mpr ⟨q, hw, hj, ho⟩

/-- A worker takes a request out of the queue. -/
theorem Apart.pop (h : s.Apart object) {k : κ} {q : α} {rest : List (Option α)}
    {threads : ThreadPool ι κ α} (hqueue : s.threads.workqueue = some q :: rest)
    (hrest : threads.workqueue = rest)
    (hworkers : threads.workers = Function.update s.threads.workers k (.processes q)) :
  Apart object { s with threads := threads }
  := by
  have hqueued : s.queued object
      = object q :: queued object { s with threads := threads } := by
    rw [queued, queued, hqueue, hrest]
    rfl
  have hnodup := h.queue
  rw [hqueued, List.nodup_cons] at hnodup
  -- the worker has the object that was in the queue, and the others have theirs
  have hopens (j : κ) (o : β)
      (hj : opens object { s with threads := threads } j = some o) :
      j = k ∧ o = object q ∨ s.opens object j = some o := by
    by_cases hjk : j = k
    · left
      obtain ⟨q', hw, -, rfl⟩ := opens_eq_some.mp hj
      change threads.workers j = _ at hw
      rw [hworkers, hjk, Function.update_self] at hw
      exact ⟨hjk, congrArg object (ThreadPool.Worker.processes.inj hw).symm⟩
    · right
      rw [opens] at hj ⊢
      dsimp only at hj
      rwa [hworkers, Function.update_of_ne hjk] at hj
  have hother (j : κ) (o : β) (hj : s.opens object j = some o) :
      o ≠ object q ∧ o ∉ queued object { s with threads := threads } := by
    have hnot := h.apart j o hj
    rwa [hqueued, List.mem_cons, not_or] at hnot
  refine ⟨hnodup.2, fun j o hj => ?_, fun i j o hi hj => ?_⟩
  · rcases hopens j o hj with ⟨-, rfl⟩ | hj
    · exact hnodup.1
    · exact (hother j o hj).2
  · rcases hopens i o hi with ⟨rfl, ho⟩ | hi
    · rcases hopens j o hj with ⟨rfl, -⟩ | hj
      · rfl
      · exact absurd ho (hother j o hj).1
    · rcases hopens j o hj with ⟨rfl, ho⟩ | hj
      · exact absurd ho (hother i o hi).1
      · exact h.one i j o hi hj

variable [DecidableEq ι]

/-- A step of the thread pool. -/
theorem Apart.queue_step (h : s.Apart object) {e : ThreadPoolEvent ι κ α}
    (hfresh : s.Fresh object (.queue e)) {threads : ThreadPool ι κ α} (hne : ∀ k, e ≠ .done k)
    (hthreads : s.threads.step e = some threads) :
  Apart object { s with threads := threads }
  := by
  cases ThreadPool.steps_of_step hthreads with
  | refuse | post => exact h.mono (.refl _) fun _ _ hk => hk
  | append => exact h.append rfl rfl hfresh
  | wait =>
      refine h.mono (.refl _) fun j o hj => opens_of_worker hj rfl ?_ fun _ _ => rfl
      exact fun _ hx => by cases hx
  | idle =>
      refine h.mono (.refl _) fun j o hj => opens_of_worker hj rfl ?_ fun _ _ => rfl
      exact fun _ hx => by cases hx
  | @pop k request rest hk hqueue =>
      cases request with
      | none =>
          refine h.mono ?_ fun j o hj => opens_of_worker hj rfl ?_ fun _ _ => rfl
          · rw [queued, queued, hqueue]
            exact .refl _
          · exact fun _ hx => by cases hx
      | some q => exact h.pop hqueue rfl rfl
  | done => exact absurd rfl (hne _)

variable [DecidableEq γ] [DecidableEq β]

/-- A step that meets the condition writes no `mysql` that another worker has yet to read
back. -/
theorem Apart.undisturbed (h : s.Apart object) {e : BorrowingEvent ι κ α}
    (hfresh : s.Fresh object e) (hs' : s.step object e = some s') :
  s.Undisturbed object e
  := by
  intro k hsome hwrites
  obtain ⟨o, hback⟩ := Option.isSome_iff_exists.mp hsome
  rw [hback] at hwrites
  have hopens := opens_of_readsBack hback
  cases steps_of_step hs' with
  | @init q =>
      obtain rfl : o = object q := Option.some.inj hwrites
      exact hfresh k hopens
  | @store j q con hw hj =>
      rw [writes, hw] at hwrites
      obtain rfl : o = object q := Option.some.inj hwrites
      obtain rfl := h.one j k _ (opens_eq_some.mpr ⟨q, hw, by rw [hj]; rfl, rfl⟩) hopens
      obtain ⟨-, -, hstored, -⟩ := readsBack_eq_some.mp hback
      cases hj.symm.trans hstored
  | queue | done | check | wait | take | load | release | post => cases hwrites

/-- A step that meets the condition keeps the objects apart. -/
theorem Apart.step (h : s.Apart object) {e : BorrowingEvent ι κ α} (hfresh : s.Fresh object e)
    (hs' : s.step object e = some s') :
  s'.Apart object
  := by
  have hsettle {k : κ} {pool : ConnectionPool κ γ} {r : ConnectionRAII γ}
      (hr : r.unbuilt = true → (s.raii k).unbuilt = true) :
      Apart object (s.settle k pool r) :=
    h.mono (.refl _) fun _ _ hj => opens_of_raii hj rfl rfl hr
  cases steps_of_step hs' with
  | queue hne hthreads => exact h.queue_step hfresh hne hthreads
  | done hk hthreads =>
      cases ThreadPool.steps_of_step hthreads with
      | done =>
          refine h.mono (.refl _) fun j o hj => opens_of_worker hj rfl ?_ fun _ hne =>
            Function.update_of_ne hne ..
          exact fun _ hx => by cases hx
  | init => exact h.mono (.refl _) fun _ _ hk => hk
  | check _ hk _ | wait hk _ | take hk _ => exact hsettle fun _ => by rw [hk]; rfl
  | store _ hk =>
      refine h.mono (.refl _) fun j o hj => opens_of_raii hj rfl rfl fun _ => ?_
      rw [hk]
      rfl
  | load | post => exact hsettle fun hr => by cases hr
  | release =>
      apply hsettle
      split
      · exact fun hr => by cases hr
      · exact fun hr => by cases hr

end Apart

/-! ### Runs -/

/-- What is kept along every run in which no step writes a `mysql` that another worker has yet to
read back. -/
structure Sound [Fintype ι] [Fintype κ] (object : α → β) (conns : List γ)
    (s : Borrowing ι κ γ α β) : Prop where
  threads : s.threads.Conserved
  inv : s.Inv object conns

/-- The work is done: the queue is empty and every request that was pushed was taken out and
answered with true, the workers wait for requests, and the connections are in the list. -/
structure Finished (conns : List γ) (s : Borrowing ι κ γ α β) : Prop where
  queue : s.threads.workqueue = []
  popped : s.threads.popped = s.threads.accepted
  answered : (s.threads.accepted : Multiset (Option α)) = s.threads.answeredTrue
  workers : ∀ k, s.threads.workers k = .waits
  connList : (s.conns.connList : Multiset γ) = conns
  reserve : s.conns.reserve = conns.length

section Runs

variable [DecidableEq ι] [DecidableEq κ] [DecidableEq γ] [DecidableEq β] {object : α → β}
  {conns : List γ} {s s' : Borrowing ι κ γ α β}

/-- A step is one of the thread pool, or leaves it. -/
theorem threads_of_step {e : BorrowingEvent ι κ α} (hs' : s.step object e = some s') :
  s'.threads = s.threads ∨ ∃ e', s.threads.step e' = some s'.threads
  := by
  cases steps_of_step hs' with
  | queue _ h | done _ h => exact .inr ⟨_, h⟩
  | init | check | wait | take | store | load | release | post => exact .inl rfl

/-- When no step of the work is possible, no producer has a request to post. -/
theorem outside_of_done (hdone : Run.Done (step object) Working s) (i : ι) :
  s.threads.producers i = .outside
  := by
  cases hi : s.threads.producers i with
  | outside => rfl
  | pushed request =>
      have hnone : (s.threads.step (.post i)).map _ = none := hdone (.queue (.post i)) trivial
      rw [ThreadPool.step, hi] at hnone
      cases hnone

variable [Fintype ι] [Fintype κ]

/-- A step keeps the two pools and where the workers may be. -/
theorem Sound.step (h : s.Sound object conns) {e : BorrowingEvent ι κ α}
    (he : s.Undisturbed object e) (hs' : s.step object e = some s') :
  s'.Sound object conns
  := by
  refine ⟨?_, h.inv.step he hs'⟩
  rcases threads_of_step hs' with hsame | ⟨e', hthreads⟩
  · exact hsame ▸ h.threads
  · exact h.threads.step hthreads

theorem drains (object : α → β) (conns : List γ) :
  Run.Drains (step object : Borrowing ι κ γ α β → _ → _)
    (fun s => s.Sound object conns ∧ s.Apart object) Working remaining
  where
  keep := by
    rintro s e s' ⟨hsound, hapart⟩ he hs'
    have hfresh : s.Fresh object e := by
      match e with
      | .queue (.append _ _) | .init _ => exact absurd he id
      | .queue (.post _) | .queue (.wait _) | .queue (.pop _) | .queue (.done _) | .check _
      | .wait _ | .take _ | .store _ | .load _ | .release _ | .post _ => trivial
    exact ⟨hsound.step (hapart.undisturbed hfresh hs') hs', hapart.step hfresh hs'⟩
  less := fun _ _ _ h he hs' => (moves_of_step h.1.inv.request he hs').remaining_lt

/-- When no step of the work is possible, a worker waits for a request or for a connection. -/
theorem Sound.station_of_done (h : s.Sound object conns)
    (hdone : Run.Done (Borrowing.step object) Working s) (k : κ) :
  s.station k = ⟨.waits, .before, ⟨.outside, []⟩⟩ ∨
    ∃ q, s.station k = ⟨.processes q, .constructing, ⟨.checked, []⟩⟩ ∧ conns ≠ [] ∧
      s.conns.reserve = 0
  := by
  have hnone {e : BorrowingEvent ι κ α} {s' : Borrowing ι κ γ α β} (hs' : s.Steps object e s')
      (he : Working e) : False := by
    cases (hdone e he).symm.trans hs'.step
  have hrequest := h.inv.request k
  have hfits := h.inv.fits k
  rw [station]
  cases hk : s.raii k with
  | before =>
      rw [hk] at hfits
      cases hw : s.threads.workers k with
      | waits => exact .inl (congrArg _ hfits)
      | woken =>
          exfalso
          cases hqueue : s.threads.workqueue with
          | nil =>
              have hpop := (ThreadPool.Steps.idle hw hqueue).step
              exact hnone (.queue (fun _ he => by cases he) hpop) trivial
          | cons request rest =>
              have hpop := (ThreadPool.Steps.pop hw hqueue).step
              exact hnone (.queue (fun _ he => by cases he) hpop) trivial
      | processes q =>
          exfalso
          by_cases hlist : s.conns.connList = []
          · exact hnone (.check hw hk (ConnectionPool.Steps.refuse hfits hlist).step) trivial
          · exact hnone (.check hw hk (ConnectionPool.Steps.check hfits hlist).step) trivial
  | constructing =>
      rw [hk] at hfits hrequest
      obtain ⟨q, hw⟩ := hrequest fun hr => by cases hr
      rcases hfits with hclient | hclient
      · refine .inr ⟨q, by rw [hw, hclient], h.inv.found k (by rw [hclient]), ?_⟩
        cases hreserve : s.conns.reserve with
        | zero => rfl
        | succ n =>
            exfalso
            exact hnone (.wait hk (ConnectionPool.Steps.wait hclient hreserve).step) trivial
      · exfalso
        have hfound := h.inv.pool.found (i := k) (by rw [hclient])
        obtain ⟨con, rest, hlist⟩ := List.exists_cons_of_ne_nil hfound
        exact hnone (.take hk (ConnectionPool.Steps.take hclient hlist).step) trivial
  | got con =>
      rw [hk] at hrequest
      obtain ⟨q, hw⟩ := hrequest fun hr => by cases hr
      exact (hnone (.store hw hk) trivial).elim
  | stored =>
      rw [hk] at hrequest
      obtain ⟨q, hw⟩ := hrequest fun hr => by cases hr
      exact (hnone (.load hw hk) trivial).elim
  | built conRAII => exact (hnone (.release hk) trivial).elim
  | destructing =>
      rw [hk] at hfits
      exact (hnone (.post hk (ConnectionPool.Steps.post hfits).step) trivial).elim
  | destroyed =>
      rw [hk] at hrequest
      obtain ⟨q, hw⟩ := hrequest fun hr => by cases hr
      exact (hnone (.done hk (ThreadPool.Steps.done hw).step) trivial).elim

/-- When no step of the work is possible, all connections are in the list. -/
theorem Sound.reserve_of_done (h : s.Sound object conns)
    (hdone : Run.Done (Borrowing.step object) Working s) :
  (s.conns.connList : Multiset γ) = conns ∧ s.conns.reserve = conns.length
  := by
  have hidle : ∀ k, (s.conns.clients k).lent = 0 ∧ (s.conns.clients k).waiting = 0 ∧
      (s.conns.clients k).posting = 0 := by
    intro k
    obtain hstation | ⟨q, hstation, -, -⟩ := h.station_of_done hdone k
    · have hclient : s.conns.clients k = _ := congrArg Station.client hstation
      rw [hclient]
      exact ⟨rfl, rfl, rfl⟩
    · have hclient : s.conns.clients k = _ := congrArg Station.client hstation
      rw [hclient]
      exact ⟨rfl, rfl, rfl⟩
  have hlent : s.conns.lent = 0 := Finset.sum_eq_zero fun k _ => (hidle k).1
  have hwaiting : Threads.total ConnectionPool.Client.waiting s.conns.clients = 0 :=
    Finset.sum_eq_zero fun k _ => (hidle k).2.1
  have hposting : Threads.total ConnectionPool.Client.posting s.conns.clients = 0 :=
    Finset.sum_eq_zero fun k _ => (hidle k).2.2
  have hall := h.inv.pool.all
  have hlength := h.inv.pool.length
  rw [hlent, add_zero] at hall
  rw [hwaiting, hposting, add_zero, add_zero] at hlength
  refine ⟨hall, ?_⟩
  have hcard := congrArg Multiset.card hall
  rw [Multiset.coe_card, Multiset.coe_card] at hcard
  rw [← hlength, hcard]

/-- When no step of the work is possible, it is done. -/
theorem Sound.finished [Nonempty κ] (h : s.Sound object conns)
    (hdone : Run.Done (Borrowing.step object) Working s) :
  s.Finished conns
  := by
  obtain ⟨hlist, hreserve⟩ := h.reserve_of_done hdone
  have hwaits : ∀ k, s.threads.workers k = .waits := by
    intro k
    obtain hstation | ⟨q, -, hconns, hzero⟩ := h.station_of_done hdone k
    · exact congrArg Station.worker hstation
    · have hpos := List.length_pos_of_ne_nil hconns
      omega
  have hpending : s.threads.pending = 0 :=
    Finset.sum_eq_zero fun i _ => by rw [outside_of_done hdone i]; rfl
  have hwoken : s.threads.woken = 0 :=
    Finset.sum_eq_zero fun k _ => by rw [hwaits k]; rfl
  have hsem : s.threads.queuesem = 0 := by
    have k := Classical.arbitrary κ
    have hnone : (s.threads.step (.wait k)).map _ = none := hdone (.queue (.wait k)) trivial
    rw [ThreadPool.step, hwaits k] at hnone
    cases hsem : s.threads.queuesem with
    | zero => rfl
    | succ n =>
        rw [hsem] at hnone
        cases hnone
  have hqueue : s.threads.workqueue = [] := by
    apply List.length_eq_zero_iff.mp
    rw [h.threads.length, hsem, hwoken, hpending]
    rfl
  have hfifo := h.threads.fifo
  have hanswered := h.threads.answered
  rw [hqueue, List.append_nil] at hfifo
  rw [hpending, add_zero] at hanswered
  exact ⟨hqueue, hfifo, hanswered, hwaits, hlist, hreserve⟩

omit [DecidableEq ι] [DecidableEq κ] [DecidableEq γ] [DecidableEq β] [Fintype ι] in
/-- In the beginning the workers wait, there is one at least, and no request is in the queue. -/
theorem construct_waits {maxRequest : ℤ} {threads : ThreadPool ι κ α}
    (h : ThreadPool.construct maxRequest = some threads) :
  Nonempty κ ∧ threads.workers = (fun _ => .waits) ∧ threads.producers = (fun _ => .outside) ∧
    threads.workqueue = []
  := by
  rw [ThreadPool.construct] at h
  split at h
  next => cases h
  next hmany =>
    cases h
    rw [not_or, not_le] at hmany
    exact ⟨Fintype.card_pos_iff.mp hmany.1, rfl, rfl, rfl⟩

omit [DecidableEq ι] [DecidableEq κ] [DecidableEq γ] [DecidableEq β] in
theorem start_sound (object : α → β) {connect : ℕ → Option γ} {maxconn maxRequest : ℤ}
    {conns : ConnectionPool κ γ} {threads : ThreadPool ι κ α}
    (hthreads : ThreadPool.construct maxRequest = some threads)
    (hconns : ConnectionPool.init connect maxconn = some conns) :
  (start threads conns).Sound object conns.connList
  := ⟨ThreadPool.construct_conserved hthreads, start_inv object threads hconns⟩

omit [DecidableEq ι] [DecidableEq κ] [DecidableEq γ] [DecidableEq β] [Fintype ι] in
theorem start_apart (object : α → β) {maxRequest : ℤ} (conns : ConnectionPool κ γ)
    {threads : ThreadPool ι κ α} (hthreads : ThreadPool.construct maxRequest = some threads) :
  (start threads conns).Apart object
  := by
  obtain ⟨-, hworkers, -, hqueue⟩ := construct_waits hthreads
  have hqueued : (start threads conns).queued object = [] := by
    rw [queued]
    change threads.workqueue.reduceOption.map object = []
    rw [hqueue]
    rfl
  have hopens (k : κ) (o : β) : (start threads conns).opens object k ≠ some o := by
    intro h
    obtain ⟨q, hw, -, -⟩ := opens_eq_some.mp h
    change threads.workers k = _ at hw
    rw [hworkers] at hw
    cases hw
  exact ⟨hqueued ▸ List.nodup_nil, fun k o h => absurd h (hopens k o),
    fun j k o h => absurd h (hopens j o)⟩

/-- For any numbers of workers and connections, and from every state that the threads can
reach without a request that is appended, or an `init()` that is called, of an object in use:
when no more requests are appended, the work comes to its end, in whatever order the threads take
their steps.  No two threads wait for each other. -/
theorem requests_finish (object : α → β) {connect : ℕ → Option γ} {maxconn maxRequest : ℤ}
    {conns : ConnectionPool κ γ} {threads : ThreadPool ι κ α} {s : Borrowing ι κ γ α β}
    {es : List (BorrowingEvent ι κ α)} (hthreads : ThreadPool.construct maxRequest = some threads)
    (hconns : ConnectionPool.init connect maxconn = some conns)
    (hfresh : Run.Along (step object) (Fresh object) (start threads conns) es)
    (h : Run.exec (step object) (start threads conns) es = some s) :
  Run.Finishes (step object) Working s.remaining (Finished conns.connList) s
  := by
  have hnonempty := (construct_waits hthreads).1
  have hstart : (start threads conns).Sound object conns.connList ∧
      (start threads conns).Apart object :=
    ⟨start_sound object hthreads hconns, start_apart object conns hthreads⟩
  have keep (t : Borrowing ι κ γ α β) (e : BorrowingEvent ι κ α) (t' : Borrowing ι κ γ α β)
      (ht : t.Sound object conns.connList ∧ t.Apart object) (he : t.Fresh object e)
      (ht' : t.step object e = some t') : t'.Sound object conns.connList ∧ t'.Apart object :=
    ⟨ht.1.step (ht.2.undisturbed he ht') ht', ht.2.step he ht'⟩
  have hreached := Run.exec_invariant keep hstart hfresh h
  exact (drains object conns.connList).finishes (fun _ ht hdone => ht.1.finished hdone) hreached

end Runs

/-- Two workers share one connection: the first one takes it, and the second one has found it
in the list before and waits for it. -/
def shared : List (BorrowingEvent Unit Bool ℕ) :=
  [.queue (.append () (some 7)), .queue (.post ()), .queue (.append () (some 8)),
    .queue (.post ()), .queue (.wait false), .queue (.pop false), .queue (.wait true),
    .queue (.pop true), .check false, .check true, .wait false, .take false]

theorem requests_finish_shared :
  ∃ (conns : ConnectionPool Bool ℕ) (s : Borrowing Unit Bool ℕ ℕ ℕ),
    s.raii true = .constructing ∧ s.conns.reserve = 0 ∧
      Run.Finishes (step id) Working s.remaining (Finished conns.connList) s
  := by
  obtain ⟨conns, hconns⟩ : ∃ conns : ConnectionPool Bool ℕ,
    ConnectionPool.init (fun _ => some 5) 1 = some conns := ⟨_, rfl⟩
  obtain ⟨threads, hthreads⟩ : ∃ threads : ThreadPool Unit Bool ℕ,
    ThreadPool.construct 2 = some threads := ⟨_, rfl⟩
  have hrun : ((ConnectionPool.init (fun _ => some 5) 1).bind fun conns =>
      (ThreadPool.construct 2).bind fun threads =>
        (Run.exec (step id) (start threads conns) shared).map fun s =>
          decide (Run.Along (step id) (Fresh id) (start threads conns) shared ∧
            s.raii true = .constructing ∧ s.conns.reserve = 0)) = some true := by
    decide +kernel
  rw [hconns, Option.bind_some, hthreads, Option.bind_some] at hrun
  obtain ⟨s, hs, hfacts⟩ := Option.map_eq_some_iff.mp hrun
  obtain ⟨hfresh, hraii, hreserve⟩ := of_decide_eq_true hfacts
  exact ⟨conns, s, hraii, hreserve, requests_finish id hthreads hconns hfresh hs⟩

end Borrowing

end WebServer
