import WebServer.Pool.ConnectionPool
import WebServer.Pool.ThreadPool

/-!
# Workers that borrow a connection

The workers of the thread pool are the threads that use the pool of connections.  A worker
that took a request out of the queue constructs a `connectionRAII`, which calls
`getConnection`, runs `process` and destroys the `connectionRAII`, which calls
`releaseConnection`; then it goes back to its loop.

The constructor does not keep what `getConnection` returned.  It stores it in the member
`mysql` of the object that the request points to, and reads it back into `conRAII` from there.
Between the two another worker with a request of the same object may store its own connection,
and `main` may call `init()`, which sets `mysql` to null.

When nobody does so, a worker has what `getConnection` returned to it (`Inv`).  It keeps at most
one connection from the others, and a worker that is about to call `getConnection` keeps none.
So if there are no fewer connections than workers, one is left for it (`Inv.reserve_pos`).
-/

namespace WebServer

universe u v w x y

/-- How far a worker has come with its `connectionRAII`: `getConnection` returned, the
connection was stored in the request, and `conRAII` was read back from there. -/
inductive ConnectionRAII (γ : Type u) where
  | before
  | constructing
  | got (con : Option γ)
  | stored
  | built (conRAII : Option γ)
  | destructing
  | destroyed
  deriving DecidableEq

/-- The thread pool, the pool of connections that its workers use, the `connectionRAII` of
each worker, and the member `mysql` of each object. -/
structure Borrowing (ι : Type v) (κ : Type w) (γ : Type u) (α : Type x) (β : Type y) where
  threads : ThreadPool ι κ α
  conns : ConnectionPool κ γ
  raii : κ → ConnectionRAII γ
  mysql : β → Option γ

/-- A step of a producer or of a worker, or of `main`. -/
inductive BorrowingEvent (ι : Type v) (κ : Type w) (α : Type x) where
  /-- A step of the thread pool. -/
  | queue (e : ThreadPoolEvent ι κ α)
  /-- `main` calls `init()` of the object that a request points to. -/
  | init (request : α)
  /-- The worker calls `getConnection`. -/
  | check (worker : κ)
  /-- The worker waits for the semaphore in `getConnection`. -/
  | wait (worker : κ)
  /-- The worker takes a connection and returns from `getConnection`. -/
  | take (worker : κ)
  /-- The worker stores what `getConnection` returned in `mysql` of its request. -/
  | store (worker : κ)
  /-- The worker reads `mysql` of its request into `conRAII`. -/
  | load (worker : κ)
  /-- `process` returned, and the worker calls `releaseConnection`. -/
  | release (worker : κ)
  /-- The worker posts the semaphore and returns from `releaseConnection`. -/
  | post (worker : κ)

/-- A pool with a connection in its list is one of some connections. -/
theorem ConnectionPool.Inv.conns_ne_nil {κ : Type w} {γ : Type u} [Fintype κ] {conns : List γ}
    {s : ConnectionPool κ γ} (h : s.Inv conns) (hlist : s.connList ≠ []) :
  conns ≠ []
  := by
  rintro rfl
  have hcard := congrArg Multiset.card h.all
  rw [Multiset.card_add, Multiset.coe_card, Multiset.coe_card] at hcard
  have hpos := List.length_pos_of_ne_nil hlist
  rw [List.length_nil] at hcard
  omega

section ReleaseConnection

variable {κ : Type w} {γ : Type u} [DecidableEq κ] [DecidableEq γ]

/-- `releaseConnection` up to the end of its locked section, or as a whole if the connection is
null, by a thread that need not have got the connection. -/
def ConnectionPool.releaseConnection (s : ConnectionPool κ γ) (k : κ) (con : Option γ) :
    ConnectionPool κ γ :=
  let held := (s.clients k).held.erase con
  match con with
  | none => { s with clients := Function.update s.clients k ⟨.outside, held⟩ }
  | some con =>
    { s with
      connList := s.connList ++ [con]
      freeConn := s.freeConn + 1
      curConn := s.curConn - 1
      clients := Function.update s.clients k ⟨.pushed, held⟩ }

/-- A thread releases what it got. -/
theorem ConnectionPool.step_release {s : ConnectionPool κ γ} {k : κ} {con : Option γ}
    (hplace : (s.clients k).place = .outside) (hmem : con ∈ (s.clients k).held) :
  s.step (.release k con) = some (s.releaseConnection k con)
  := by
  rw [step, hplace]
  dsimp only
  rw [if_pos hmem]
  cases con with
  | none => rfl
  | some con => rfl

end ReleaseConnection

namespace Borrowing

variable {ι : Type v} {κ : Type w} {γ : Type u} {α : Type x} {β : Type y}

/-- No worker has a request yet. -/
def start (threads : ThreadPool ι κ α) (conns : ConnectionPool κ γ) : Borrowing ι κ γ α β where
  threads := threads
  conns := conns
  raii := fun _ => .before
  mysql := fun _ => none

/-- The object whose `mysql` a worker has yet to read back. -/
def readsBack (object : α → β) (s : Borrowing ι κ γ α β) (k : κ) : Option β :=
  match s.threads.workers k, s.raii k with
  | .processes q, .stored => some (object q)
  | _, _ => none

/-- The object whose `mysql` a step writes. -/
def writes (object : α → β) (s : Borrowing ι κ γ α β) : BorrowingEvent ι κ α → Option β
  | .init q => some (object q)
  | .store k =>
    match s.threads.workers k with
    | .processes q => some (object q)
    | _ => none
  | _ => none

/-- No step writes the `mysql` that another worker has yet to read back. -/
def Undisturbed (object : α → β) (s : Borrowing ι κ γ α β) (e : BorrowingEvent ι κ α) : Prop :=
  ∀ k, (s.readsBack object k).isSome → s.readsBack object k ≠ s.writes object e

instance [Fintype κ] [DecidableEq β] (object : α → β) (s : Borrowing ι κ γ α β)
    (e : BorrowingEvent ι κ α) : Decidable (s.Undisturbed object e) :=
  inferInstanceAs (Decidable (∀ _, _))

section Step

variable [DecidableEq ι] [DecidableEq κ] [DecidableEq γ] [DecidableEq β]

/-- The worker goes on, with the pool of connections `conns`. -/
def settle (s : Borrowing ι κ γ α β) (k : κ) (conns : ConnectionPool κ γ)
    (raii : ConnectionRAII γ) : Borrowing ι κ γ α β :=
  { s with conns := conns, raii := Function.update s.raii k raii }

/-- What `getConnection` returned last to the worker. -/
def returned (conns : ConnectionPool κ γ) (k : κ) : Option γ := (conns.clients k).held.head?.join

/-- Where a worker is behind the check of the size in `getConnection`. -/
def checked (conns : ConnectionPool κ γ) (k : κ) : ConnectionRAII γ :=
  match (conns.clients k).place with
  | .checked => .constructing
  | _ => .got (returned conns k)

/-- A step of a producer or of a worker, or of `main`.  A request points to an object. -/
def step (object : α → β) (s : Borrowing ι κ γ α β) :
    BorrowingEvent ι κ α → Option (Borrowing ι κ γ α β)
  | .queue (.done k) =>
    match s.raii k with
    | .destroyed => (s.threads.step (.done k)).map fun threads =>
        { s with threads := threads, raii := Function.update s.raii k .before }
    | _ => none
  | .queue e => (s.threads.step e).map fun threads => { s with threads := threads }
  | .init q => some { s with mysql := Function.update s.mysql (object q) none }
  | .check k =>
    match s.threads.workers k, s.raii k with
    | .processes _, .before =>
      (s.conns.step (.check k)).map fun conns => s.settle k conns (checked conns k)
    | _, _ => none
  | .wait k =>
    match s.raii k with
    | .constructing => (s.conns.step (.wait k)).map fun conns => s.settle k conns .constructing
    | _ => none
  | .take k =>
    match s.raii k with
    | .constructing =>
      (s.conns.step (.take k)).map fun conns => s.settle k conns (.got (returned conns k))
    | _ => none
  | .store k =>
    match s.threads.workers k, s.raii k with
    | .processes q, .got con =>
      some { s with
        mysql := Function.update s.mysql (object q) con
        raii := Function.update s.raii k .stored }
    | _, _ => none
  | .load k =>
    match s.threads.workers k, s.raii k with
    | .processes q, .stored => some (s.settle k s.conns (.built (s.mysql (object q))))
    | _, _ => none
  | .release k =>
    match s.raii k with
    | .built conRAII => some (s.settle k (s.conns.releaseConnection k conRAII)
        (if conRAII.isSome then .destructing else .destroyed))
    | _ => none
  | .post k =>
    match s.raii k with
    | .destructing => (s.conns.step (.post k)).map fun conns => s.settle k conns .destroyed
    | _ => none

/-- What a step may do. -/
inductive Steps (object : α → β) (s : Borrowing ι κ γ α β) :
    BorrowingEvent ι κ α → Borrowing ι κ γ α β → Prop where
  | queue {e : ThreadPoolEvent ι κ α} {threads : ThreadPool ι κ α} (he : ∀ k, e ≠ .done k)
    (h : s.threads.step e = some threads) :
    Steps object s (.queue e) { s with threads := threads }
  | done {k : κ} {threads : ThreadPool ι κ α} (hk : s.raii k = .destroyed)
    (h : s.threads.step (.done k) = some threads) :
    Steps object s (.queue (.done k))
      { s with threads := threads, raii := Function.update s.raii k .before }
  | init {q : α} :
    Steps object s (.init q) { s with mysql := Function.update s.mysql (object q) none }
  | check {k : κ} {q : α} {conns : ConnectionPool κ γ} (hw : s.threads.workers k = .processes q)
    (hk : s.raii k = .before) (h : s.conns.step (.check k) = some conns) :
    Steps object s (.check k) (s.settle k conns (checked conns k))
  | wait {k : κ} {conns : ConnectionPool κ γ} (hk : s.raii k = .constructing)
    (h : s.conns.step (.wait k) = some conns) :
    Steps object s (.wait k) (s.settle k conns .constructing)
  | take {k : κ} {conns : ConnectionPool κ γ} (hk : s.raii k = .constructing)
    (h : s.conns.step (.take k) = some conns) :
    Steps object s (.take k) (s.settle k conns (.got (returned conns k)))
  | store {k : κ} {q : α} {con : Option γ} (hw : s.threads.workers k = .processes q)
    (hk : s.raii k = .got con) :
    Steps object s (.store k) { s with
      mysql := Function.update s.mysql (object q) con
      raii := Function.update s.raii k .stored }
  | load {k : κ} {q : α} (hw : s.threads.workers k = .processes q) (hk : s.raii k = .stored) :
    Steps object s (.load k) (s.settle k s.conns (.built (s.mysql (object q))))
  | release {k : κ} {conRAII : Option γ} (hk : s.raii k = .built conRAII) :
    Steps object s (.release k) (s.settle k (s.conns.releaseConnection k conRAII)
      (if conRAII.isSome then .destructing else .destroyed))
  | post {k : κ} {conns : ConnectionPool κ γ} (hk : s.raii k = .destructing)
    (h : s.conns.step (.post k) = some conns) :
    Steps object s (.post k) (s.settle k conns .destroyed)

variable {object : α → β}

theorem steps_of_step {s s' : Borrowing ι κ γ α β} {e : BorrowingEvent ι κ α}
    (h : s.step object e = some s') :
  s.Steps object e s'
  := by
  cases e with
  | queue e =>
      cases e with
      | done k =>
          rw [step] at h
          split at h
          next hk =>
            obtain ⟨threads, hthreads, rfl⟩ := Option.map_eq_some_iff.mp h
            exact .done hk hthreads
          next => cases h
      | append _ _ | post _ | wait _ | pop _ =>
          obtain ⟨threads, hthreads, rfl⟩ := Option.map_eq_some_iff.mp h
          exact .queue (fun _ he => by cases he) hthreads
  | init q =>
      obtain rfl := Option.some.inj h
      exact .init
  | check k =>
      rw [step] at h
      split at h
      next q hw hk =>
        obtain ⟨conns, hconns, rfl⟩ := Option.map_eq_some_iff.mp h
        exact .check hw hk hconns
      next => cases h
  | wait k =>
      rw [step] at h
      split at h
      next hk =>
        obtain ⟨conns, hconns, rfl⟩ := Option.map_eq_some_iff.mp h
        exact .wait hk hconns
      next => cases h
  | take k =>
      rw [step] at h
      split at h
      next hk =>
        obtain ⟨conns, hconns, rfl⟩ := Option.map_eq_some_iff.mp h
        exact .take hk hconns
      next => cases h
  | store k =>
      rw [step] at h
      split at h
      next q con hw hk =>
        obtain rfl := Option.some.inj h
        exact .store hw hk
      next => cases h
  | load k =>
      rw [step] at h
      split at h
      next q hw hk =>
        obtain rfl := Option.some.inj h
        exact .load hw hk
      next => cases h
  | release k =>
      rw [step] at h
      split at h
      next conRAII hk =>
        obtain rfl := Option.some.inj h
        exact .release hk
      next => cases h
  | post k =>
      rw [step] at h
      split at h
      next hk =>
        obtain ⟨conns, hconns, rfl⟩ := Option.map_eq_some_iff.mp h
        exact .post hk hconns
      next => cases h

/-- What a step may do, it does. -/
theorem Steps.step {s s' : Borrowing ι κ γ α β} {e : BorrowingEvent ι κ α}
    (h : s.Steps object e s') :
  s.step object e = some s'
  := by
  cases h with
  | queue he h =>
      cases ‹ThreadPoolEvent ι κ α› with
      | done k => exact absurd rfl (he k)
      | append _ _ | post _ | wait _ | pop _ =>
          rw [Borrowing.step, h]
          · rfl
          · exact he
  | done hk h =>
      rw [Borrowing.step, hk, h]
      rfl
  | init => rfl
  | check hw hk h =>
      rw [Borrowing.step, hw, hk, h]
      rfl
  | wait hk h | take hk h | post hk h =>
      rw [Borrowing.step, hk, h]
      rfl
  | store hw hk | load hw hk => rw [Borrowing.step, hw, hk]
  | release hk => rw [Borrowing.step, hk]

/-- A worker reads back what is there. -/
theorem step_load (object : α → β) {s : Borrowing ι κ γ α β} {k : κ} {q : α}
    (hw : s.threads.workers k = .processes q) (hk : s.raii k = .stored) :
  s.step object (.load k) = some (s.settle k s.conns (.built (s.mysql (object q))))
  := (Steps.load hw hk).step

end Step

theorem returned_eq {pool : ConnectionPool κ γ} {k : κ} {place : ConnectionPool.Place}
    {con : Option γ} {held : List (Option γ)} (h : pool.clients k = ⟨place, con :: held⟩) :
  returned pool k = con
  := by
  rw [returned, h]
  rfl

theorem checked_eq_got {pool : ConnectionPool κ γ} {k : κ} {con : Option γ}
    {held : List (Option γ)} (h : pool.clients k = ⟨.outside, con :: held⟩) :
  checked pool k = .got con
  := by
  rw [checked, h]
  exact congrArg ConnectionRAII.got (returned_eq h)

theorem checked_eq_constructing {pool : ConnectionPool κ γ} {k : κ} {held : List (Option γ)}
    (h : pool.clients k = ⟨.checked, held⟩) :
  checked pool k = .constructing
  := by
  rw [checked, h]

theorem readsBack_eq_some {object : α → β} {s : Borrowing ι κ γ α β} {k : κ} {o : β} :
  s.readsBack object k = some o ↔
    ∃ q, s.threads.workers k = .processes q ∧ s.raii k = .stored ∧ object q = o
  := by
  rw [readsBack]
  constructor
  · intro h
    split at h
    next q hw hk => exact ⟨q, hw, hk, Option.some.inj h⟩
    next => cases h
  · rintro ⟨q, hw, hk, rfl⟩
    rw [hw, hk]

/-- A step that writes no `mysql`. -/
theorem undisturbed_of_writes {object : α → β} {s : Borrowing ι κ γ α β}
    {e : BorrowingEvent ι κ α} (h : s.writes object e = none) :
  s.Undisturbed object e
  := by
  intro k hsome hwrites
  rw [hwrites, h] at hsome
  cases hsome

/-- `getConnection` does not return null and does not block, and each worker in `process`
has a connection of its own. -/
structure Supplied (s : Borrowing ι κ γ α β) : Prop where
  /-- A worker that is about to call `getConnection` finds a connection in the list. -/
  check : ∀ k request, s.threads.workers k = .processes request → s.raii k = .before →
    s.conns.connList ≠ []
  /-- A worker that is about to wait for the semaphore does not block. -/
  wait : ∀ k, s.raii k = .constructing → (s.conns.clients k).place = .checked →
    0 < s.conns.reserve
  got : ∀ k con, s.raii k = .got con → con ≠ none
  connected : ∀ k conRAII, s.raii k = .built conRAII → conRAII ≠ none
  owner : ∀ j k con, s.raii j = .built (some con) → s.raii k = .built (some con) → j = k

/-! ### What the pool of connections knows of a worker -/

/-- Where a worker is in the functions of the pool of connections, and what it holds. -/
def Fits : ConnectionRAII γ → ConnectionPool.Client γ → Prop
  | .before, c => c = ⟨.outside, []⟩
  | .constructing, c => c = ⟨.checked, []⟩ ∨ c = ⟨.waited, []⟩
  | .got con, c | .built con, c => c = ⟨.outside, [con]⟩
  | .stored, c => ∃ con, c = ⟨.outside, [con]⟩
  | .destructing, c => c = ⟨.pushed, []⟩
  | .destroyed, c => c = ⟨.outside, []⟩

/-- What a worker keeps from the others, in the list or in the semaphore. -/
def busy (c : ConnectionPool.Client γ) : ℕ := Multiset.card c.lent + c.waiting + c.posting

theorem Fits.busy_le {r : ConnectionRAII γ} {c : ConnectionPool.Client γ} (h : Fits r c) :
  busy c ≤ 1
  := by
  have hone (con : Option γ) : busy ⟨.outside, [con]⟩ ≤ 1 := by
    cases con with
    | none => apply Nat.zero_le 1
    | some con => apply Nat.le_refl 1
  cases r with
  | before | destroyed =>
      obtain rfl := h
      apply Nat.zero_le 1
  | constructing =>
      rcases h with rfl | rfl
      · apply Nat.zero_le 1
      · apply Nat.le_refl 1
  | got con | built con =>
      obtain rfl := h
      apply hone
  | stored =>
      obtain ⟨con, rfl⟩ := h
      apply hone
  | destructing =>
      obtain rfl := h
      apply Nat.le_refl 1

/-- Two functions that fit are changed for one worker. -/
theorem fits_update [DecidableEq κ] {raii : κ → ConnectionRAII γ}
    {clients : κ → ConnectionPool.Client γ} (h : ∀ j, Fits (raii j) (clients j)) {k : κ}
    {r : ConnectionRAII γ} {c : ConnectionPool.Client γ} (hk : Fits r c) (j : κ) :
  Fits (Function.update raii k r j) (Function.update clients k c j)
  := by
  by_cases hj : j = k
  · subst hj
    rw [Function.update_self, Function.update_self]
    exact hk
  · rw [Function.update_of_ne hj, Function.update_of_ne hj]
    apply h j

variable [Fintype κ]

/-- The connections `conns` are those of the pool, each worker is in its functions as its
`connectionRAII` says, and what it has stored is still there.  A worker that waits for a
connection has seen one, and nobody gets null when there are enough of them. -/
structure Inv (object : α → β) (conns : List γ) (s : Borrowing ι κ γ α β) : Prop where
  pool : s.conns.Inv conns
  fits : ∀ k, Fits (s.raii k) (s.conns.clients k)
  request : ∀ k, s.raii k ≠ .before → ∃ q, s.threads.workers k = .processes q
  stored : ∀ k o, s.readsBack object k = some o → (s.conns.clients k).held = [s.mysql o]
  found : ∀ k, (s.conns.clients k).place = .checked → conns ≠ []
  supply : Fintype.card κ ≤ conns.length → ∀ k, none ∉ (s.conns.clients k).held

variable {object : α → β} {conns : List γ} {s s' : Borrowing ι κ γ α β}

/-- The semaphore counts the connections that no worker keeps from the others. -/
theorem Inv.reserve_add_busy (h : s.Inv object conns) :
  s.conns.reserve + Threads.total busy s.conns.clients = conns.length
  := by
  have hall := congrArg Multiset.card h.pool.all
  have hlength := h.pool.length
  rw [Multiset.card_add, Multiset.coe_card, Multiset.coe_card, ConnectionPool.lent] at hall
  have hbusy : Threads.total busy s.conns.clients
      = Multiset.card (Threads.total ConnectionPool.Client.lent s.conns.clients)
        + Threads.total ConnectionPool.Client.waiting s.conns.clients
        + Threads.total ConnectionPool.Client.posting s.conns.clients := by
    have hcard := Threads.map_total Multiset.cardHom ConnectionPool.Client.lent s.conns.clients
    change Multiset.card _ = _ at hcard
    rw [hcard, ← Threads.total_add, ← Threads.total_add]
    rfl
  omega

/-- A worker that keeps nothing from the others leaves a connection for itself. -/
theorem Inv.reserve_pos (h : s.Inv object conns)
    (hle : Fintype.card κ ≤ conns.length) {k : κ} (hk : busy (s.conns.clients k) = 0) :
  0 < s.conns.reserve
  := by
  have hlt := Threads.total_lt_card (fun j => (h.fits j).busy_le) hk
  have hsum := h.reserve_add_busy
  omega

/-- A worker that is about to call `getConnection` finds a connection in the list. -/
theorem Inv.connList_ne_nil (h : s.Inv object conns)
    (hle : Fintype.card κ ≤ conns.length) {k : κ} (hk : s.raii k = .before) :
  s.conns.connList ≠ []
  := by
  have hfits := h.fits k
  rw [hk] at hfits
  have hpos := h.reserve_pos hle (k := k) (by rw [hfits]; rfl)
  have hlength := h.pool.length
  apply List.ne_nil_of_length_pos
  omega

/-! ### The steps -/

theorem Inv.supplied (h : s.Inv object conns) (hconns : conns.Nodup)
    (hle : Fintype.card κ ≤ conns.length) :
  s.Supplied
  := by
  have hconserved := h.pool.conserved hconns
  have hheld : ∀ {k con}, s.raii k = .built (some con) → some con ∈ (s.conns.clients k).held := by
    intro k con hk
    have hfits := h.fits k
    rw [hk] at hfits
    rw [hfits]
    apply List.mem_singleton_self _
  have hsome : ∀ {k con}, s.conns.clients k = ⟨.outside, [con]⟩ → con ≠ none := by
    rintro k _ hclient rfl
    apply h.supply hle k
    rw [hclient]
    apply List.mem_singleton_self _
  refine ⟨?_, ?_, ?_, ?_, ?_⟩
  · intro k request _ hk
    apply h.connList_ne_nil hle hk
  · intro k hk hplace
    have hfits := h.fits k
    rw [hk] at hfits
    rcases hfits with hclient | hclient
    · apply h.reserve_pos hle (k := k) (by rw [hclient]; rfl)
    · rw [hclient] at hplace
      cases hplace
  · intro k con hk
    have hfits := h.fits k
    rw [hk] at hfits
    apply hsome hfits
  · intro k conRAII hk
    have hfits := h.fits k
    rw [hk] at hfits
    apply hsome hfits
  · intro j k con hj hk
    apply hconserved.owner j k con (hheld hj) (hheld hk)

omit [Fintype κ] in
/-- A worker that goes on, and has not just stored its connection, leaves to the others what they
have yet to read back. -/
theorem readsBack_of_ne {t : Borrowing ι κ γ α β} {k : κ}
    (hworkers : ∀ j, j ≠ k → t.threads.workers j = s.threads.workers j)
    (hraii : ∀ j, j ≠ k → t.raii j = s.raii j) (hk : t.raii k ≠ .stored) {j : κ} {o : β}
    (h : t.readsBack object j = some o) :
  j ≠ k ∧ s.readsBack object j = some o
  := by
  obtain ⟨q, hw, hj, rfl⟩ := readsBack_eq_some.mp h
  have hne : j ≠ k := by
    rintro rfl
    apply hk hj
  rw [hworkers j hne] at hw
  rw [hraii j hne] at hj
  exact ⟨hne, readsBack_eq_some.mpr ⟨q, hw, hj, rfl⟩⟩

/-- A worker that has no `connectionRAII` goes on in its loop. -/
theorem Inv.goOn (h : s.Inv object conns) {k : κ} (hk : s.raii k = .before)
    {threads : ThreadPool ι κ α} (hworkers : ∀ j, j ≠ k → threads.workers j = s.threads.workers j) :
  Inv object conns { s with threads := threads }
  := by
  refine ⟨h.pool, h.fits, fun j hj => ?_, fun j o hj => ?_, h.found, h.supply⟩
  · have hne : j ≠ k := by
      rintro rfl
      apply hj hk
    change ∃ q, threads.workers j = .processes q
    rw [hworkers j hne]
    exact h.request j hj
  · have hnot : s.raii k ≠ .stored := by
      rw [hk]
      exact fun h => by cases h
    exact h.stored j o (readsBack_of_ne (t := { s with threads := threads }) hworkers
      (fun _ _ => rfl) hnot hj).2

/-- A worker without a request has no `connectionRAII`. -/
theorem Inv.before (h : s.Inv object conns) {k : κ} (hk : ∀ q, s.threads.workers k ≠ .processes q) :
  s.raii k = .before
  := by
  by_contra hne
  obtain ⟨q, hq⟩ := h.request k hne
  exact hk q hq

variable [DecidableEq κ]

/-- A worker goes on with its `connectionRAII`, and in the pool of connections. -/
theorem Inv.settle (h : s.Inv object conns) {k : κ} {q : α}
    (hw : s.threads.workers k = .processes q) {pool : ConnectionPool κ γ}
    (hpool : pool.Inv conns) {r : ConnectionRAII γ}
    {c : ConnectionPool.Client γ} (hclients : pool.clients = Function.update s.conns.clients k c)
    (hfits : Fits r c) (hr : r ≠ .stored) (hfound : c.place = .checked → conns ≠ [])
    (hsupply : Fintype.card κ ≤ conns.length → none ∉ c.held) :
  (s.settle k pool r).Inv object conns
  := by
  have hother {j : κ} (hj : j ≠ k) : (s.settle k pool r).raii j = s.raii j :=
    Function.update_of_ne hj ..
  refine ⟨hpool, fun j => ?_, fun j hj => ?_, fun j o hj => ?_, fun j => ?_, fun hle j => ?_⟩
  · change Fits (Function.update s.raii k r j) (pool.clients j)
    rw [hclients]
    apply fits_update h.fits hfits j
  · by_cases hjk : j = k
    · exact ⟨q, hjk ▸ hw⟩
    · rw [hother hjk] at hj
      exact h.request j hj
  · have hk : (s.settle k pool r).raii k ≠ .stored := by
      change Function.update s.raii k r k ≠ _
      rw [Function.update_self]
      exact hr
    obtain ⟨hne, hj⟩ := readsBack_of_ne (s := s) (t := s.settle k pool r) (fun _ _ => rfl)
      (fun _ => hother) hk hj
    change (pool.clients j).held = _
    rw [hclients, Function.update_of_ne hne]
    exact h.stored j o hj
  · change (pool.clients j).place = .checked → _
    rw [hclients]
    by_cases hjk : j = k
    · rwa [hjk, Function.update_self]
    · rw [Function.update_of_ne hjk]
      exact h.found j
  · change none ∉ (pool.clients j).held
    rw [hclients]
    by_cases hjk : j = k
    · rw [hjk, Function.update_self]
      exact hsupply hle
    · rw [Function.update_of_ne hjk]
      exact h.supply hle j

/-- A worker goes on with its `connectionRAII` only. -/
theorem Inv.setRaii (h : s.Inv object conns) {k : κ} {q : α}
    (hw : s.threads.workers k = .processes q) {r : ConnectionRAII γ}
    (hfits : Fits r (s.conns.clients k)) (hr : r ≠ .stored) :
  (s.settle k s.conns r).Inv object conns
  := h.settle hw h.pool (Function.update_eq_self k _).symm hfits hr (h.found k)
    fun hle => h.supply hle k

/-- A worker reads its connection back. -/
theorem Inv.load (h : s.Inv object conns) {k : κ} {q : α}
    (hw : s.threads.workers k = .processes q) (hk : s.raii k = .stored) :
  (s.settle k s.conns (.built (s.mysql (object q)))).Inv object conns
  := by
  have hheld := h.stored k _ (readsBack_eq_some.mpr ⟨q, hw, hk, rfl⟩)
  have hfits := h.fits k
  rw [hk] at hfits
  obtain ⟨con, hclient⟩ := hfits
  rw [hclient] at hheld
  obtain rfl : con = s.mysql (object q) := List.singleton_inj.mp hheld
  exact h.setRaii hw hclient (fun hr => by cases hr)

section Queue

variable [DecidableEq ι]

/-- A step of the thread pool. -/
theorem Inv.queue (h : s.Inv object conns) {e : ThreadPoolEvent ι κ α} {threads : ThreadPool ι κ α}
    (he : ∀ k, e ≠ .done k) (hthreads : s.threads.step e = some threads) :
  Inv object conns { s with threads := threads }
  := by
  cases ThreadPool.steps_of_step hthreads with
  | refuse | append | post =>
      exact ⟨h.pool, h.fits, h.request, h.stored, h.found, h.supply⟩
  | wait hk | idle hk | pop hk =>
      have hbefore := h.before (fun q hq => by cases hk.symm.trans hq)
      exact h.goOn hbefore fun j hj => Function.update_of_ne hj ..
  | done => exact absurd rfl (he _)

/-- A worker goes back to its loop. -/
theorem Inv.done (h : s.Inv object conns) {k : κ} (hk : s.raii k = .destroyed)
    {threads : ThreadPool ι κ α} (hthreads : s.threads.step (.done k) = some threads) :
  Inv object conns { s with threads := threads, raii := Function.update s.raii k .before }
  := by
  have hfits := h.fits k
  rw [hk] at hfits
  cases ThreadPool.steps_of_step hthreads with
  | @done _ q hw =>
      have hsettled := h.setRaii (r := .before) hw hfits (fun hr => by cases hr)
      exact hsettled.goOn (Function.update_self ..) fun j hj => Function.update_of_ne hj ..

end Queue

section Connections

variable [DecidableEq γ]

/-- A worker calls `getConnection`. -/
theorem Inv.check (h : s.Inv object conns) {k : κ} {q : α}
    (hw : s.threads.workers k = .processes q) (hk : s.raii k = .before)
    {pool : ConnectionPool κ γ} (hpool : s.conns.step (.check k) = some pool) :
  (s.settle k pool (checked pool k)).Inv object conns
  := by
  have hfits := h.fits k
  rw [hk] at hfits
  cases ConnectionPool.steps_of_step hpool with
  | refuse hi hlist =>
      obtain ⟨-, rfl⟩ := ConnectionPool.Client.mk.inj (hi.symm.trans hfits)
      rw [checked_eq_got (Function.update_self ..)]
      exact h.settle hw (h.pool.step hpool) rfl rfl (fun hr => by cases hr) (fun hc => by cases hc)
        fun hle => absurd hlist (h.connList_ne_nil hle hk)
  | check hi hlist =>
      obtain ⟨-, rfl⟩ := ConnectionPool.Client.mk.inj (hi.symm.trans hfits)
      rw [checked_eq_constructing (Function.update_self ..)]
      exact h.settle hw (h.pool.step hpool) rfl (.inl rfl) (fun hr => by cases hr)
        (fun _ => h.pool.conns_ne_nil hlist) fun _ => List.not_mem_nil

/-- A worker waits for the semaphore. -/
theorem Inv.wait (h : s.Inv object conns) {k : κ} (hk : s.raii k = .constructing)
    {pool : ConnectionPool κ γ} (hpool : s.conns.step (.wait k) = some pool) :
  (s.settle k pool .constructing).Inv object conns
  := by
  obtain ⟨q, hw⟩ := h.request k (fun hr => by cases hk.symm.trans hr)
  have hfits := h.fits k
  rw [hk] at hfits
  cases ConnectionPool.steps_of_step hpool with
  | wait hi hn =>
      rcases hfits with hclient | hclient
      · obtain ⟨-, rfl⟩ := ConnectionPool.Client.mk.inj (hi.symm.trans hclient)
        exact h.settle hw (h.pool.step hpool) rfl (.inr rfl) (fun hr => by cases hr)
          (fun hc => by cases hc) fun _ => List.not_mem_nil
      · cases hi.symm.trans hclient

/-- A worker takes a connection. -/
theorem Inv.take (h : s.Inv object conns) {k : κ} (hk : s.raii k = .constructing)
    {pool : ConnectionPool κ γ} (hpool : s.conns.step (.take k) = some pool) :
  (s.settle k pool (.got (returned pool k))).Inv object conns
  := by
  obtain ⟨q, hw⟩ := h.request k (fun hr => by cases hk.symm.trans hr)
  have hfits := h.fits k
  rw [hk] at hfits
  cases ConnectionPool.steps_of_step hpool with
  | @take _ held con rest hi hlist =>
      rcases hfits with hclient | hclient
      · cases hi.symm.trans hclient
      · obtain ⟨-, rfl⟩ := ConnectionPool.Client.mk.inj (hi.symm.trans hclient)
        rw [returned_eq (Function.update_self ..)]
        exact h.settle hw (h.pool.step hpool) rfl rfl (fun hr => by cases hr)
          (fun hc => by cases hc) fun _ hnone => by simp at hnone

/-- A worker calls `releaseConnection`. -/
theorem Inv.release (h : s.Inv object conns) {k : κ} {conRAII : Option γ}
    (hk : s.raii k = .built conRAII) :
  (s.settle k (s.conns.releaseConnection k conRAII)
    (if conRAII.isSome then .destructing else .destroyed)).Inv object conns
  := by
  obtain ⟨q, hw⟩ := h.request k (fun hr => by cases hk.symm.trans hr)
  have hfits := h.fits k
  rw [hk] at hfits
  have hpool := h.pool.step (ConnectionPool.step_release (by rw [hfits])
    (by rw [hfits]; apply List.mem_singleton_self conRAII))
  have hheld : (s.conns.clients k).held.erase conRAII = [] := by
    rw [hfits, List.erase_cons_head]
  cases conRAII with
  | none =>
      refine h.settle (c := ⟨.outside, []⟩) hw hpool ?_ rfl (fun hr => by cases hr)
        (fun hc => by cases hc) fun _ => List.not_mem_nil
      rw [ConnectionPool.releaseConnection, hheld]
  | some con =>
      refine h.settle (c := ⟨.pushed, []⟩) hw hpool ?_ rfl (fun hr => by cases hr)
        (fun hc => by cases hc) fun _ => List.not_mem_nil
      rw [ConnectionPool.releaseConnection, hheld]

/-- A worker posts the semaphore. -/
theorem Inv.post (h : s.Inv object conns) {k : κ} (hk : s.raii k = .destructing)
    {pool : ConnectionPool κ γ} (hpool : s.conns.step (.post k) = some pool) :
  (s.settle k pool .destroyed).Inv object conns
  := by
  obtain ⟨q, hw⟩ := h.request k (fun hr => by cases hk.symm.trans hr)
  have hfits := h.fits k
  rw [hk] at hfits
  cases ConnectionPool.steps_of_step hpool with
  | post hi =>
      obtain ⟨-, rfl⟩ := ConnectionPool.Client.mk.inj (hi.symm.trans hfits)
      exact h.settle hw (h.pool.step hpool) rfl rfl (fun hr => by cases hr)
        (fun hc => by cases hc) fun _ => List.not_mem_nil

end Connections

section Mysql

variable [DecidableEq β]

/-- A worker stores its connection where no other worker has one to read back. -/
theorem Inv.store (h : s.Inv object conns) {k : κ} {q : α} {con : Option γ}
    (hw : s.threads.workers k = .processes q) (hk : s.raii k = .got con)
    (hundisturbed : s.Undisturbed object (.store k)) :
  Inv object conns { s with
    mysql := Function.update s.mysql (object q) con
    raii := Function.update s.raii k .stored }
  := by
  have hfits := h.fits k
  rw [hk] at hfits
  refine ⟨h.pool, fun j => ?_, fun j hj => ?_, fun j o hj => ?_, h.found, h.supply⟩
  · have hj := fits_update h.fits (k := k) (r := .stored) ⟨con, hfits⟩ j
    rwa [Function.update_eq_self] at hj
  · by_cases hjk : j = k
    · exact ⟨q, hjk ▸ hw⟩
    · dsimp only at hj
      rw [Function.update_of_ne hjk] at hj
      exact h.request j hj
  · obtain ⟨q', hw', hraii, rfl⟩ := readsBack_eq_some.mp hj
    change (s.conns.clients j).held = [Function.update s.mysql (object q) con (object q')]
    by_cases hjk : j = k
    · subst hjk
      obtain rfl := ThreadPool.Worker.processes.inj (hw'.symm.trans hw)
      rw [hfits, Function.update_self]
    · replace hraii := (Function.update_of_ne hjk ..).symm.trans hraii
      have hback : s.readsBack object j = some (object q') :=
        readsBack_eq_some.mpr ⟨q', hw', hraii, rfl⟩
      have hne : object q' ≠ object q := by
        intro heq
        have hwrites : s.writes object (.store k) = some (object q) := by rw [writes, hw]
        apply hundisturbed j (by rw [hback]; rfl)
        rw [hback, hwrites, heq]
      rw [Function.update_of_ne hne]
      exact h.stored j _ hback

omit [DecidableEq κ] in
/-- `main` calls `init()` of an object that no worker has yet to read back from. -/
theorem Inv.init (h : s.Inv object conns) {q : α} (hundisturbed : s.Undisturbed object (.init q)) :
  Inv object conns { s with mysql := Function.update s.mysql (object q) none }
  := by
  refine ⟨h.pool, h.fits, h.request, fun k o hk => ?_, h.found, h.supply⟩
  change s.readsBack object k = some o at hk
  have hne : o ≠ object q := by
    rintro rfl
    apply hundisturbed k (by rw [hk]; rfl)
    rw [hk]
    rfl
  change _ = [Function.update s.mysql (object q) none o]
  rw [Function.update_of_ne hne]
  exact h.stored k o hk

end Mysql

variable [DecidableEq ι] [DecidableEq γ] [DecidableEq β]

/-- A step that writes no `mysql` that another worker has yet to read back. -/
theorem Inv.step (h : s.Inv object conns)
    {e : BorrowingEvent ι κ α} (hundisturbed : s.Undisturbed object e)
    (hs' : s.step object e = some s') :
  s'.Inv object conns
  := by
  cases steps_of_step hs' with
  | queue he hthreads => exact h.queue he hthreads
  | done hk hthreads => exact h.done hk hthreads
  | init => exact h.init hundisturbed
  | check hw hk hpool => exact h.check hw hk hpool
  | wait hk hpool => exact h.wait hk hpool
  | take hk hpool => exact h.take hk hpool
  | store hw hk => exact h.store hw hk hundisturbed
  | load hw hk => exact h.load hw hk
  | release hk => exact h.release hk
  | post hk hpool => exact h.post hk hpool

/-! ### Runs -/

omit [DecidableEq ι] [DecidableEq κ] [DecidableEq γ] [DecidableEq β] in
/-- The connections are in the list, whatever the thread pool starts with. -/
theorem start_inv (object : α → β) {connect : ℕ → Option γ} {maxconn : ℤ}
    {conns : ConnectionPool κ γ} (threads : ThreadPool ι κ α)
    (hconns : ConnectionPool.init connect maxconn = some conns) :
  (start threads conns).Inv object conns.connList
  := by
  obtain ⟨hpool, -, hclients⟩ := ConnectionPool.init_inv hconns
  refine ⟨hpool, fun k => ?_, fun k hk => absurd rfl hk, fun k o hk => ?_, fun k hk => ?_,
    fun _ k hk => ?_⟩
  · change Fits .before (conns.clients k)
    rw [hclients]
    rfl
  · obtain ⟨q, -, hstored, -⟩ := readsBack_eq_some.mp hk
    cases hstored
  · change (conns.clients k).place = .checked at hk
    rw [hclients] at hk
    cases hk
  · change none ∈ (conns.clients k).held at hk
    rw [hclients] at hk
    cases hk

omit [Fintype κ] in
/-- Two workers that are to read back the same `mysql` have the same connection then. -/
theorem exists_shared {j k : κ} {q q' : α} {con : γ} (hjk : j ≠ k)
    (hwj : s.threads.workers j = .processes q') (hwk : s.threads.workers k = .processes q)
    (hj : s.raii j = .stored) (hk : s.raii k = .stored) (ho : object q' = object q)
    (hcon : s.mysql (object q) = some con) :
  ∃ es t, Run.exec (step object) s es = some t ∧ ¬ t.Supplied
  := by
  have hback : (s.settle j s.conns (.built (s.mysql (object q')))).raii k = .stored :=
    (Function.update_of_ne hjk.symm ..).trans hk
  refine ⟨[.load j, .load k], _, Run.exec_cons.mpr ⟨_, step_load object hwj hj,
    Run.exec_cons.mpr ⟨_, step_load object hwk hback, rfl⟩⟩, fun hsupplied => ?_⟩
  apply hjk
  apply hsupplied.owner j k con
  · have hself : Function.update s.raii j (.built (s.mysql (object q'))) j = .built (some con) := by
      rw [Function.update_self, ho, hcon]
    exact (Function.update_of_ne hjk ..).trans hself
  · exact (Function.update_self ..).trans (congrArg ConnectionRAII.built hcon)

/-- A worker that reads back what another one has stored has the same connection, and one that
reads back null has none. -/
theorem Inv.disturbed (h : s.Inv object conns) (hle : Fintype.card κ ≤ conns.length)
    {e : BorrowingEvent ι κ α} (hdisturbed : ¬ s.Undisturbed object e)
    (hs' : s.step object e = some s') :
  ∃ es t, Run.exec (Borrowing.step object) s' es = some t ∧ ¬ t.Supplied
  := by
  rw [Undisturbed] at hdisturbed
  push Not at hdisturbed
  obtain ⟨j, hsome, hwrites⟩ := hdisturbed
  obtain ⟨o, hback⟩ := Option.isSome_iff_exists.mp hsome
  rw [hback] at hwrites
  obtain ⟨q', hw', hj, rfl⟩ := readsBack_eq_some.mp hback
  cases steps_of_step hs' with
  | @init q =>
      have ho : object q' = object q := Option.some.inj hwrites
      have hload := step_load object
        (s := { s with mysql := Function.update s.mysql (object q) none }) hw' hj
      refine ⟨[.load j], _, Run.exec_cons.mpr ⟨_, hload, rfl⟩, fun hsupplied => ?_⟩
      apply hsupplied.connected j none _ rfl
      change Function.update s.raii j _ j = _
      rw [Function.update_self]
      change ConnectionRAII.built (Function.update s.mysql (object q) none (object q')) = _
      rw [ho, Function.update_self]
  | @store k q con hw hk =>
      rw [writes, hw] at hwrites
      have ho : object q' = object q := Option.some.inj hwrites
      have hfits := h.fits k
      rw [hk] at hfits
      have hcon : con ≠ none := by
        rintro rfl
        apply h.supply hle k
        rw [hfits]
        apply List.mem_singleton_self _
      obtain ⟨con, rfl⟩ := Option.ne_none_iff_exists'.mp hcon
      have hjk : j ≠ k := by
        rintro rfl
        cases hj.symm.trans hk
      exact exists_shared (s := { s with
          mysql := Function.update s.mysql (object q) (some con)
          raii := Function.update s.raii k .stored })
        hjk hw' hw ((Function.update_of_ne hjk ..).trans hj) (Function.update_self ..) ho
        (Function.update_self ..)
  | queue | done | check | wait | take | load | release | post => cases hwrites

/-- When there are no fewer connections than workers, the workers are supplied in every state of a
run in which no step writes a `mysql` that another worker has yet to read back, whatever the
thread pool starts with.  After the first step that does, some steps lead to a state in which they
are not. -/
theorem supplied_throughout (object : α → β) {connect : ℕ → Option γ} {maxconn : ℤ}
    {conns : ConnectionPool κ γ} (threads : ThreadPool ι κ α)
    (hconns : ConnectionPool.init connect maxconn = some conns)
    (hdistinct : Set.InjOn connect (Set.Iio maxconn.toNat))
    (hle : (Fintype.card κ : ℤ) ≤ maxconn) (es : List (BorrowingEvent ι κ α)) :
  (Run.Along (step object) (Undisturbed object) (start threads conns) es →
      Run.Throughout (step object) Supplied (start threads conns) es) ∧
    ∀ s e s', Run.Along (step object) (Undisturbed object) (start threads conns) es →
      Run.exec (step object) (start threads conns) es = some s → step object s e = some s' →
      ¬ s.Undisturbed object e → ∃ es' t, Run.exec (step object) s' es' = some t ∧ ¬ t.Supplied
  := by
  obtain ⟨-, hlist, -⟩ := ConnectionPool.init_inv hconns
  have hlength : conns.connList.length = maxconn.toNat := by
    have hlen := congrArg List.length hlist
    rwa [List.length_map, List.length_map, List.length_range] at hlen
  have hcard : Fintype.card κ ≤ conns.connList.length := by omega
  have keep (s : Borrowing ι κ γ α β) (e : BorrowingEvent ι κ α) (s' : Borrowing ι κ γ α β)
      (hs : s.Inv object conns.connList) (he : s.Undisturbed object e)
      (hs' : step object s e = some s') : s'.Inv object conns.connList := hs.step he hs'
  have hstart := start_inv object threads hconns
  constructor
  · intro hundisturbed
    apply Run.throughout_of_along keep _ hstart hundisturbed
    intro s hs
    apply hs.supplied (ConnectionPool.init_nodup hconns hdistinct) hcard
  · intro s e s' hundisturbed hs hs' hdisturbed
    apply (Run.exec_invariant keep hstart hundisturbed hs).disturbed hcard hdisturbed hs'

/-- Two workers take two requests, and each constructs its `connectionRAII`. -/
def borrows (q q' : ℕ) : List (BorrowingEvent Unit Bool ℕ) :=
  [.queue (.append () (some q)), .queue (.post ()), .queue (.append () (some q')),
    .queue (.post ()), .queue (.wait false), .queue (.pop false), .queue (.wait true),
    .queue (.pop true), .check false, .check true, .wait false, .wait true, .take false, .take true,
    .store false, .store true, .load false, .load true]

/-- The thread pool with two workers, before the first request. -/
def twoWorkers : ThreadPool Unit Bool ℕ :=
  ⟨2, [], 0, fun _ => .outside, fun _ => .waits, [], [], []⟩

theorem supplied_throughout_two :
  ∃ conns : ConnectionPool Bool ℕ, ConnectionPool.init some 2 = some conns ∧
    Run.Throughout (step id) Supplied (start twoWorkers conns) (borrows 7 8)
  := by
  obtain ⟨conns, hconns⟩ : ∃ conns : ConnectionPool Bool ℕ,
    ConnectionPool.init some 2 = some conns := ⟨_, rfl⟩
  have hundisturbed : (ConnectionPool.init some 2).map (fun conns : ConnectionPool Bool ℕ =>
      decide (Run.Along (step id) (Undisturbed id) (start twoWorkers conns) (borrows 7 8)))
      = some true := by
    decide +kernel
  rw [hconns] at hundisturbed
  exact ⟨conns, hconns, (supplied_throughout id twoWorkers hconns (fun _ _ _ _ => Option.some.inj)
    le_rfl (borrows 7 8)).1 (of_decide_eq_true (Option.some.inj hundisturbed))⟩

/-- Two workers with the same request: both have the connection that was stored last. -/
theorem not_supplied :
  ¬ ∀ (maxconn : ℤ) (conns : ConnectionPool Bool ℕ) (es : List (BorrowingEvent Unit Bool ℕ)),
    ConnectionPool.init some maxconn = some conns → (Fintype.card Bool : ℤ) ≤ maxconn →
      Run.Throughout (step id) Supplied (start twoWorkers conns) es
  := by
  intro h
  obtain ⟨conns, hconns⟩ : ∃ conns : ConnectionPool Bool ℕ,
    ConnectionPool.init some 2 = some conns := ⟨_, rfl⟩
  have hrun := h 2 conns (borrows 7 7) hconns le_rfl
  have hboth : ((ConnectionPool.init some 2).bind fun conns : ConnectionPool Bool ℕ =>
      (Run.exec (step id) (start twoWorkers conns) (borrows 7 7)).map fun s =>
        decide (s.raii false = .built (some 1) ∧ s.raii true = .built (some 1))) = some true := by
    decide +kernel
  rw [hconns, Option.bind_some] at hboth
  obtain ⟨s, hs, hboth⟩ := Option.map_eq_some_iff.mp hboth
  obtain ⟨hfalse, htrue⟩ := of_decide_eq_true hboth
  cases (Run.throughout_end hrun hs).owner false true 1 hfalse htrue

end Borrowing

end WebServer
