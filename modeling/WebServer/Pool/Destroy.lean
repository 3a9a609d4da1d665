import WebServer.Pool.ConnectionPool

/-!
# Destroying the pool of connections

`destroyPool` runs in the lock: it closes the connections that are in `connList` and sets both
counters to zero, but it leaves the list as it is, and the connections that are lent out.  The
destructor calls it once more.  The machine keeps what was passed to `mysql_close`, and the
connections that `getConnection` returned when they were closed already.

As long as `destroyPool` is called only when all connections are lent out, it does nothing, and
the destructor is the first one to close a connection (`sound_iff`).
-/

namespace WebServer

universe u v

namespace ConnectionPool

/-- The pool with the connections that were passed to `mysql_close`, and those that
`getConnection` returned when they were closed already. -/
structure Ledger (ι : Type v) (γ : Type u) extends ConnectionPool ι γ where
  closed : List γ
  stale : List γ

/-- A step of `getConnection` or `releaseConnection`, or a call of `destroyPool`. -/
inductive Call (ι : Type v) (γ : Type u) where
  | use (e : ConnectionPoolEvent ι γ)
  | destroyPool

namespace Ledger

variable {ι : Type v} {γ : Type u}

/-- The pool behind `init`. -/
def opened (pool : ConnectionPool ι γ) : Ledger ι γ where
  toConnectionPool := pool
  closed := []
  stale := []

/-- `connection_pool::destroyPool`, which is all that the destructor calls. -/
def destroyPool (s : Ledger ι γ) : Ledger ι γ :=
  if 0 < s.connList.length then
    { s with
      closed := s.closed ++ s.connList
      curConn := 0
      freeConn := 0 }
  else
    s

/-- What a step of `getConnection` returns, when it takes a connection. -/
def taken (s : Ledger ι γ) : ConnectionPoolEvent ι γ → Option γ
  | .take _ => s.connList.head?
  | .check _ => none
  | .wait _ => none
  | .release _ _ => none
  | .post _ => none

variable [DecidableEq ι] [DecidableEq γ]

/-- A step of one of the threads, or a call of `destroyPool` by one of them. -/
def step (s : Ledger ι γ) : Call ι γ → Option (Ledger ι γ)
  | .use e =>
    (s.toConnectionPool.step e).map fun pool =>
      { toConnectionPool := pool
        closed := s.closed
        stale := s.stale ++ (s.taken e).toList.filter (· ∈ s.closed) }
  | .destroyPool => some s.destroyPool

/-- The pool is used well: the destructor would close no connection that is closed,
`getConnection` returned none that was, and the counters are those of the connections in the
list and of those that are lent out. -/
structure Sound [Fintype ι] (s : Ledger ι γ) : Prop where
  once : s.destroyPool.closed.Nodup
  live : s.stale = []
  free : s.freeConn = s.connList.length
  cur : s.curConn = Multiset.card s.lent

/-- `destroyPool` is called only when all connections are lent out. -/
def AllLent (s : Ledger ι γ) : Call ι γ → Prop
  | .use _ => True
  | .destroyPool => s.connList = []

instance (s : Ledger ι γ) : ∀ e, Decidable (s.AllLent e)
  | .use _ => inferInstanceAs (Decidable True)
  | .destroyPool => inferInstanceAs (Decidable (s.connList = []))

omit [DecidableEq ι] [DecidableEq γ] in
theorem destroyPool_of_nil {s : Ledger ι γ} (h : s.connList = []) :
  s.destroyPool = s
  := by
  rw [destroyPool, h]
  rfl

omit [DecidableEq ι] [DecidableEq γ] in
theorem destroyPool_of_ne {s : Ledger ι γ} (h : s.connList ≠ []) :
  s.destroyPool =
    { s with closed := s.closed ++ s.connList, curConn := 0, freeConn := 0 }
  := if_pos (List.length_pos_iff.mpr h)

omit [DecidableEq ι] [DecidableEq γ] in
/-- The connections that `destroyPool` closed are closed again by the destructor. -/
theorem not_nodup_destroyPool {s : Ledger ι γ} (h : s.connList ≠ []) :
  ¬ s.destroyPool.destroyPool.closed.Nodup
  := by
  have hlist : s.destroyPool.connList = s.connList := by
    rw [destroyPool_of_ne h]
  have hclosed : s.destroyPool.destroyPool.closed = s.closed ++ s.connList ++ s.connList := by
    rw [destroyPool_of_ne (hlist ▸ h), destroyPool_of_ne h]
  obtain ⟨con, hcon⟩ := List.exists_mem_of_ne_nil _ h
  rw [hclosed]
  intro hnodup
  exact (List.nodup_append.mp hnodup).2.2 con (List.mem_append_right _ hcon) con hcon rfl

/-! ### Runs in which nothing is closed -/

variable [Fintype ι]

/-- Nothing was closed yet, and the pool has its connections. -/
structure Intact (conns : List γ) (s : Ledger ι γ) : Prop where
  inv : s.toConnectionPool.Inv conns
  closed : s.closed = []
  stale : s.stale = []

omit [DecidableEq ι] [DecidableEq γ] in
theorem Intact.sound {conns : List γ} {s : Ledger ι γ} (h : s.Intact conns)
    (hconns : conns.Nodup) :
  s.Sound
  := by
  have hconserved := h.inv.conserved hconns
  refine ⟨?_, h.stale, h.inv.free, h.inv.cur⟩
  by_cases hlist : s.connList = []
  · rw [destroyPool_of_nil hlist, h.closed]
    apply List.nodup_nil
  · rw [destroyPool_of_ne hlist]
    change (s.closed ++ s.connList).Nodup
    rw [h.closed, List.nil_append]
    apply hconserved.nodup

theorem Intact.step {conns : List γ} {s s' : Ledger ι γ} (h : s.Intact conns) {e : Call ι γ}
    (he : s.AllLent e) (hs' : s.step e = some s') :
  s'.Intact conns
  := by
  cases e with
  | use e =>
      obtain ⟨pool, hpool, rfl⟩ := Option.map_eq_some_iff.mp hs'
      refine ⟨h.inv.step hpool, h.closed, ?_⟩
      change s.stale ++ (s.taken e).toList.filter (· ∈ s.closed) = []
      rw [h.stale, h.closed, List.nil_append, List.filter_eq_nil_iff]
      intro con _
      simp
  | destroyPool =>
      obtain rfl := Option.some.inj hs'
      rw [destroyPool_of_nil he]
      exact h

/-- Behind a call of `destroyPool` that closes connections, the destructor closes them
again. -/
theorem not_sound_of_destroyPool {s s' : Ledger ι γ} {e : Call ι γ} (he : ¬ s.AllLent e)
    (hs' : s.step e = some s') :
  ¬ s'.Sound
  := by
  cases e with
  | use e => exact absurd trivial he
  | destroyPool =>
      obtain rfl := Option.some.inj hs'
      intro h
      apply not_nodup_destroyPool he h.once

/-- The pool is used well throughout a run, and by the destructor behind it, exactly when
`destroyPool` is called only when all connections are lent out. -/
theorem sound_iff {connect : ℕ → Option γ} {maxconn : ℤ} {pool : ConnectionPool ι γ}
    (hpool : init connect maxconn = some pool)
    (hdistinct : Set.InjOn connect (Set.Iio maxconn.toNat)) {es : List (Call ι γ)}
    {s : Ledger ι γ} (h : Run.exec step (opened pool) es = some s) :
  Run.Throughout step Sound (opened pool) es ↔ Run.Along step AllLent (opened pool) es
  := by
  have hnodup := init_nodup hpool hdistinct
  apply Run.throughout_iff_along (I := Intact pool.connList) _ _ (fun s hs => hs.sound hnodup) _ h
  · intro s e s' hs he hs'
    apply hs.step he hs'
  · intro s e s' _ he hs'
    apply not_sound_of_destroyPool he hs'
  · exact ⟨(init_inv hpool).1, rfl, rfl⟩

/-- A connection is lent out while `destroyPool` is called, and released behind it. -/
theorem sound_iff_one :
  ∃ pool : ConnectionPool (Fin 2) ℕ, init (fun _ => some 5) 1 = some pool ∧
    Run.Throughout step Sound (opened pool) [.use (.check 0), .use (.wait 0), .use (.take 0),
      .destroyPool, .use (.release 0 (some 5)), .use (.post 0)]
  := by
  refine ⟨_, rfl, (@sound_iff (Fin 2) ℕ _ _ _ (fun _ => some 5) 1 _ rfl ?_ _ _ rfl).mpr ?_⟩
  · intro i hi j hj _
    simp at hi hj
    omega
  · decide

/-- `getConnection` as a whole. -/
def getConnection (i : ι) : List (Call ι γ) :=
  [.use (.check i), .use (.wait i), .use (.take i)]

/-- `releaseConnection` as a whole. -/
def releaseConnection (i : ι) (con : γ) : List (Call ι γ) :=
  [.use (.release i (some con)), .use (.post i)]

/-- A connection is lent out, `destroyPool` closes the other one, which `getConnection`
returns then, and both are released. -/
def misused : List (Call (Fin 2) ℕ) :=
  getConnection 0 ++ [.destroyPool] ++ getConnection 0 ++ releaseConnection 0 5 ++
    releaseConnection 0 6

/-- The destructor closes a connection again, `getConnection` returned one that was closed,
and both counters are wrong. -/
theorem exec_misused :
  ∃ pool : ConnectionPool (Fin 2) ℕ, ∃ s,
    init (fun i => some (i + 5)) 2 = some pool ∧ Run.exec step (opened pool) misused = some s ∧
    s.destroyPool.closed = [6, 5, 6] ∧ s.stale = [6] ∧ s.freeConn ≠ s.connList.length ∧
    s.curConn = -1
  := ⟨_, _, rfl, rfl, rfl, rfl, by decide, rfl⟩

/-- Connections that `destroyPool` has closed are closed again and lent out. -/
theorem not_sound :
  ¬ ∀ (connect : ℕ → Option ℕ) (maxconn : ℤ) (pool : ConnectionPool (Fin 2) ℕ)
    (es : List (Call (Fin 2) ℕ)) (s : Ledger (Fin 2) ℕ), init connect maxconn = some pool →
      Set.InjOn connect (Set.Iio maxconn.toNat) → Run.exec step (opened pool) es = some s →
      s.Sound
  := by
  intro h
  obtain ⟨pool, s, hpool, hs, hclosed, -⟩ := exec_misused
  have hdistinct : Set.InjOn (fun i : ℕ => some (i + 5)) (Set.Iio (2 : ℤ).toNat) := by
    intro i _ j _ hij
    apply Nat.add_right_cancel (Option.some.inj hij)
  have honce := (h _ _ pool misused s hpool hdistinct hs).once
  rw [hclosed] at honce
  revert honce
  decide

end Ledger

end ConnectionPool

end WebServer
