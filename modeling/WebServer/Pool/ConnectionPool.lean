import Mathlib.Data.List.ReduceOption
import Mathlib.Data.Multiset.UnionInter
import WebServer.Lib.Run
import WebServer.Lib.Threads

/-!
# The pool of database connections

Any number of threads call `getConnection` and `releaseConnection`.  The steps are the
check of the size, which takes no lock, the wait for the semaphore, the two locked
sections and the post, and they come in any order.  What `getConnection` returns is null
when the list is empty at the check, and a thread may release that too.

A connection is in `connList` or with one thread, and `connList` has as many connections
as the semaphore counts and as threads have waited for and not yet taken, or pushed and
not yet posted (`Inv`).  So a thread that has waited finds a connection in the list.
-/

namespace WebServer

universe u v

/-- Where a thread is: outside of the pool's functions, in `getConnection` behind the
check or behind the wait, or in `releaseConnection` behind the push. -/
inductive ConnectionPool.Place where
  | outside
  | checked
  | waited
  | pushed
  deriving DecidableEq

/-- A thread that uses the pool, with what `getConnection` gave to it and it has not
released. -/
structure ConnectionPool.Client (γ : Type u) where
  place : ConnectionPool.Place
  held : List (Option γ)

/-- The pool with the threads that use it. -/
structure ConnectionPool (ι : Type v) (γ : Type u) where
  maxConn : ℤ
  curConn : ℤ
  freeConn : ℤ
  connList : List γ
  reserve : ℕ
  clients : ι → ConnectionPool.Client γ

/-- A step of one of the threads. -/
inductive ConnectionPoolEvent (ι : Type v) (γ : Type u) where
  /-- `getConnection` looks at the size of the list, and returns null if it is empty. -/
  | check (thread : ι)
  /-- `getConnection` waits for the semaphore. -/
  | wait (thread : ι)
  /-- The locked section of `getConnection`, which then returns. -/
  | take (thread : ι)
  /-- `releaseConnection` up to the end of its locked section, or as a whole if the
  connection is null. -/
  | release (thread : ι) (con : Option γ)
  /-- `releaseConnection` posts the semaphore and returns. -/
  | post (thread : ι)

namespace ConnectionPool

variable {ι : Type v} {γ : Type u}

/-- The pool as its constructor leaves it. -/
def construct : ConnectionPool ι γ where
  maxConn := 0
  curConn := 0
  freeConn := 0
  connList := []
  reserve := 0
  clients := fun _ => ⟨.outside, []⟩

/-- One round of the loop of `init`, with the outcome of `mysql_init` and
`mysql_real_connect`; the program exits if it is null. -/
def openConnection (s : ConnectionPool ι γ) (con : Option γ) : Option (ConnectionPool ι γ) :=
  con.map fun con =>
    { s with connList := s.connList ++ [con], freeConn := s.freeConn + 1 }

/-- The first `n` rounds of the loop. -/
def openAll (connect : ℕ → Option γ) : ℕ → Option (ConnectionPool ι γ)
  | 0 => some construct
  | n + 1 => (openAll connect n).bind fun s => s.openConnection (connect n)

/-- `init` on the pool that was constructed, where `connect i` is what the `i`-th round of
its loop gets from the database. -/
def init (connect : ℕ → Option γ) (maxconn : ℤ) : Option (ConnectionPool ι γ) :=
  (openAll connect maxconn.toNat).map fun s =>
    { s with reserve := s.freeConn.toNat, maxConn := s.freeConn }

section Step

variable [DecidableEq ι] [DecidableEq γ]

/-- A step of one of the threads. -/
def step (s : ConnectionPool ι γ) : ConnectionPoolEvent ι γ → Option (ConnectionPool ι γ)
  | .check i =>
    match (s.clients i).place with
    | .outside =>
      let client : Client γ :=
        if s.connList.length = 0 then
          ⟨.outside, none :: (s.clients i).held⟩
        else
          ⟨.checked, (s.clients i).held⟩
      some { s with clients := Function.update s.clients i client }
    | _ => none
  | .wait i =>
    match (s.clients i).place, s.reserve with
    | .checked, n + 1 =>
      some { s with
        reserve := n
        clients := Function.update s.clients i ⟨.waited, (s.clients i).held⟩ }
    | _, _ => none
  | .take i =>
    -- the front of an empty list is taken in no run, by `Conserved.found`
    match (s.clients i).place, s.connList with
    | .waited, con :: rest =>
      some { s with
        connList := rest
        freeConn := s.freeConn - 1
        curConn := s.curConn + 1
        clients := Function.update s.clients i ⟨.outside, some con :: (s.clients i).held⟩ }
    | _, _ => none
  | .release i con =>
    match (s.clients i).place with
    | .outside =>
      if con ∈ (s.clients i).held then
        let held := (s.clients i).held.erase con
        match con with
        | none => some { s with clients := Function.update s.clients i ⟨.outside, held⟩ }
        | some con =>
          some { s with
            connList := s.connList ++ [con]
            freeConn := s.freeConn + 1
            curConn := s.curConn - 1
            clients := Function.update s.clients i ⟨.pushed, held⟩ }
      else
        none
    | _ => none
  | .post i =>
    match (s.clients i).place with
    | .pushed =>
      some { s with
        reserve := s.reserve + 1
        clients := Function.update s.clients i ⟨.outside, (s.clients i).held⟩ }
    | _ => none

/-- What a step does, by the branch that it takes. -/
inductive Steps (s : ConnectionPool ι γ) :
    ConnectionPoolEvent ι γ → ConnectionPool ι γ → Prop where
  | refuse {i : ι} {held : List (Option γ)} (hi : s.clients i = ⟨.outside, held⟩)
      (hlist : s.connList = []) :
      Steps s (.check i)
        { s with clients := Function.update s.clients i ⟨.outside, none :: held⟩ }
  | check {i : ι} {held : List (Option γ)} (hi : s.clients i = ⟨.outside, held⟩)
      (hlist : s.connList ≠ []) :
      Steps s (.check i) { s with clients := Function.update s.clients i ⟨.checked, held⟩ }
  | wait {i : ι} {held : List (Option γ)} {n : ℕ} (hi : s.clients i = ⟨.checked, held⟩)
      (hn : s.reserve = n + 1) :
      Steps s (.wait i)
        { s with reserve := n, clients := Function.update s.clients i ⟨.waited, held⟩ }
  | take {i : ι} {held : List (Option γ)} {con : γ} {rest : List γ}
      (hi : s.clients i = ⟨.waited, held⟩) (hlist : s.connList = con :: rest) :
      Steps s (.take i)
        { s with
          connList := rest
          freeConn := s.freeConn - 1
          curConn := s.curConn + 1
          clients := Function.update s.clients i ⟨.outside, some con :: held⟩ }
  | releaseNull {i : ι} {held : List (Option γ)} (hi : s.clients i = ⟨.outside, held⟩)
      (hmem : none ∈ held) :
      Steps s (.release i none)
        { s with clients := Function.update s.clients i ⟨.outside, held.erase none⟩ }
  | release {i : ι} {held : List (Option γ)} {con : γ}
      (hi : s.clients i = ⟨.outside, held⟩) (hmem : some con ∈ held) :
      Steps s (.release i (some con))
        { s with
          connList := s.connList ++ [con]
          freeConn := s.freeConn + 1
          curConn := s.curConn - 1
          clients := Function.update s.clients i ⟨.pushed, held.erase (some con)⟩ }
  | post {i : ι} {held : List (Option γ)} (hi : s.clients i = ⟨.pushed, held⟩) :
      Steps s (.post i)
        { s with
          reserve := s.reserve + 1
          clients := Function.update s.clients i ⟨.outside, held⟩ }

/-- A step takes one of its branches. -/
theorem steps_of_step {s s' : ConnectionPool ι γ} {e : ConnectionPoolEvent ι γ}
    (h : s.step e = some s') :
  s.Steps e s'
  := by
  have hclient : ∀ {i p}, (s.clients i).place = p → s.clients i = ⟨p, (s.clients i).held⟩ := by
    rintro i _ rfl
    rfl
  cases e with
  | check i =>
      rw [step] at h
      split at h
      next hplace =>
        obtain rfl := Option.some.inj h
        split
        next hlist => exact .refuse (hclient hplace) (List.length_eq_zero_iff.mp hlist)
        next hlist => exact .check (hclient hplace) (mt List.length_eq_zero_iff.mpr hlist)
      next => cases h
  | wait i =>
      rw [step] at h
      split at h
      next n hplace hn =>
        obtain rfl := Option.some.inj h
        exact .wait (hclient hplace) hn
      next => cases h
  | take i =>
      rw [step] at h
      split at h
      next con rest hplace hlist =>
        obtain rfl := Option.some.inj h
        exact .take (hclient hplace) hlist
      next => cases h
  | release i con =>
      rw [step] at h
      split at h
      next hplace =>
        split at h
        next hmem =>
          cases con with
          | none =>
              obtain rfl := Option.some.inj h
              exact .releaseNull (hclient hplace) hmem
          | some con =>
              obtain rfl := Option.some.inj h
              exact .release (hclient hplace) hmem
        next => cases h
      next => cases h
  | post i =>
      rw [step] at h
      split at h
      next hplace =>
        obtain rfl := Option.some.inj h
        exact .post (hclient hplace)
      next => cases h

/-- What a step may do, it does. -/
theorem Steps.step {s s' : ConnectionPool ι γ} {e : ConnectionPoolEvent ι γ} (h : s.Steps e s') :
  s.step e = some s'
  := by
  cases h with
  | refuse hi hlist =>
      rw [ConnectionPool.step, hi, hlist]
      rfl
  | check hi hlist =>
      rw [ConnectionPool.step, hi]
      dsimp only
      rw [if_neg (mt List.length_eq_zero_iff.mp hlist)]
  | wait hi hn => rw [ConnectionPool.step, hi, hn]
  | take hi hlist => rw [ConnectionPool.step, hi, hlist]
  | releaseNull hi hmem | release hi hmem =>
      rw [ConnectionPool.step, hi]
      exact if_pos hmem
  | post hi => rw [ConnectionPool.step, hi]

end Step

/-! ### What the steps conserve -/

/-- The rounds of the loop put what they get into the list, in order, and count it. -/
theorem openAll_eq_some {connect : ℕ → Option γ} {n : ℕ} {s : ConnectionPool ι γ}
    (h : openAll connect n = some s) :
  s.connList.map some = (List.range n).map connect
    ∧ s.freeConn = n ∧ s.curConn = 0 ∧ s.clients = fun _ => ⟨.outside, []⟩
  := by
  induction n generalizing s with
  | zero =>
      cases h
      exact ⟨rfl, rfl, rfl, rfl⟩
  | succ n ih =>
      obtain ⟨s₀, hs₀, h⟩ := Option.bind_eq_some_iff.mp h
      obtain ⟨con, hcon, rfl⟩ := Option.map_eq_some_iff.mp h
      obtain ⟨hlist, hfree, hcur, hclients⟩ := ih hs₀
      refine ⟨?_, ?_, hcur, hclients⟩
      · change (s₀.connList ++ [con]).map some = _
        rw [List.map_append, hlist, List.range_succ, List.map_append]
        simp [hcon]
      · change s₀.freeConn + 1 = _
        rw [hfree]
        rfl

/-- The connections that a thread has. -/
def Client.lent (c : Client γ) : Multiset γ := (c.held.reduceOption : List γ)

/-- Whether a thread has waited for a connection and not yet taken it, as a number. -/
def Client.waiting (c : Client γ) : ℕ :=
  match c.place with
  | .waited => 1
  | _ => 0

/-- Whether a thread has pushed a connection and not yet posted, as a number. -/
def Client.posting (c : Client γ) : ℕ :=
  match c.place with
  | .pushed => 1
  | _ => 0

/-- What a thread gets from `getConnection` is lent to it, unless it is null. -/
theorem lent_cons (p p' : Place) (con : γ) (held : List (Option γ)) :
  (⟨p, some con :: held⟩ : Client γ).lent = con ::ₘ (⟨p', held⟩ : Client γ).lent
  := congrArg _ (List.reduceOption_cons_of_some con held)

variable [Fintype ι]

/-- The connections that are lent out. -/
def lent (s : ConnectionPool ι γ) : Multiset γ := Threads.total Client.lent s.clients

/-- The pool of the connections `conns`. -/
structure Inv (conns : List γ) (s : ConnectionPool ι γ) : Prop where
  all : (s.connList : Multiset γ) + s.lent = (conns : Multiset γ)
  max : s.maxConn = conns.length
  free : s.freeConn = s.connList.length
  cur : s.curConn = Multiset.card s.lent
  length : s.connList.length = s.reserve + Threads.total Client.waiting s.clients
    + Threads.total Client.posting s.clients

/-- A thread that has waited finds a connection in the list. -/
theorem Inv.found {conns : List γ} {s : ConnectionPool ι γ} (h : s.Inv conns) {i : ι}
    (hi : (s.clients i).place = .waited) :
  s.connList ≠ []
  := by
  have hwaiting := Threads.le_total Client.waiting s.clients i
  rw [Client.waiting, hi] at hwaiting
  change 1 ≤ _ at hwaiting
  have hlength := h.length
  apply List.ne_nil_of_length_pos
  omega

/-- No connection is lost or lent twice, the counters are right, and no thread takes the
front of an empty list. -/
structure Conserved (conns : List γ) (s : ConnectionPool ι γ) : Prop where
  nodup : s.connList.Nodup
  disjoint : ∀ i con, some con ∈ (s.clients i).held → con ∉ s.connList
  together : ∀ con, con ∈ conns ↔ con ∈ s.connList ∨ ∃ i, some con ∈ (s.clients i).held
  free : s.freeConn = s.connList.length
  cur : s.curConn = Multiset.card s.lent
  sum : s.freeConn + s.curConn = s.maxConn
  once : ∀ i, (s.clients i).held.reduceOption.Nodup
  owner : ∀ i j con, some con ∈ (s.clients i).held → some con ∈ (s.clients j).held → i = j
  found : ∀ i, (s.clients i).place = .waited → s.connList ≠ []

theorem mem_lent {s : ConnectionPool ι γ} {con : γ} :
  con ∈ s.lent ↔ ∃ i, some con ∈ (s.clients i).held
  := by
  rw [lent, Threads.total, Multiset.mem_sum]
  simp [Client.lent, List.reduceOption_mem_iff]

/-- The pool of distinct connections conserves them. -/
theorem Inv.conserved {conns : List γ} {s : ConnectionPool ι γ} (h : s.Inv conns)
    (hconns : conns.Nodup) :
  s.Conserved conns
  := by
  have hnodup : ((s.connList : Multiset γ) + s.lent).Nodup := by
    rw [h.all]
    exact hconns
  obtain ⟨hlist, hlent, hdisjoint⟩ := Multiset.nodup_add.mp hnodup
  have hcard := congrArg Multiset.card h.all
  rw [Multiset.card_add, Multiset.coe_card, Multiset.coe_card] at hcard
  refine ⟨hlist, ?_, ?_, h.free, h.cur, ?_, ?_, ?_, fun i => h.found⟩
  · intro i con hi hcon
    apply Multiset.disjoint_left.mp hdisjoint hcon (mem_lent.mpr ⟨i, hi⟩)
  · intro con
    rw [← mem_lent, ← Multiset.mem_coe, ← h.all, Multiset.mem_add, Multiset.mem_coe]
  · rw [h.free, h.cur, h.max, ← hcard]
    push_cast
    rfl
  · intro i
    apply Multiset.coe_nodup.mp
      (Multiset.nodup_of_le (Threads.le_total Client.lent s.clients i) hlent)
  · classical
    intro i j con hi hj
    by_contra hij
    have hle := Threads.add_le_total Client.lent s.clients hij
    have hboth := (Multiset.nodup_add.mp (Multiset.nodup_of_le hle hlent)).2.2
    apply Multiset.disjoint_left.mp hboth (List.reduceOption_mem_iff.mpr hi)
      (List.reduceOption_mem_iff.mpr hj)

/-- `init` opens the connections, with the semaphore at their number. -/
theorem init_inv {connect : ℕ → Option γ} {maxconn : ℤ} {s : ConnectionPool ι γ}
    (h : init connect maxconn = some s) :
  s.Inv s.connList ∧ s.connList.map some = (List.range maxconn.toNat).map connect
    ∧ s.clients = fun _ => ⟨.outside, []⟩
  := by
  obtain ⟨s₀, hs₀, rfl⟩ := Option.map_eq_some_iff.mp h
  obtain ⟨hlist, hfree, hcur, hclients⟩ := openAll_eq_some hs₀
  have hlength : s₀.connList.length = maxconn.toNat := by
    have hlen := congrArg List.length hlist
    rwa [List.length_map, List.length_map, List.length_range] at hlen
  have hlent : Threads.total Client.lent s₀.clients = 0 := by
    rw [hclients]
    apply Threads.total_const_zero rfl
  have hwaiting : Threads.total Client.waiting s₀.clients = 0 := by
    rw [hclients]
    apply Threads.total_const_zero rfl
  have hposting : Threads.total Client.posting s₀.clients = 0 := by
    rw [hclients]
    apply Threads.total_const_zero rfl
  refine ⟨⟨?_, ?_, ?_, ?_, ?_⟩, hlist, hclients⟩
  · change (s₀.connList : Multiset γ) + Threads.total Client.lent s₀.clients = s₀.connList
    rw [hlent, add_zero]
  · change s₀.freeConn = s₀.connList.length
    rw [hfree, hlength]
  · change s₀.freeConn = s₀.connList.length
    rw [hfree, hlength]
  · change s₀.curConn = Multiset.card (Threads.total Client.lent s₀.clients)
    rw [hlent, hcur]
    rfl
  · change s₀.connList.length = s₀.freeConn.toNat
      + Threads.total Client.waiting s₀.clients + Threads.total Client.posting s₀.clients
    rw [hwaiting, hposting, hfree, hlength]
    rfl

/-- `init` opens distinct connections. -/
theorem init_nodup {connect : ℕ → Option γ} {maxconn : ℤ} {s : ConnectionPool ι γ}
    (h : init connect maxconn = some s) (hdistinct : Set.InjOn connect (Set.Iio maxconn.toNat)) :
  s.connList.Nodup
  := by
  apply List.Nodup.of_map some
  rw [(init_inv h).2.1]
  apply List.Nodup.map_on _ List.nodup_range
  intro i hi j hj hij
  apply hdistinct (List.mem_range.mp hi) (List.mem_range.mp hj) hij

/-! ### The steps -/

variable [DecidableEq ι]

/-- One thread moves, and the connections it has, the counters and the semaphore change by
the same amounts. -/
theorem Inv.update {conns : List γ} {s : ConnectionPool ι γ} (h : s.Inv conns) {i : ι}
    {old c : Client γ} {connList : List γ} {free cur : ℤ} {reserve : ℕ}
    (hi : s.clients i = old)
    (hall : (connList : Multiset γ) + c.lent = s.connList + old.lent)
    (hfree : free = connList.length)
    (hcur : cur + Multiset.card old.lent = s.curConn + Multiset.card c.lent)
    (hlength : connList.length + s.reserve + old.waiting + old.posting
      = s.connList.length + reserve + c.waiting + c.posting) :
  Inv conns { s with
    connList := connList
    freeConn := free
    curConn := cur
    reserve := reserve
    clients := Function.update s.clients i c }
  := by
  have hlent := Threads.total_update Client.lent s.clients i c
  have hwaiting := Threads.total_update Client.waiting s.clients i c
  have hposting := Threads.total_update Client.posting s.clients i c
  rw [hi] at hlent hwaiting hposting
  refine ⟨?_, h.max, hfree, ?_, ?_⟩
  · change (connList : Multiset γ) + Threads.total Client.lent (Function.update s.clients i c)
      = conns
    apply add_right_cancel (b := old.lent)
    rw [add_assoc, hlent, ← h.all, lent, add_left_comm, hall]
    ac_rfl
  · change cur = Multiset.card (Threads.total Client.lent (Function.update s.clients i c))
    have hcard := congrArg Multiset.card hlent
    have hold := h.cur
    rw [Multiset.card_add, Multiset.card_add] at hcard
    rw [lent] at hold
    omega
  · have hold := h.length
    change connList.length = reserve
      + Threads.total Client.waiting (Function.update s.clients i c)
      + Threads.total Client.posting (Function.update s.clients i c)
    omega

/-- A thread that moves and keeps what it has. -/
theorem Inv.move {conns : List γ} {s : ConnectionPool ι γ} (h : s.Inv conns) {i : ι}
    {old c : Client γ} {reserve : ℕ} (hi : s.clients i = old) (hheld : c.lent = old.lent)
    (hlength : s.reserve + old.waiting + old.posting = reserve + c.waiting + c.posting) :
  Inv conns { s with reserve := reserve, clients := Function.update s.clients i c }
  := by
  refine h.update hi (by rw [hheld]) h.free (by rw [hheld]) ?_
  omega

variable [DecidableEq γ]

/-- A connection that a thread releases was lent to it. -/
theorem lent_erase (p p' : Place) {con : γ} {held : List (Option γ)} (h : some con ∈ held) :
  (⟨p, held⟩ : Client γ).lent = con ::ₘ (⟨p', held.erase (some con)⟩ : Client γ).lent
  := by
  have hperm := (List.perm_cons_erase h).filterMap id
  exact (Multiset.coe_eq_coe.mpr hperm).trans (lent_cons p p' con _)

/-- A null that a thread releases was not lent to it. -/
theorem lent_erase_none (p p' : Place) {held : List (Option γ)} (h : none ∈ held) :
  (⟨p, held⟩ : Client γ).lent = (⟨p', held.erase none⟩ : Client γ).lent
  := Multiset.coe_eq_coe.mpr ((List.perm_cons_erase h).filterMap id)

/-- The pool keeps its connections when a thread takes a step. -/
theorem Inv.step {conns : List γ} {s s' : ConnectionPool ι γ} (h : s.Inv conns)
    {e : ConnectionPoolEvent ι γ} (hs' : s.step e = some s') :
  s'.Inv conns
  := by
  cases steps_of_step hs' with
  | refuse hi hlist => exact h.move hi rfl rfl
  | check hi hlist => exact h.move hi rfl rfl
  | wait hi hn => exact h.move hi rfl hn
  | @take i held con rest hi hlist =>
      have hfree := h.free
      rw [hlist, List.length_cons] at hfree
      apply h.update hi
      · rw [lent_cons .outside .waited, hlist, Multiset.add_cons, ← Multiset.cons_coe,
          Multiset.cons_add]
      · omega
      · rw [lent_cons .outside .waited, Multiset.card_cons]
        push_cast
        ring
      · simp only [Client.waiting, Client.posting, hlist, List.length_cons]
        omega
  | releaseNull hi hmem => exact h.move hi (lent_erase_none _ _ hmem).symm rfl
  | @release i held con hi hmem =>
      apply h.update hi
      · rw [lent_erase .outside .pushed hmem, ← Multiset.coe_add, Multiset.coe_singleton,
          add_assoc, Multiset.singleton_add]
      · rw [List.length_append, List.length_singleton, h.free]
        rfl
      · rw [lent_erase .outside .pushed hmem, Multiset.card_cons]
        push_cast
        ring
      · simp only [Client.waiting, Client.posting, List.length_append, List.length_singleton]
        omega
  | post hi => exact h.move hi rfl rfl

/-- In every state that the threads can reach, the connections that `init` opened are
conserved. -/
theorem connections_conserved {connect : ℕ → Option γ} {maxconn : ℤ} {pool s : ConnectionPool ι γ}
    {es : List (ConnectionPoolEvent ι γ)} (hpool : init connect maxconn = some pool)
    (hdistinct : Set.InjOn connect (Set.Iio maxconn.toNat))
    (h : Run.exec step pool es = some s) :
  pool.connList.map some = (List.range maxconn.toNat).map connect ∧ s.Conserved pool.connList
  := by
  obtain ⟨hinv, hlist, -⟩ := init_inv hpool
  refine ⟨hlist, Inv.conserved ?_ (init_nodup hpool hdistinct)⟩
  apply Run.exec_preserves _ hinv h
  intro s e s' hs hs'
  apply hs.step hs'

/-- Two threads share a pool of one connection; the second one gets null, and releases
it. -/
theorem connections_conserved_two :
  ∃ pool s : ConnectionPool (Fin 2) ℕ,
    init (fun _ => some 5) 1 = some pool
      ∧ Run.exec step pool [.check 0, .wait 0, .take 0, .check 1, .release 0 (some 5),
          .release 1 none] = some s
      ∧ pool.connList.map some = [some 5] ∧ s.Conserved pool.connList
  := ⟨_, _, rfl, rfl, @connections_conserved (Fin 2) ℕ _ _ _ (fun _ => some 5) 1 _ _
      [.check 0, .wait 0, .take 0, .check 1, .release 0 (some 5), .release 1 none] rfl
      (by intro i hi j hj _; simp at hi hj; omega) rfl⟩

end ConnectionPool

end WebServer
