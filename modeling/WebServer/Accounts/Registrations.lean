import WebServer.Http.DoRequest
import WebServer.Lib.Run

/-!
# Registrations side by side

Any number of workers run the registration of `do_request`.  A worker looks the name up in
the accounts without the lock, and only when the name is not there it takes the lock,
passes its statement to `mysql_query` and inserts the name.  Between these two steps other
workers may do the same for the same name.

A name is registered only once exactly as long as no worker takes the lock for a name that
has come into the accounts since the worker looked it up (`once_iff`).
-/

open CString

namespace WebServer

universe u

/-- Where a worker is: not in a registration, or in one behind the lookup, which did not
find the name. -/
inductive Registrar where
  | outside
  | passed (name password : List UInt8)
  deriving DecidableEq

/-- The accounts and the workers, with the credentials for which a statement was passed to
`mysql_query`, and those that were answered with the page of a login. -/
structure Registrations (ι : Type u) where
  users : Users
  workers : ι → Registrar
  inserts : List (List UInt8 × List UInt8)
  accepted : List (List UInt8 × List UInt8)

/-- A step of a worker. -/
inductive RegistrationsEvent (ι : Type u) where
  /-- The lookup of the name. -/
  | find (worker : ι) (name password : List UInt8)
  /-- The section with the lock, in which `mysql_query` returns `res`, and the answer. -/
  | commit (worker : ι) (res : ℤ)

namespace Registrations

variable {ι : Type u}

/-- The accounts are loaded, and no worker is in a registration. -/
def start (users : Users) : Registrations ι where
  users := users
  workers := fun _ => .outside
  inserts := []
  accepted := []

section Step

variable [DecidableEq ι]

/-- A step of a worker. -/
def step (s : Registrations ι) : RegistrationsEvent ι → Option (Registrations ι)
  | .find i name password =>
    match s.workers i with
    | .outside =>
      if s.users name = none then
        some { s with workers := Function.update s.workers i (.passed name password) }
      else
        some s
    | .passed _ _ => none
  | .commit i res =>
    match s.workers i with
    | .outside => none
    | .passed name password =>
      let (page, users) := s.users.commit name password res
      some {
        users := users
        workers := Function.update s.workers i .outside
        inserts := s.inserts ++ [(name, password)]
        accepted :=
          if page = "/log.html" then s.accepted ++ [(name, password)] else s.accepted }

end Step

/-- How many of the credentials are for a name. -/
def timesOf (name : List UInt8) (l : List (List UInt8 × List UInt8)) : ℕ :=
  (l.filter (·.1 = name)).length

/-- At most one registration of a name is accepted, at most one statement is passed on for
it, and the password of an accepted registration is that of the name. -/
structure Once (s : Registrations ι) : Prop where
  accepted : ∀ name, timesOf name s.accepted ≤ 1
  inserts : ∀ name, timesOf name s.inserts ≤ 1
  password : ∀ name password, (name, password) ∈ s.accepted → s.users name = some password

/-- A worker that takes the lock does it for a name that is not in the accounts. -/
def Fresh (s : Registrations ι) : RegistrationsEvent ι → Prop
  | .find _ _ _ => True
  | .commit i _ => ∀ name password, s.workers i = .passed name password → s.users name = none

@[simp]
theorem timesOf_append (name : List UInt8) (l : List (List UInt8 × List UInt8))
    (c : List UInt8 × List UInt8) :
  timesOf name (l ++ [c]) = timesOf name l + if c.1 = name then 1 else 0
  := by
  rw [timesOf, List.filter_append, List.length_append]
  by_cases h : c.1 = name
  · simp [timesOf, h]
  · simp [timesOf, h]

/-- What is kept along a run: a name that has come into the accounts since a worker looked
it up, and every name a statement was passed on for, went there with a statement. -/
structure Kept (s : Registrations ι) : Prop where
  once : s.Once
  known : ∀ name, timesOf name s.inserts ≠ 0 → s.users name ≠ none
  passed : ∀ i name password, s.workers i = .passed name password → s.users name ≠ none →
    timesOf name s.inserts ≠ 0
  issued : ∀ name, timesOf name s.accepted ≤ timesOf name s.inserts

theorem start_kept (users : Users) :
  (start users : Registrations ι).Kept
  := by
  refine ⟨⟨?_, ?_, ?_⟩, ?_, ?_, ?_⟩
  · intro name
    apply Nat.zero_le 1
  · intro name
    apply Nat.zero_le 1
  · intro name password h
    cases h
  · intro name h
    apply absurd rfl h
  · intro i name password h
    cases h
  · intro name
    apply Nat.le_refl 0

/-- Nothing was registered for a name that is not in the accounts. -/
theorem Kept.timesOf_eq_zero {s : Registrations ι} (h : s.Kept) {name : List UInt8}
    (hname : s.users name = none) :
  timesOf name s.inserts = 0 ∧ timesOf name s.accepted = 0
  := by
  have hzero : timesOf name s.inserts = 0 := by
    by_contra hne
    apply h.known name hne hname
  exact ⟨hzero, Nat.le_zero.mp (hzero ▸ h.issued name)⟩

variable [DecidableEq ι]

/-- A lookup. -/
theorem Kept.find {s s' : Registrations ι} (h : s.Kept) {i : ι} {name password : List UInt8}
    (hs' : s.step (.find i name password) = some s') :
  s'.Kept
  := by
  rw [step] at hs'
  split at hs'
  next =>
    split at hs'
    next hnone =>
      obtain rfl := Option.some.inj hs'
      refine ⟨{ h.once with }, h.known, ?_, h.issued⟩
      intro j name' password' hj hname'
      change Function.update s.workers i (.passed name password) j = _ at hj
      by_cases hij : j = i
      · subst hij
        rw [Function.update_self] at hj
        obtain ⟨rfl, rfl⟩ := Registrar.passed.inj hj
        apply absurd hnone hname'
      · rw [Function.update_of_ne hij] at hj
        apply h.passed j name' password' hj hname'
    next =>
      obtain rfl := Option.some.inj hs'
      exact h
  next => cases hs'

/-- What the section with the lock makes of the accounts and of the statements. -/
theorem step_commit {s s' : Registrations ι} {i : ι} {res : ℤ}
    (hs' : s.step (.commit i res) = some s') :
  ∃ name password, s.workers i = .passed name password
    ∧ s'.users = s.users.insert name password
    ∧ s'.workers = Function.update s.workers i .outside
    ∧ s'.inserts = s.inserts ++ [(name, password)]
    ∧ (s'.accepted = s.accepted ∨ s'.accepted = s.accepted ++ [(name, password)])
  := by
  rw [step] at hs'
  split at hs'
  next => cases hs'
  next name password hi =>
    obtain rfl := Option.some.inj hs'
    refine ⟨name, password, hi, rfl, rfl, rfl, ?_⟩
    by_cases hpage : (s.users.commit name password res).1 = "/log.html"
    · exact .inr (if_pos hpage)
    · exact .inl (if_neg hpage)

/-- A worker `i` goes with `name` and `password` through the section with the lock, in
which the name was not in the accounts before. -/
structure Committed (s s' : Registrations ι) (i : ι) (name password : List UInt8) : Prop where
  fresh : s.users name = none
  users : s'.users = Function.update s.users name (some password)
  workers : s'.workers = Function.update s.workers i .outside
  inserts : s'.inserts = s.inserts ++ [(name, password)]
  accepted : s'.accepted = s.accepted ∨ s'.accepted = s.accepted ++ [(name, password)]

theorem committed_of_fresh {s s' : Registrations ι} {i : ι} {res : ℤ}
    (he : s.Fresh (.commit i res)) (hs' : s.step (.commit i res) = some s') :
  ∃ name password, Committed s s' i name password
  := by
  obtain ⟨name, password, hi, husers, hworkers, hinserts, haccepted⟩ := step_commit hs'
  have hnone := he name password hi
  refine ⟨name, password, hnone, ?_, hworkers, hinserts, haccepted⟩
  rw [husers, Users.insert, hnone]
  rfl

section Committed

variable {s s' : Registrations ι} {i : ι} {name password : List UInt8}

theorem Committed.timesOf_inserts (h : Committed s s' i name password) (n : List UInt8) :
  timesOf n s'.inserts = timesOf n s.inserts + if name = n then 1 else 0
  := by
  rw [h.inserts, timesOf_append]

theorem Committed.timesOf_accepted (h : Committed s s' i name password) (n : List UInt8) :
  timesOf n s'.accepted ≤ timesOf n s.accepted + if name = n then 1 else 0
  := by
  rcases h.accepted with haccepted | haccepted
  · rw [haccepted]
    apply Nat.le_add_right _ _
  · rw [haccepted, timesOf_append]

theorem Committed.mem_accepted (h : Committed s s' i name password) :
  ∀ c ∈ s'.accepted, c ∈ s.accepted ∨ c = (name, password)
  := by
  intro c hc
  rcases h.accepted with haccepted | haccepted
  · exact .inl (haccepted ▸ hc)
  · rw [haccepted] at hc
    exact (List.mem_append.mp hc).imp_right List.mem_singleton.mp

theorem Committed.accepted_password (h : Committed s s' i name password) (hs : s.Once) :
  ∀ n p, (n, p) ∈ s'.accepted → s'.users n = some p
  := by
  intro n p hn
  rw [h.users]
  rcases h.mem_accepted _ hn with hold | hnew
  · have hname : n ≠ name := by
      rintro rfl
      apply absurd ((hs.password n p hold).symm.trans h.fresh) (Option.some_ne_none p)
    rw [Function.update_of_ne hname]
    apply hs.password n p hold
  · obtain ⟨rfl, rfl⟩ := Prod.mk.inj hnew
    apply Function.update_self ..

/-- The name is registered for the first time. -/
theorem Committed.once (h : Committed s s' i name password) (hs : s.Kept) :
  s'.Once
  := by
  obtain ⟨hzero, hzero'⟩ := hs.timesOf_eq_zero h.fresh
  refine ⟨?_, ?_, h.accepted_password hs.once⟩
  · intro n
    have hn := h.timesOf_accepted n
    by_cases hname : name = n
    · subst hname
      rw [hzero', if_pos rfl] at hn
      exact hn
    · rw [if_neg hname] at hn
      apply hn.trans (hs.once.accepted n)
  · intro n
    rw [h.timesOf_inserts]
    by_cases hname : name = n
    · subst hname
      rw [hzero, if_pos rfl]
    · rw [if_neg hname]
      apply hs.once.inserts n

/-- A worker that takes the lock for a name that is not in the accounts. -/
theorem Committed.kept (h : Committed s s' i name password) (hs : s.Kept) :
  s'.Kept
  := by
  refine ⟨h.once hs, ?_, ?_, ?_⟩
  · intro n hn
    rw [h.users]
    by_cases hname : n = name
    · rw [hname, Function.update_self]
      apply Option.some_ne_none password
    · rw [Function.update_of_ne hname]
      apply hs.known
      rwa [h.timesOf_inserts, if_neg (Ne.symm hname)] at hn
  · intro j n p hj hn
    rw [h.timesOf_inserts]
    by_cases hname : name = n
    · rw [if_pos hname]
      apply Nat.succ_ne_zero _
    · rw [if_neg hname]
      rw [h.users, Function.update_of_ne (Ne.symm hname)] at hn
      have hji : j ≠ i := by
        rintro rfl
        rw [h.workers, Function.update_self] at hj
        cases hj
      rw [h.workers, Function.update_of_ne hji] at hj
      apply hs.passed j n p hj hn
  · intro n
    rw [h.timesOf_inserts]
    exact (h.timesOf_accepted n).trans (Nat.add_le_add_right (hs.issued n) _)

end Committed

/-- A step of a worker that does not come late. -/
theorem Kept.step {s s' : Registrations ι} (h : s.Kept) {e : RegistrationsEvent ι}
    (he : s.Fresh e) (hs' : s.step e = some s') :
  s'.Kept
  := by
  cases e with
  | find i name password => exact h.find hs'
  | commit i res =>
      obtain ⟨name, password, hc⟩ := committed_of_fresh he hs'
      apply hc.kept h

/-- A worker that comes late passes on a second statement for the name. -/
theorem Kept.commits_twice {s s' : Registrations ι} (h : s.Kept) {e : RegistrationsEvent ι}
    (he : ¬ s.Fresh e) (hs' : s.step e = some s') :
  ¬ s'.Once
  := by
  cases e with
  | find i name password => exact absurd trivial he
  | commit i res =>
      obtain ⟨name, password, hi, -, -, hinserts, -⟩ := step_commit hs'
      intro honce
      apply he
      intro n p hn
      obtain ⟨rfl, rfl⟩ := Registrar.passed.inj (hi.symm.trans hn)
      by_contra hname
      have htwice := honce.inserts name
      have hfirst := h.passed i name password hi hname
      rw [hinserts, timesOf_append, if_pos rfl] at htwice
      omega

/-- Every name is registered once throughout a run exactly when no worker in it takes the
lock for a name that is in the accounts. -/
theorem once_iff {users : Users} {es : List (RegistrationsEvent ι)} {t : Registrations ι}
    (h : Run.exec step (start users) es = some t) :
  Run.Throughout step Once (start users) es ↔ Run.Along step Fresh (start users) es
  := by
  apply Run.throughout_iff_along (I := Kept) _ _ (fun _ h => h.once) (start_kept users) h
  · intro s e s' hs he hs'
    apply hs.step he hs'
  · intro s e s' hs he hs'
    apply hs.commits_twice he hs'

/-- One worker registers a name, and another one tries it again. -/
theorem once_iff_two :
  ∃ t : Registrations (Fin 2),
    Run.exec step (start fun _ => none) [.find 0 [97] [49], .commit 0 0, .find 1 [97] [50]]
        = some t
      ∧ (Run.Throughout step Once (start fun _ => none : Registrations (Fin 2))
            [.find 0 [97] [49], .commit 0 0, .find 1 [97] [50]] ↔
          Run.Along step Fresh (start fun _ => none : Registrations (Fin 2))
            [.find 0 [97] [49], .commit 0 0, .find 1 [97] [50]])
  := ⟨_, rfl, @once_iff (Fin 2) _ _ _ _ rfl⟩

/-- Two workers look up the same name, and both go on; both are answered with the page of
a login. -/
theorem not_once :
  ¬ ∀ (users : Users) (es : List (RegistrationsEvent (Fin 2))) (t : Registrations (Fin 2)),
    Run.exec step (start users) es = some t → t.Once
  := by
  intro h
  have honce := h (fun _ => none)
    [.find 0 [97] [49], .find 1 [97] [50], .commit 0 0, .commit 1 0] _ rfl
  apply absurd (honce.accepted [97]) (by decide)

end Registrations

end WebServer
