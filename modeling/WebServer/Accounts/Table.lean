import WebServer.Http.DoRequest
import WebServer.Lib.Run

/-!
# The accounts and their table

`initmysql_result` loads the map of the accounts from the rows of the table `webdb`, and
the requests with credentials go on from there, one after the other.  A registration of a
name that is not in the map passes a statement to `mysql_query`, which adds a row or fails.

The name is put into the map in both cases.  So the map is what a reload of the table
would give exactly as long as no statement fails (`agrees_iff`).
-/

open CString

namespace WebServer

/-- A registration that was answered with the page of an error, with the accounts before
and after it. -/
structure Refusal where
  name : List UInt8
  password : List UInt8
  before : Users
  after : Users

/-- The rows of the table, the map of the accounts, and the registrations that were
refused. -/
structure Accounts where
  rows : List (List UInt8 × List UInt8)
  users : Users
  refused : List Refusal

/-- A request with credentials, and what `mysql_query` returns in it. -/
inductive AccountsEvent where
  | login (name password : List UInt8)
  | register (name password : List UInt8) (res : ℤ)

namespace Accounts

/-- The loop of `initmysql_result` on an empty map: a later row of a name replaces an
earlier one. -/
def load (rows : List (List UInt8 × List UInt8)) : Users :=
  rows.foldl (fun users row => Function.update users row.1 (some row.2)) fun _ => none

/-- The server is started on a table. -/
def start (rows : List (List UInt8 × List UInt8)) : Accounts where
  rows := rows
  users := load rows
  refused := []

/-- A login, which only reads the accounts, or a registration. -/
def step (s : Accounts) : AccountsEvent → Option Accounts
  | .login _ _ => some s
  | .register name password res =>
    let (page, users) := s.users.register name password res
    some {
      rows := if s.users name = none ∧ res = 0 then s.rows ++ [(name, password)] else s.rows
      users := users
      refused :=
        if page = "/registerError.html" then s.refused ++ [⟨name, password, s.users, users⟩]
        else s.refused }

/-- A reload of the table gives the accounts, and a registration that was refused left
them alone and does not let its credentials log in. -/
structure Agrees (s : Accounts) : Prop where
  reload : load s.rows = s.users
  refusals : ∀ r ∈ s.refused,
    r.after = r.before ∧ s.users.login r.name r.password ≠ "/welcome.html"

/-- The query of a registration succeeds, and a registration does not repeat credentials
that log in. -/
def Sound (s : Accounts) : AccountsEvent → Prop
  | .login _ _ => True
  | .register name password res =>
    (s.users name = none → res = 0) ∧ s.users name ≠ some password

theorem load_append (rows : List (List UInt8 × List UInt8)) (name password : List UInt8) :
  load (rows ++ [(name, password)]) = Function.update (load rows) name (some password)
  := by
  rw [load, List.foldl_append]
  rfl

theorem login_eq_iff {users : Users} {name password : List UInt8} :
  users.login name password = "/welcome.html" ↔ users name = some password
  := by
  rw [Users.login]
  split
  next h => simp [h]
  next h => simp [h]

/-! ### The branches of a registration -/

section Branches

variable {s : Accounts} {name : List UInt8} (password : List UInt8)

/-- A registration of a name that is there. -/
theorem step_known {q : List UInt8} (h : s.users name = some q) (res : ℤ) :
  s.step (.register name password res) = some { s with
    refused := s.refused ++ [⟨name, password, s.users, s.users⟩] }
  := by
  have hregister : s.users.register name password res = ("/registerError.html", s.users) := by
    rw [Users.register, h]
    apply if_neg (Option.some_ne_none q)
  simp [step, hregister, h]

/-- A registration of a name that is not there, whose query succeeds. -/
theorem step_added (h : s.users name = none) :
  s.step (.register name password 0) = some { s with
    rows := s.rows ++ [(name, password)]
    users := Function.update s.users name (some password) }
  := by
  have hregister : s.users.register name password 0
      = ("/log.html", Function.update s.users name (some password)) := by
    rw [Users.register, if_pos h, Users.commit, Users.insert, h]
    rfl
  simp [step, hregister, h]

/-- A registration of a name that is not there, whose query fails. -/
theorem step_failed (h : s.users name = none) {res : ℤ} (hres : res ≠ 0) :
  s.step (.register name password res) = some { s with
    users := Function.update s.users name (some password)
    refused := s.refused
      ++ [⟨name, password, s.users, Function.update s.users name (some password)⟩] }
  := by
  have hregister : s.users.register name password res
      = ("/registerError.html", Function.update s.users name (some password)) := by
    rw [Users.register, if_pos h, Users.commit, Users.insert, h, if_neg hres]
    rfl
  simp [step, hregister, hres]

end Branches

/-! ### Runs -/

/-- What is kept along a run: the names that were refused are there. -/
structure Kept (s : Accounts) : Prop where
  agrees : s.Agrees
  present : ∀ r ∈ s.refused, s.users r.name ≠ none

theorem start_kept (rows : List (List UInt8 × List UInt8)) :
  (start rows).Kept
  := by
  refine ⟨⟨rfl, ?_⟩, ?_⟩
  · intro r hr
    cases hr
  · intro r hr
    cases hr

/-- A registration whose query succeeds adds the same to the table and to the accounts. -/
theorem Kept.added {s : Accounts} (h : s.Kept) {name : List UInt8} (password : List UInt8)
    (hname : s.users name = none) :
  Kept { s with
    rows := s.rows ++ [(name, password)]
    users := Function.update s.users name (some password) }
  := by
  have hsame : ∀ r ∈ s.refused,
      Function.update s.users name (some password) r.name = s.users r.name := by
    intro r hr
    apply Function.update_of_ne
    intro hr'
    exact h.present r hr (hr' ▸ hname)
  refine ⟨⟨?_, ?_⟩, ?_⟩
  · change load (s.rows ++ [(name, password)]) = _
    rw [load_append, h.agrees.reload]
  · intro r hr
    obtain ⟨hafter, hlogin⟩ := h.agrees.refusals r hr
    refine ⟨hafter, ?_⟩
    rw [Ne, login_eq_iff] at hlogin ⊢
    exact fun h => hlogin ((hsame r hr).symm.trans h)
  · intro r hr
    exact fun h' => h.present r hr ((hsame r hr).symm.trans h')

/-- A registration of a name that is there changes nothing. -/
theorem Kept.known {s : Accounts} (h : s.Kept) {name password q : List UInt8}
    (hname : s.users name = some q) (hnew : s.users name ≠ some password) :
  Kept { s with refused := s.refused ++ [⟨name, password, s.users, s.users⟩] }
  := by
  refine ⟨⟨h.agrees.reload, ?_⟩, ?_⟩
  · intro r hr
    rcases List.mem_append.mp hr with hr | hr
    · apply h.agrees.refusals r hr
    · obtain rfl := List.mem_singleton.mp hr
      exact ⟨rfl, fun hlogin => hnew (login_eq_iff.mp hlogin)⟩
  · intro r hr
    rcases List.mem_append.mp hr with hr | hr
    · apply h.present r hr
    · obtain rfl := List.mem_singleton.mp hr
      change s.users name ≠ none
      rw [hname]
      apply Option.some_ne_none q

theorem Kept.step {s s' : Accounts} (h : s.Kept) {e : AccountsEvent} (he : s.Sound e)
    (hs' : s.step e = some s') :
  s'.Kept
  := by
  cases e with
  | login name password =>
      cases hs'
      exact h
  | register name password res =>
      obtain ⟨hquery, hnew⟩ := he
      cases hname : s.users name with
      | none =>
          obtain rfl := hquery hname
          rw [step_added password hname] at hs'
          obtain rfl := Option.some.inj hs'
          apply h.added password hname
      | some q =>
          rw [step_known password hname] at hs'
          obtain rfl := Option.some.inj hs'
          apply h.known hname hnew

/-- A registration that does not meet the condition is refused with credentials that log
in. -/
theorem not_agrees_of_not_sound {s s' : Accounts} {e : AccountsEvent} (he : ¬ s.Sound e)
    (hs' : s.step e = some s') :
  ¬ s'.Agrees
  := by
  cases e with
  | login name password => exact absurd trivial he
  | register name password res =>
      intro hagrees
      cases hname : s.users name with
      | none =>
          have hres : res ≠ 0 := by
            rintro rfl
            apply he
            refine ⟨fun _ => rfl, ?_⟩
            rw [hname]
            exact (Option.some_ne_none password).symm
          rw [step_failed password hname hres] at hs'
          obtain rfl := Option.some.inj hs'
          have hrefused := hagrees.refusals _ (List.mem_append_right _ (List.mem_singleton_self _))
          apply hrefused.2 (login_eq_iff.mpr (Function.update_self ..))
      | some q =>
          rw [step_known password hname] at hs'
          obtain rfl := Option.some.inj hs'
          have hrefused := hagrees.refusals _ (List.mem_append_right _ (List.mem_singleton_self _))
          apply he
          refine ⟨fun hnone => ?_, fun hsame => hrefused.2 (login_eq_iff.mpr hsame)⟩
          apply absurd (hname.symm.trans hnone) (Option.some_ne_none q)

/-- Every request is taken. -/
theorem exec_isSome (s : Accounts) (es : List AccountsEvent) :
  ∃ t, Run.exec step s es = some t
  := by
  induction es generalizing s with
  | nil => exact ⟨s, rfl⟩
  | cons e es ih =>
      have hstep : ∃ s', s.step e = some s' := by
        cases e with
        | login name password => exact ⟨s, rfl⟩
        | register name password res => exact ⟨_, rfl⟩
      obtain ⟨s', hs'⟩ := hstep
      obtain ⟨t, ht⟩ := ih s'
      exact ⟨t, Run.exec_cons.mpr ⟨s', hs', ht⟩⟩

/-- The accounts agree with the table throughout a run exactly when every query of it
succeeds and no registration of it repeats credentials that log in. -/
theorem agrees_iff (rows : List (List UInt8 × List UInt8)) (es : List AccountsEvent) :
  Run.Throughout step Agrees (start rows) es ↔ Run.Along step Sound (start rows) es
  := by
  obtain ⟨t, ht⟩ := exec_isSome (start rows) es
  apply Run.throughout_iff_along (I := Kept) _ _ (fun _ h => h.agrees) (start_kept rows) ht
  · intro s e s' hs he hs'
    apply hs.step he hs'
  · intro s e s' _ he hs'
    apply not_agrees_of_not_sound he hs'

/-- A registration whose query fails is refused, and yet it is in the accounts and not in
the table. -/
theorem not_agrees :
  ¬ ∀ (rows : List (List UInt8 × List UInt8)) (es : List AccountsEvent) (t : Accounts),
    Run.exec step (start rows) es = some t → t.Agrees
  := by
  intro h
  have hagrees := h [] [.register (ascii "amy") (ascii "secret") 1] _ rfl
  apply absurd (congrFun hagrees.reload (ascii "amy")) (by decide)

end Accounts

end WebServer
