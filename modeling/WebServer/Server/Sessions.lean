import WebServer.Http.Session
import WebServer.Server.Exclusive

/-!
# The server and its sessions

The objects of the connections are an array that is used again and again, and `main`, the
workers and the timers come to it in any order.  Seen from a client it is as if it had a
session of its own: in every run in which no connection gets an object that is in use, what
happens to a connection, and what is seen of it, is a run of the machine `Session`
(`sessions_trace`).  In particular `main` reads and writes in turns with the workers that
process, and no other connection shows (`sessions_apart`).
-/

open CString

namespace WebServer

namespace Server

variable {ω : Type}

/-! ### What a step does to the sessions -/

/-- What a step does to a session, but for closing its descriptor. -/
def acts (s : Server ω) : ServerEvent ω → List ((ℕ × SessionEvent) × Seen)
  | .accept _ _ _ _ => if s.userCount < maxFd then [((s.accepted, .accept), .accepted)] else []
  | .read rs _ =>
    match s.batch with
    | some (.client fd .readable :: _) =>
      (((s.users fd).read rs).map fun r => ((s.conn fd, .read rs), .read r.1)).toList
    | _ => []
  | .write os _ =>
    match s.batch with
    | some (.client fd .writable :: _) =>
      (((s.users fd).write os).2.map fun e =>
        ((s.conn fd, .write os), .wrote ((s.users fd).wrote os) e)).toList
    | _ => []
  | .process w found =>
    match s.workers w with
    | .took job =>
      (((s.users job.fd).process found).toOption.map fun r =>
        ((job.conn, .process found), .processed r.1)).toList
    | _ => []
  | .wait _ | .hup | .alarm _ | .pass | .endBatch _ | .take _ | .closeConn _ | .modfd _ => []

/-- The connections that were open before a step and are not behind it. -/
def shut (s s' : Server ω) : List ℕ := ((s.opened \ s'.opened).sort (· ≤ ·)).map s.conn

/-- What is done to the sessions whose descriptors are closed. -/
def closings (conns : List ℕ) : List ((ℕ × SessionEvent) × Seen) :=
  conns.map fun n => ((n, .close), .closed)

/-- What a step does to the sessions, and what is seen of it. -/
def does (s : Server ω) (e : ServerEvent ω) (s' : Server ω) : List ((ℕ × SessionEvent) × Seen) :=
  s.acts e ++ closings (shut s s')

/-! ### The sessions of a server -/

/-- An object that belongs to an open connection, or is in the queue or with a worker. -/
def InPlay (s : Server ω) (fd : ℕ) : Prop :=
  fd ∈ s.opened ∨ ∃ job, s.Handled job ∧ job.fd = fd

/-- What is expected of the phase of a connection by what is about to happen to it.  A new
connection may be registered for writing by chance, and so the client may have its turn when
`main` writes. -/
inductive Expects (s : Server ω) (fd : ℕ) : (Phase → Prop) → Prop
  | armed {ev : Interest} (h : s.epoll fd = some ev) : Expects s fd (· = ev.phase)
  | readable (h : .client fd .readable ∈ s.batch.getD []) : Expects s fd (· = .reading)
  | writable (h : .client fd .writable ∈ s.batch.getD []) :
      Expects s fd fun ph => ph = .sending ∨ ph = .reading
  | queued {job : Job} (h : job ∈ s.workqueue) (hfd : job.fd = fd) : Expects s fd (· = .queued)
  | took {w : ω} {job : Job} (h : s.workers w = .took job) (hfd : job.fd = fd) :
      Expects s fd (· = .queued)
  | rearms {w : ω} {job : Job} {ev : Interest} (h : s.workers w = .rearms job ev)
      (hfd : job.fd = fd) : Expects s fd (· = ev.phase)

/-- The sessions `t` are those of the server: the object of each connection is alike to that
of its session, which is in the phase that is expected of it. -/
structure Tracks (s : Server ω) (t : ℕ → Session) : Prop where
  lt : ∀ fd, s.InPlay fd → s.conn fd < s.accepted
  inj : ∀ fd fd', s.InPlay fd → s.InPlay fd' → s.conn fd = s.conn fd' → fd = fd'
  unborn : ∀ n, s.accepted ≤ n → t n = Session.unborn
  alike : ∀ fd, s.InPlay fd → HttpConn.Alike False (t (s.conn fd)).conn (s.users fd)
  opened : ∀ n, (t n).opened = true ↔ ∃ fd ∈ s.opened, s.conn fd = n
  phase : ∀ fd P, s.Expects fd P → P (t (s.conn fd)).phase
  dropped : ∀ w job, s.workers w = .closed job → (s.users job.fd).sockfd = none

theorem init_tracks (users : ℕ → HttpConn) (usersTimer : ℕ → ClientData) (maxRequest : ℕ) :
  (init users usersTimer maxRequest : Server ω).Tracks fun _ => Session.unborn
  := by
  have hidle : ∀ fd, ¬ (init users usersTimer maxRequest : Server ω).InPlay fd := by
    rintro fd (hfd | ⟨job, hjob | ⟨w, hw⟩, -⟩)
    · cases hfd
    · cases hjob
    · cases hw
  refine ⟨?_, ?_, fun _ _ => rfl, ?_, ?_, ?_, nofun⟩
  · exact fun fd hfd => absurd hfd (hidle fd)
  · exact fun fd _ hfd => absurd hfd (hidle fd)
  · exact fun fd hfd => absurd hfd (hidle fd)
  · intro n
    constructor
    · intro h
      cases h
    · rintro ⟨fd, hfd, -⟩
      cases hfd
  · intro fd ph h
    cases h with
    | armed h | readable h | writable h | queued h _ | took h _ | rearms h _ => cases h

/-- An object that something is expected of is in play. -/
theorem Expects.inPlay {s : Server ω} (hs : s.Guarded) {fd : ℕ} {P : Phase → Prop}
    (h : s.Expects fd P) :
  s.InPlay fd
  := by
  have hpending : ∀ ev, Ready.client fd ev ∈ s.batch.getD [] → s.InPlay fd := by
    intro ev hev
    apply Or.inl (hs.polled.opened fd _)
    exact List.mem_filterMap.mpr ⟨.client fd ev, hev, rfl⟩
  cases h with
  | armed h =>
      apply Or.inl (hs.polled.armed fd _)
      rw [h]
      apply Option.some_ne_none
  | readable h => apply hpending .readable h
  | writable h => apply hpending .writable h
  | @queued job h hfd => exact Or.inr ⟨job, Or.inl h, hfd⟩
  | @took w job h hfd => exact Or.inr ⟨job, Or.inr ⟨w, congrArg Worker.job h⟩, hfd⟩
  | @rearms w job ev h hfd => exact Or.inr ⟨job, Or.inr ⟨w, congrArg Worker.job h⟩, hfd⟩

/-- Nothing is expected of a connection while `main` handles its event. -/
theorem Served.not_expects {s : Server ω} {fd : ℕ} (h : s.Served fd) (P : Phase → Prop) :
  ¬ s.Expects fd P
  := by
  have hpending : ∀ ev, Ready.client fd ev ∉ s.batch.getD [] := by
    intro ev hev
    apply h.not_pending
    exact List.mem_filterMap.mpr ⟨.client fd ev, hev, rfl⟩
  intro hexpects
  cases hexpects with
  | armed hev => cases h.disarmed.symm.trans hev
  | readable hev => exact hpending _ hev
  | writable hev => exact hpending _ hev
  | @queued job hjob hfd => exact h.free job (Or.inl hjob) hfd
  | @took w job hw hfd => exact h.free job (Or.inr ⟨w, congrArg Worker.job hw⟩) hfd
  | @rearms w job ev hw hfd => exact h.free job (Or.inr ⟨w, congrArg Worker.job hw⟩) hfd

/-! ### What a step leaves of the sessions -/

/-- Nothing new happens to a descriptor between two states. -/
structure Quiet (s s' : Server ω) (fd : ℕ) : Prop where
  epoll : ∀ ev, s'.epoll fd = some ev → s.epoll fd = some ev
  batch : ∀ ev, Ready.client fd ev ∈ s'.batch.getD [] → .client fd ev ∈ s.batch.getD []
  queue : ∀ job ∈ s'.workqueue, job.fd = fd → job ∈ s.workqueue
  workers : ∀ w job, (s'.workers w).job = some job → job.fd = fd → s.workers w = s'.workers w

theorem Quiet.expects {s s' : Server ω} {fd : ℕ} (h : Quiet s s' fd) {P : Phase → Prop}
    (hP : s'.Expects fd P) :
  s.Expects fd P
  := by
  cases hP with
  | armed hev => exact .armed (h.epoll _ hev)
  | readable hev => exact .readable (h.batch _ hev)
  | writable hev => exact .writable (h.batch _ hev)
  | queued hjob hfd => exact .queued (h.queue _ hjob hfd) hfd
  | @took w job hw hfd =>
      have heq := h.workers w job (congrArg Worker.job hw) hfd
      exact .took (heq.trans hw) hfd
  | @rearms w job ev hw hfd =>
      have heq := h.workers w job (congrArg Worker.job hw) hfd
      exact .rearms (heq.trans hw) hfd

theorem Quiet.handled {s s' : Server ω} {job : Job} (h : Quiet s s' job.fd)
    (hjob : s'.Handled job) :
  s.Handled job
  := by
  rcases hjob with hjob | ⟨w, hw⟩
  · apply Or.inl (h.queue job hjob rfl)
  · refine Or.inr ⟨w, ?_⟩
    rw [h.workers w job hw rfl]
    exact hw

section Tracks

variable {s s' : Server ω} {t : ℕ → Session} {fd : ℕ}

/-- What changes nothing for the connections leaves the sessions. -/
theorem Tracks.still (h : s.Tracks t) (hconn : s'.conn = s.conn)
    (haccepted : s'.accepted = s.accepted) (hopened : s'.opened = s.opened)
    (husers : s'.users = s.users) (hhandled : ∀ job, s'.Handled job → s.Handled job)
    (hexpects : ∀ fd P, s'.Expects fd P → ∃ P', s.Expects fd P' ∧ ∀ ph, P' ph → P ph)
    (hclosed : ∀ w job, s'.workers w = .closed job → s.workers w = .closed job) :
  s'.Tracks t
  := by
  have hplay : ∀ fd, s'.InPlay fd → s.InPlay fd := by
    rintro fd (hfd | ⟨job, hjob, hfd⟩)
    · exact Or.inl (hopened ▸ hfd)
    · exact Or.inr ⟨job, hhandled job hjob, hfd⟩
  constructor
  · rw [hconn, haccepted]
    exact fun fd hfd => h.lt fd (hplay fd hfd)
  · rw [hconn]
    exact fun fd fd' hfd hfd' => h.inj fd fd' (hplay fd hfd) (hplay fd' hfd')
  · rw [haccepted]
    exact h.unborn
  · rw [hconn, husers]
    exact fun fd hfd => h.alike fd (hplay fd hfd)
  · rw [hconn, hopened]
    exact h.opened
  · rw [hconn]
    intro fd P hP
    obtain ⟨P', hP', himp⟩ := hexpects fd P hP
    exact himp _ (h.phase fd P' hP')
  · rw [husers]
    exact fun w job hw => h.dropped w job (hclosed w job hw)

theorem Tracks.quiet (h : s.Tracks t) (hconn : s'.conn = s.conn)
    (haccepted : s'.accepted = s.accepted) (hopened : s'.opened = s.opened)
    (husers : s'.users = s.users) (hquiet : ∀ fd, Quiet s s' fd) :
  s'.Tracks t
  := by
  apply h.still hconn haccepted hopened husers
  · exact fun job hjob => (hquiet job.fd).handled hjob
  · exact fun fd P hP => ⟨P, (hquiet fd).expects hP, fun _ => id⟩
  · intro w job hw
    rw [(hquiet job.fd).workers w job (congrArg Worker.job hw) rfl]
    exact hw

/-- What happens to one object in play is what happens to its session. -/
theorem Tracks.touch (h : s.Tracks t) (hs : s.Guarded) {c : HttpConn} {x : Session}
    (hfd : s.InPlay fd) (hconn : s'.conn = s.conn) (haccepted : s'.accepted = s.accepted)
    (hopened : s'.opened = s.opened) (husers : s'.users = Function.update s.users fd c)
    (hothers : ∀ fd', fd' ≠ fd → Quiet s s' fd') (hx : HttpConn.Alike False x.conn c)
    (hxopened : x.opened = (t (s.conn fd)).opened)
    (hphase : ∀ P, s'.Expects fd P → P x.phase)
    (hdropped : ∀ w job, s'.workers w = .closed job → job.fd = fd → c.sockfd = none) :
  s'.Tracks (Function.update t (s.conn fd) x)
  := by
  have hplay : ∀ fd', s'.InPlay fd' → s.InPlay fd' := by
    intro fd' hfd'
    by_cases heq : fd' = fd
    · rw [heq]
      exact hfd
    · rcases hfd' with hfd' | ⟨job, hjob, rfl⟩
      · exact Or.inl (hopened ▸ hfd')
      · exact Or.inr ⟨job, (hothers job.fd heq).handled hjob, rfl⟩
  have hne : ∀ fd', s'.InPlay fd' → fd' ≠ fd → s.conn fd' ≠ s.conn fd :=
    fun fd' hfd' hne heq => hne (h.inj fd' fd (hplay fd' hfd') hfd heq)
  constructor
  · rw [hconn, haccepted]
    exact fun fd' hfd' => h.lt fd' (hplay fd' hfd')
  · rw [hconn]
    exact fun fd₁ fd₂ h₁ h₂ => h.inj fd₁ fd₂ (hplay fd₁ h₁) (hplay fd₂ h₂)
  · rw [haccepted]
    intro n hn
    rw [Function.update_of_ne ((h.lt fd hfd).trans_le hn).ne']
    apply h.unborn n hn
  · intro fd' hfd'
    rw [hconn, husers]
    by_cases heq : fd' = fd
    · rw [heq, Function.update_self, Function.update_self]
      exact hx
    · rw [Function.update_of_ne (hne fd' hfd' heq), Function.update_of_ne heq]
      apply h.alike fd' (hplay fd' hfd')
  · intro n
    rw [hconn, hopened, ← h.opened n]
    by_cases heq : n = s.conn fd
    · rw [heq, Function.update_self, hxopened]
    · rw [Function.update_of_ne heq]
  · intro fd' ph hph
    rw [hconn]
    by_cases heq : fd' = fd
    · rw [heq] at hph ⊢
      rw [Function.update_self]
      apply hphase ph hph
    · have hexpects := (hothers fd' heq).expects hph
      rw [Function.update_of_ne fun hsame => heq (h.inj fd' fd (hexpects.inPlay hs) hfd hsame)]
      apply h.phase fd' ph hexpects
  · intro w job hw
    rw [husers]
    by_cases heq : job.fd = fd
    · rw [heq, Function.update_self]
      apply hdropped w job hw heq
    · rw [Function.update_of_ne heq]
      apply h.dropped w job
      rw [(hothers job.fd heq).workers w job (congrArg Worker.job hw) rfl]
      exact hw

/-- The sessions behind the closing of the connections `conns`. -/
def closed (t : ℕ → Session) (conns : List ℕ) (n : ℕ) : Session :=
  if n ∈ conns then { t n with opened := false } else t n

theorem closed_conn (t : ℕ → Session) (conns : List ℕ) (n : ℕ) :
  (closed t conns n).conn = (t n).conn
  := by
  rw [closed]
  split
  · rfl
  · rfl

theorem closed_phase (t : ℕ → Session) (conns : List ℕ) (n : ℕ) :
  (closed t conns n).phase = (t n).phase
  := by
  rw [closed]
  split
  · rfl
  · rfl

theorem closings_traces {conns : List ℕ} (hnodup : conns.Nodup)
    (hopened : ∀ n ∈ conns, (t n).opened = true) :
  Run.Traces (Run.each Session.step) t (closings conns) (closed t conns)
  := by
  induction conns generalizing t with
  | nil =>
      funext n
      rw [closed, if_neg List.not_mem_nil]
  | cons n conns ih =>
      obtain ⟨hn, hnodup⟩ := List.nodup_cons.mp hnodup
      obtain ⟨hopen, hopened⟩ := List.forall_mem_cons.mp hopened
      have hstep : Run.each Session.step t (n, .close) =
          some (.closed, Function.update t n { t n with opened := false }) := by
        rw [Run.each, Session.step_close hopen]
        rfl
      have hrest : ∀ m ∈ conns,
          (Function.update t n { t n with opened := false } m).opened = true := by
        intro m hm
        rw [Function.update_of_ne (ne_of_mem_of_not_mem hm hn)]
        apply hopened m hm
      have hend : closed t (n :: conns) =
          closed (Function.update t n { t n with opened := false }) conns := by
        funext m
        by_cases hm : m = n
        · rw [closed, if_pos (hm ▸ List.mem_cons_self), closed, if_neg (hm ▸ hn), hm,
            Function.update_self]
        · simp only [closed, Function.update_of_ne hm, List.mem_cons, hm, false_or]
      rw [hend]
      exact ⟨_, hstep, ih hnodup hrest⟩

theorem mem_shut {n : ℕ} :
  n ∈ shut s s' ↔ ∃ fd ∈ s.opened, fd ∉ s'.opened ∧ s.conn fd = n
  := by
  rw [shut, List.mem_map]
  constructor
  · rintro ⟨fd, hfd, rfl⟩
    obtain ⟨hfd, hfd'⟩ := Finset.mem_sdiff.mp ((Finset.mem_sort ..).mp hfd)
    exact ⟨fd, hfd, hfd', rfl⟩
  · rintro ⟨fd, hfd, hfd', rfl⟩
    exact ⟨fd, (Finset.mem_sort ..).mpr (Finset.mem_sdiff.mpr ⟨hfd, hfd'⟩), rfl⟩

/-- Nothing is closed when all that was open is open. -/
theorem shut_nil (h : s.opened ⊆ s'.opened) :
  shut s s' = []
  := by
  rw [shut, Finset.sdiff_eq_empty_iff_subset.mpr h, Finset.sort_empty]
  rfl

theorem traces_shut_nil (h : s.opened ⊆ s'.opened) :
  Run.Traces (Run.each Session.step) t (closings (shut s s')) t
  := by
  rw [shut_nil h]
  rfl

/-- Connections are closed, and nothing else happens to the objects. -/
theorem Tracks.shut (h : s.Tracks t) (hsub : s'.opened ⊆ s.opened) (hconn : s'.conn = s.conn)
    (haccepted : s'.accepted = s.accepted) (husers : s'.users = s.users)
    (hquiet : ∀ fd, Quiet s s' fd) :
  Run.Traces (Run.each Session.step) t (closings (Server.shut s s')) (closed t (Server.shut s s')) ∧
    s'.Tracks (closed t (Server.shut s s'))
  := by
  have hplay : ∀ fd, s'.InPlay fd → s.InPlay fd := by
    rintro fd (hfd | ⟨job, hjob, rfl⟩)
    · exact Or.inl (hsub hfd)
    · exact Or.inr ⟨job, (hquiet job.fd).handled hjob, rfl⟩
  constructor
  · apply closings_traces
    · rw [Server.shut]
      apply List.Nodup.map_on _ (Finset.sort_nodup ..)
      intro fd hfd fd' hfd' heq
      have hmem : ∀ fd ∈ (s.opened \ s'.opened).sort (· ≤ ·), s.InPlay fd := fun fd hfd =>
        Or.inl (Finset.mem_sdiff.mp ((Finset.mem_sort ..).mp hfd)).1
      apply h.inj fd fd' (hmem fd hfd) (hmem fd' hfd') heq
    · intro n hn
      obtain ⟨fd, hfd, -, hn⟩ := mem_shut.mp hn
      exact (h.opened n).mpr ⟨fd, hfd, hn⟩
  · constructor
    · rw [hconn, haccepted]
      exact fun fd hfd => h.lt fd (hplay fd hfd)
    · rw [hconn]
      exact fun fd fd' hfd hfd' => h.inj fd fd' (hplay fd hfd) (hplay fd' hfd')
    · rw [haccepted]
      intro n hn
      rw [closed, if_neg, h.unborn n hn]
      intro hmem
      obtain ⟨fd, hfd, -, rfl⟩ := mem_shut.mp hmem
      exact absurd hn (h.lt fd (Or.inl hfd)).not_ge
    · rw [hconn, husers]
      intro fd hfd
      rw [closed_conn]
      apply h.alike fd (hplay fd hfd)
    · intro n
      rw [hconn, closed]
      by_cases hn : n ∈ Server.shut s s'
      · rw [if_pos hn]
        obtain ⟨fd, hfd, hfd', rfl⟩ := mem_shut.mp hn
        constructor
        · intro hfalse
          cases hfalse
        · rintro ⟨fd', hopen, heq⟩
          obtain rfl := h.inj fd' fd (Or.inl (hsub hopen)) (Or.inl hfd) heq
          exact absurd hopen hfd'
      · rw [if_neg hn, h.opened n]
        constructor
        · rintro ⟨fd, hfd, rfl⟩
          refine ⟨fd, ?_, rfl⟩
          by_contra hfd'
          exact hn (mem_shut.mpr ⟨fd, hfd, hfd', rfl⟩)
        · rintro ⟨fd, hfd, heq⟩
          exact ⟨fd, hsub hfd, heq⟩
    · rw [hconn]
      intro fd ph hph
      rw [closed_phase]
      apply h.phase fd ph ((hquiet fd).expects hph)
    · rw [husers]
      intro w job hw
      apply h.dropped w job
      rw [(hquiet job.fd).workers w job (congrArg Worker.job hw) rfl]
      exact hw

theorem Quiet.trans {s₁ : Server ω} (h : Quiet s s₁ fd) (h' : Quiet s₁ s' fd) :
  Quiet s s' fd
  where
  epoll := fun ev hev => h.epoll ev (h'.epoll ev hev)
  batch := fun ev hev => h.batch ev (h'.batch ev hev)
  queue := fun job hjob hfd => h.queue job (h'.queue job hjob hfd) hfd
  workers := by
    intro w job hw hfd
    have heq := h'.workers w job hw hfd
    rw [← heq] at hw ⊢
    apply h.workers w job hw hfd

/-- What leaves the descriptors, the queue and the workers is quiet. -/
theorem quiet_of_eq (hepoll : ∀ ev, s'.epoll fd = some ev → s.epoll fd = some ev)
    (hbatch : ∀ r ∈ s'.batch.getD [], r ∈ s.batch.getD []) (hqueue : s'.workqueue = s.workqueue)
    (hworkers : s'.workers = s.workers) :
  Quiet s s' fd
  where
  epoll := hepoll
  batch := fun _ hev => hbatch _ hev
  queue := fun _ hjob _ => hqueue ▸ hjob
  workers := fun w _ _ _ => congrFun hworkers.symm w

theorem users_quiet (s : Server ω) (users : ℕ → HttpConn) (fd : ℕ) :
  Quiet s { s with users := users } fd
  := quiet_of_eq (fun _ hev => hev) (fun _ hr => hr) rfl rfl

/-! ### The operations of `main` -/

theorem next_quiet {r : Ready} {rest : List Ready} (hbatch : s.batch = some (r :: rest)) (fd : ℕ) :
  Quiet s { s with batch := some rest } fd
  := by
  refine quiet_of_eq (fun _ hev => hev) ?_ rfl rfl
  intro r' hr'
  rw [hbatch]
  apply List.mem_cons_of_mem r hr'

/-- The first event of a batch is taken out of it. -/
theorem Tracks.next (h : s.Tracks t) {r : Ready} {rest : List Ready}
    (hbatch : s.batch = some (r :: rest)) :
  Tracks { s with batch := some rest } t
  := h.quiet rfl rfl rfl rfl fun fd => next_quiet hbatch fd

theorem close_quiet (s : Server ω) (fd fd' : ℕ) :
  Quiet s (s.close fd) fd'
  := by
  refine quiet_of_eq ?_ (fun _ hr => hr) rfl rfl
  intro ev hev
  change Function.update s.epoll fd none fd' = some ev at hev
  by_cases heq : fd' = fd
  · rw [heq, Function.update_self] at hev
    cases hev
  · rw [Function.update_of_ne heq] at hev
    exact hev

theorem cbFunc_quiet (s : Server ω) (timer slot fd : ℕ) :
  Quiet s (s.cbFunc timer slot) fd
  := { s.close_quiet (s.usersTimer slot).sockfd fd with }

theorem foldl_cbFunc_quiet (s : Server ω) (calls : List (ℕ × ℕ)) (fd : ℕ) :
  Quiet s (calls.foldl (fun s call => s.cbFunc call.1 call.2) s) fd
  := by
  induction calls generalizing s with
  | nil => exact quiet_of_eq (fun _ hev => hev) (fun _ hr => hr) rfl rfl
  | cons call calls ih => exact (s.cbFunc_quiet call.1 call.2 fd).trans (ih _)

theorem foldl_cbFunc_opened (s : Server ω) (calls : List (ℕ × ℕ)) :
  (calls.foldl (fun s call => s.cbFunc call.1 call.2) s).opened ⊆ s.opened
  := by
  induction calls generalizing s with
  | nil => exact Finset.Subset.refl _
  | cons call calls ih => exact (ih _).trans (Finset.erase_subset ..)

/-- A timer closes a connection. -/
theorem Tracks.closeByTimer (h : s.Tracks t) (hs' : s.closeByTimer fd = some s') :
  Run.Traces (Run.each Session.step) t (closings (Server.shut s s')) (closed t (Server.shut s s')) ∧
    s'.Tracks (closed t (Server.shut s s'))
  := by
  obtain ⟨timer, timerLst, -, -, rfl⟩ := closeByTimer_eq_some hs'
  refine h.shut (Finset.erase_subset ..) rfl rfl rfl ?_
  intro fd'
  have hclose := s.cbFunc_quiet timer fd fd'
  exact { hclose with }

/-- `append` puts nothing into the queue but the object of the connection. -/
theorem append_eq (s : Server ω) (fd : ℕ) :
  ∃ queue, s.append fd = { s with workqueue := queue } ∧
    ∀ job ∈ queue, job ∈ s.workqueue ∨ job.fd = fd
  := by
  rw [append]
  split
  · exact ⟨s.workqueue, rfl, fun job hjob => Or.inl hjob⟩
  · refine ⟨_, rfl, ?_⟩
    intro job hjob
    apply (List.mem_append.mp hjob).imp id
    intro hjob
    rw [List.mem_singleton.mp hjob]

/-- What is expected of a connection behind a change of the queue. -/
theorem Served.expects_queue (hfd : s.Served fd) (hepoll : s'.epoll = s.epoll)
    (hbatch : s'.batch = s.batch) (hworkers : s'.workers = s.workers) {P : Phase → Prop}
    (h : s'.Expects fd P) :
  P .queued
  := by
  cases h with
  | queued | took => rfl
  | armed hev => exact absurd (.armed (hepoll ▸ hev)) (hfd.not_expects _)
  | readable hev => exact absurd (.readable (hbatch ▸ hev)) (hfd.not_expects _)
  | writable hev => exact absurd (.writable (hbatch ▸ hev)) (hfd.not_expects _)
  | rearms hw hjob => exact absurd (.rearms (hworkers ▸ hw) hjob) (hfd.not_expects _)

/-- `main` reads from a connection whose turn it is. -/
theorem Tracks.readConn (h : s.Tracks t) (hs : s.Guarded) (hfd : s.Served fd)
    (hphase : (t (s.conn fd)).phase = .reading) {rs : List Recv} {cur : ℤ}
    (hs' : s.readConn fd rs cur = some s') :
  ∃ t', Run.Traces (Run.each Session.step) t
      ((((s.users fd).read rs).map fun r =>
        ((s.conn fd, SessionEvent.read rs), Seen.read r.1)).toList
          ++ closings (Server.shut s s')) t' ∧
    s'.Tracks t'
  := by
  obtain ⟨⟨ok, c⟩, hread, hs'⟩ := Option.bind_eq_some_iff.mp hs'
  have hplay : s.InPlay fd := Or.inl hfd.opened
  have hopened : (t (s.conn fd)).opened = true := (h.opened _).mpr ⟨fd, hfd.opened, rfl⟩
  rcases (h.alike fd hplay).read rs with ⟨-, hnone⟩ | ⟨ok', c₀, c', hread₀, hread', halike⟩
  · cases hnone.symm.trans hread
  obtain ⟨rfl, rfl⟩ := Prod.mk.inj (Option.some.inj (hread'.symm.trans hread))
  have hstep : Run.each Session.step t (s.conn fd, .read rs) = some (.read ok',
      Function.update t (s.conn fd)
        { t (s.conn fd) with conn := c₀, phase := if ok' then .queued else .ending }) := by
    rw [Run.each, Session.step_read hopened hphase hread₀]
    rfl
  rw [hread]
  cases ok' with
  | false =>
      have htouch : Tracks { s with users := Function.update s.users fd c' }
          (Function.update t (s.conn fd) { t (s.conn fd) with conn := c₀, phase := .ending }) := by
        refine h.touch hs hplay rfl rfl rfl rfl (fun fd' _ => s.users_quiet _ fd') halike rfl ?_ ?_
        · intro ph hph
          exact absurd ((s.users_quiet _ fd).expects hph) (hfd.not_expects ph)
        · intro w job hw hjob
          exact absurd hjob (hfd.free job (Or.inr ⟨w, congrArg Worker.job hw⟩))
      obtain ⟨htraces, htracks⟩ := htouch.closeByTimer hs'
      exact ⟨_, ⟨_, hstep, htraces⟩, htracks⟩
  | true =>
      obtain ⟨queue, hqueue, hmem⟩ := append_eq { s with users := Function.update s.users fd c' } fd
      change (Server.append _ fd).delayTimer fd cur = some s' at hs'
      rw [hqueue] at hs'
      obtain ⟨timerLst, rfl⟩ := delayTimer_eq_some hs'
      refine ⟨_, ⟨_, hstep, traces_shut_nil (Finset.Subset.refl _)⟩,
        h.touch (x := { t (s.conn fd) with conn := c₀, phase := .queued }) hs hplay rfl rfl rfl rfl
          ?_ halike rfl ?_ ?_⟩
      · intro fd' hne
        refine ⟨fun _ hev => hev, fun _ hev => hev, ?_, fun _ _ _ _ => rfl⟩
        intro job hjob hfd'
        exact (hmem job hjob).resolve_right fun heq => hne (hfd'.symm.trans heq)
      · intro ph hph
        refine hfd.expects_queue ?_ ?_ ?_ hph
        · rfl
        · rfl
        · rfl
      · intro w job hw hjob
        exact absurd hjob (hfd.free job (Or.inr ⟨w, congrArg Worker.job hw⟩))

/-- `modfd` arms no descriptor but its own, and for no other event. -/
theorem arm_eq (s : Server ω) (fd : Option ℕ) (ev : Interest) :
  ∃ epoll added, s.arm fd ev = { s with epoll := epoll, added := added } ∧
    ∀ fd' ev', epoll fd' = some ev' → s.epoll fd' = some ev' ∨ fd = some fd' ∧ ev' = ev
  := by
  cases fd with
  | none => exact ⟨s.epoll, s.added, rfl, fun _ _ hev => Or.inl hev⟩
  | some fd =>
      rw [arm]
      split
      · refine ⟨_, _, rfl, ?_⟩
        intro fd' ev' hev
        by_cases heq : fd' = fd
        · rw [heq, Function.update_self] at hev
          exact Or.inr ⟨congrArg some heq.symm, (Option.some.inj hev).symm⟩
        · rw [Function.update_of_ne heq] at hev
          exact Or.inl hev
      · exact ⟨s.epoll, s.added, rfl, fun _ _ hev => Or.inl hev⟩

theorem arm_opened (s : Server ω) (fd : Option ℕ) (ev : Interest) :
  (s.arm fd ev).opened = s.opened
  := by
  obtain ⟨epoll, added, harm, -⟩ := arm_eq s fd ev
  rw [harm]

/-- `write` arms no descriptor but that of its object, and for no other event than its end
says. -/
theorem sendConn_eq {os : List Outcome} {ok : Bool} (h : s.sendConn fd os = some (ok, s')) :
  ∃ c e epoll added, (s.users fd).write os = (c, some e) ∧ ok = e.result ∧
    s' = { s with users := Function.update s.users fd c, epoll := epoll, added := added } ∧
    ∀ fd' ev, epoll fd' = some ev →
      s.epoll fd' = some ev ∨ c.sockfd = some fd' ∧ e.interest = some ev
  := by
  rw [sendConn] at h
  split at h
  next => cases h
  next c e hwrite =>
    split at h
    next hnone =>
      obtain ⟨rfl, rfl⟩ := Prod.mk.inj (Option.some.inj h)
      exact ⟨c, e, s.epoll, s.added, hwrite, rfl, rfl, fun _ _ hev => Or.inl hev⟩
    next ev hev =>
      obtain ⟨rfl, rfl⟩ := Prod.mk.inj (Option.some.inj h)
      obtain ⟨epoll, added, harm, hepoll⟩ :=
        arm_eq { s with users := Function.update s.users fd c } c.sockfd ev
      refine ⟨c, e, epoll, added, hwrite, rfl, harm, ?_⟩
      intro fd' ev' hev'
      apply (hepoll fd' ev' hev').imp id
      rintro ⟨hsock, rfl⟩
      exact ⟨hsock, hev⟩

/-- `main` writes to a connection whose turn it is. -/
theorem Tracks.writeConn (h : s.Tracks t) (hs : s.Guarded) (hfd : s.Served fd)
    (hphase : (t (s.conn fd)).phase = .sending ∨ (t (s.conn fd)).phase = .reading)
    {os : List Outcome} {cur : ℤ} (hs' : s.writeConn fd os cur = some s') :
  ∃ t', Run.Traces (Run.each Session.step) t
      ((((s.users fd).write os).2.map fun e =>
        ((s.conn fd, SessionEvent.write os), Seen.wrote ((s.users fd).wrote os) e)).toList ++
          closings (Server.shut s s')) t' ∧
    s'.Tracks t'
  := by
  obtain ⟨⟨ok, s₁⟩, hs₁, hs'⟩ := Option.bind_eq_some_iff.mp hs'
  have hplay : s.InPlay fd := Or.inl hfd.opened
  have hopened : (t (s.conn fd)).opened = true := (h.opened _).mpr ⟨fd, hfd.opened, rfl⟩
  obtain ⟨c, e, epoll, added, hwrite, rfl, rfl, hepoll⟩ := sendConn_eq hs₁
  have hsock : c.sockfd = some fd := by
    have hsock := (s.users fd).write_sockfd os
    rw [hwrite] at hsock
    exact hsock.trans (hs.owned.sock fd hfd.opened)
  have halike := h.alike fd hplay
  obtain ⟨hend, hafter⟩ := halike.write os
  rw [hwrite] at hend hafter
  have hstep : Run.each Session.step t (s.conn fd, .write os) =
      some (.wrote ((s.users fd).wrote os) e, Function.update t (s.conn fd)
        { t (s.conn fd) with conn := ((t (s.conn fd)).conn.write os).1, phase := e.phase }) := by
    rw [Run.each, Session.step_write hopened hphase (Prod.ext rfl hend.symm), halike.wrote]
    rfl
  have hidle : ∀ w job, s.workers w = .closed job → job.fd = fd → c.sockfd = none :=
    fun w job hw hjob => absurd hjob (hfd.free job (Or.inr ⟨w, congrArg Worker.job hw⟩))
  have hfar : ∀ fd' ev, fd' ≠ fd → epoll fd' = some ev → s.epoll fd' = some ev := by
    intro fd' ev hne hev
    apply (hepoll fd' ev hev).resolve_right
    rintro ⟨hsock', -⟩
    exact hne (Option.some.inj (hsock'.symm.trans hsock))
  rw [hwrite]
  dsimp only at hs'
  split at hs'
  next hresult =>
    obtain ⟨timerLst, rfl⟩ := delayTimer_eq_some hs'
    refine ⟨_, ⟨_, hstep, traces_shut_nil (Finset.Subset.refl _)⟩,
      h.touch (x := { t (s.conn fd) with conn := _, phase := e.phase }) hs hplay rfl rfl rfl rfl
        (fun fd' hne => quiet_of_eq (fun ev => hfar fd' ev hne) (fun _ hr => hr) rfl rfl) hafter rfl
        ?_ hidle⟩
    intro ph hph
    cases hph with
    | @armed ev hev =>
        rcases hepoll fd ev hev with hev | ⟨-, hev⟩
        · exact absurd (.armed hev) (hfd.not_expects _)
        · exact WriteEnd.phase_eq hresult hev
    | readable hev => exact absurd (.readable hev) (hfd.not_expects _)
    | writable hev => exact absurd (.writable hev) (hfd.not_expects _)
    | queued hjob hfd' => exact absurd (.queued hjob hfd') (hfd.not_expects _)
    | took hw hfd' => exact absurd (.took hw hfd') (hfd.not_expects _)
    | rearms hw hfd' => exact absurd (.rearms hw hfd') (hfd.not_expects _)
  next =>
    -- the descriptor may be armed for `EPOLLIN`, but it is closed at once
    have htouch : Tracks { s with users := Function.update s.users fd c }
        (Function.update t (s.conn fd)
          { t (s.conn fd) with conn := ((t (s.conn fd)).conn.write os).1, phase := e.phase }) := by
      refine h.touch hs hplay rfl rfl rfl rfl (fun fd' _ => s.users_quiet _ fd') hafter rfl ?_ hidle
      intro ph hph
      exact absurd ((s.users_quiet _ fd).expects hph) (hfd.not_expects ph)
    obtain ⟨timer, timerLst, -, -, heq⟩ := closeByTimer_eq_some hs'
    have hquiet : ∀ fd', Quiet { s with users := Function.update s.users fd c } s' fd' := by
      intro fd'
      rw [heq]
      refine quiet_of_eq ?_ (fun _ hr => hr) rfl rfl
      intro ev hev
      change Function.update epoll (s.usersTimer fd).sockfd none fd' = some ev at hev
      rw [hs.owned.slot fd hfd.opened] at hev
      by_cases hne : fd' = fd
      · rw [hne, Function.update_self] at hev
        cases hev
      · rw [Function.update_of_ne hne] at hev
        exact hfar fd' ev hne hev
    have hsub : s'.opened ⊆ s.opened := by
      rw [heq]
      exact Finset.erase_subset ..
    obtain ⟨htraces, htracks⟩ :=
      htouch.shut hsub (by rw [heq]; rfl) (by rw [heq]; rfl) (by rw [heq]; rfl) hquiet
    exact ⟨_, ⟨_, hstep, htraces⟩, htracks⟩

/-- The session of a connection that was just accepted. -/
def fresh : Session where
  conn := Session.unborn.conn.init
  phase := .reading
  opened := true

/-- A connection whose object is free gets a session of its own. -/
theorem Tracks.initConn (h : s.Tracks t) (hs : s.Guarded) (hfd : ¬ s.InPlay fd)
    (added : Registration) :
  (s.initConn fd added).Tracks (Function.update t s.accepted fresh)
  := by
  have hnew : (s.initConn fd added).conn fd = s.accepted := Function.update_self ..
  have hold : ∀ fd', fd' ≠ fd → (s.initConn fd added).conn fd' = s.conn fd' := fun fd' hne =>
    Function.update_of_ne hne ..
  have hplay : ∀ fd', fd' ≠ fd → (s.initConn fd added).InPlay fd' → s.InPlay fd' := by
    rintro fd' hne (hfd' | hjob)
    · exact Or.inl (Finset.mem_of_mem_insert_of_ne hfd' hne)
    · exact Or.inr hjob
  have hpending : ∀ ev, Ready.client fd ev ∉ s.batch.getD [] := by
    intro ev hev
    apply hfd (Or.inl (hs.polled.opened fd _))
    exact List.mem_filterMap.mpr ⟨.client fd ev, hev, rfl⟩
  have hfree : ∀ job, s.Handled job → job.fd ≠ fd := fun job hjob heq =>
    hfd (Or.inr ⟨job, hjob, heq⟩)
  constructor
  · intro fd' hfd'
    by_cases heq : fd' = fd
    · rw [heq, hnew]
      exact Nat.lt_succ_self _
    · rw [hold fd' heq]
      exact Nat.lt_succ_of_lt (h.lt fd' (hplay fd' heq hfd'))
  · intro fd₁ fd₂ h₁ h₂ hconn
    by_cases heq₁ : fd₁ = fd
    · by_cases heq₂ : fd₂ = fd
      · exact heq₁.trans heq₂.symm
      · rw [heq₁, hnew, hold fd₂ heq₂] at hconn
        exact absurd hconn.symm (h.lt fd₂ (hplay fd₂ heq₂ h₂)).ne
    · by_cases heq₂ : fd₂ = fd
      · rw [heq₂, hnew, hold fd₁ heq₁] at hconn
        exact absurd hconn (h.lt fd₁ (hplay fd₁ heq₁ h₁)).ne
      · rw [hold fd₁ heq₁, hold fd₂ heq₂] at hconn
        exact h.inj fd₁ fd₂ (hplay fd₁ heq₁ h₁) (hplay fd₂ heq₂ h₂) hconn
  · intro n hn
    rw [Function.update_of_ne (Nat.lt_of_succ_le hn).ne']
    exact h.unborn n (Nat.le_of_succ_le hn)
  · intro fd' hfd'
    change HttpConn.Alike False _ (Function.update s.users fd ((s.users fd).initAt fd) fd')
    by_cases heq : fd' = fd
    · rw [heq, hnew, Function.update_self, Function.update_self]
      exact (HttpConn.init_alike _ _).socket _
    · have hplay := hplay fd' heq hfd'
      rw [hold fd' heq, Function.update_of_ne (h.lt fd' hplay).ne, Function.update_of_ne heq]
      exact h.alike fd' hplay
  · intro n
    by_cases hn : n = s.accepted
    · rw [hn, Function.update_self]
      exact ⟨fun _ => ⟨fd, Finset.mem_insert_self .., hnew⟩, fun _ => rfl⟩
    · rw [Function.update_of_ne hn, h.opened n]
      constructor
      · rintro ⟨fd', hfd', rfl⟩
        have hne : fd' ≠ fd := fun heq => hfd (Or.inl (heq ▸ hfd'))
        exact ⟨fd', Finset.mem_insert_of_mem hfd', hold fd' hne⟩
      · rintro ⟨fd', hfd', rfl⟩
        have hne : fd' ≠ fd := fun heq => hn (by rw [heq, hnew])
        exact ⟨fd', Finset.mem_of_mem_insert_of_ne hfd' hne, (hold fd' hne).symm⟩
  · intro fd' ph hph
    by_cases heq : fd' = fd
    · rw [heq, hnew, Function.update_self]
      rw [heq] at hph
      cases hph with
      | @armed ev hev =>
          have harmed : (s.initConn fd added).epoll fd = added.interest := Function.update_self ..
          cases added with
          | failed => cases harmed.symm.trans hev
          | made writable other =>
              obtain rfl := Option.some.inj (harmed.symm.trans hev)
              rfl
      | readable hev => exact absurd hev (hpending _)
      | writable hev => exact absurd hev (hpending _)
      | queued hjob heq => exact absurd heq (hfree _ (Or.inl hjob))
      | @took w job hw heq => exact absurd heq (hfree job (Or.inr ⟨w, congrArg Worker.job hw⟩))
      | @rearms w job ev hw heq => exact absurd heq (hfree job (Or.inr ⟨w, congrArg Worker.job hw⟩))
    · have hquiet : Quiet s (s.initConn fd added) fd' := by
        refine quiet_of_eq ?_ (fun _ hr => hr) rfl rfl
        intro ev hev
        exact (Function.update_of_ne heq ..).symm.trans hev
      have hexpects := hquiet.expects hph
      rw [hold fd' heq, Function.update_of_ne (h.lt fd' (hexpects.inPlay hs)).ne]
      exact h.phase fd' ph hexpects
  · intro w job hw
    have hne := hfree job (Or.inr ⟨w, congrArg Worker.job hw⟩)
    exact (congrArg HttpConn.sockfd (Function.update_of_ne hne ..)).trans (h.dropped w job hw)

/-- `main` accepts a connection. -/
theorem Tracks.acceptConn (h : s.Tracks t) (hs : s.Guarded) {timer : ℕ} {cur : ℤ}
    {added : Registration} (hfree : s.userCount < maxFd → ∀ job, s.Handled job → job.fd ≠ fd)
    (hs' : s.acceptConn fd timer cur added = some s') :
  ∃ t', Run.Traces (Run.each Session.step) t
      ((if s.userCount < maxFd then [((s.accepted, .accept), .accepted)] else []) ++
        closings (Server.shut s s')) t' ∧
    s'.Tracks t'
  := by
  obtain ⟨hfd, ⟨hmany, rfl⟩ | ⟨hfew, hs'⟩⟩ := acceptConn_eq_some hs'
  · rw [if_neg (not_lt.mpr hmany)]
    exact ⟨t, traces_shut_nil (Finset.Subset.refl _), h⟩
  · obtain ⟨_, timerLst, -, -, rfl⟩ := addTimer_eq_some hs'
    have hidle : ¬ s.InPlay fd := by
      rintro (hopen | ⟨job, hjob, heq⟩)
      · exact hfd hopen
      · exact hfree hfew job hjob heq
    have hstep : Run.each Session.step t (s.accepted, .accept) =
        some (.accepted, Function.update t s.accepted fresh) := by
      rw [Run.each, h.unborn s.accepted le_rfl, Session.step_accept rfl]
      rfl
    rw [if_pos hfew]
    refine ⟨_, ⟨_, hstep, traces_shut_nil (Finset.subset_insert ..)⟩, ?_⟩
    refine (h.initConn hs hidle added).quiet rfl rfl rfl rfl fun fd' => ?_
    exact quiet_of_eq (fun _ hev => hev) (fun _ hr => hr) rfl rfl

/-- `main` comes to the end of a batch. -/
theorem Tracks.finishBatch (h : s.Tracks t) {cur : ℤ} (hs' : s.finishBatch cur = some s') :
  ∃ t', Run.Traces (Run.each Session.step) t (closings (Server.shut s s')) t' ∧ s'.Tracks t'
  := by
  rw [Server.finishBatch] at hs'
  split at hs'
  · obtain ⟨⟨calls, lst⟩, -, hs'⟩ := Option.bind_eq_some_iff.mp hs'
    obtain rfl := Option.some.inj hs'
    have hopened := foldl_cbFunc_opened { s with batch := none, timeout := false } calls
    have hquiet := foldl_cbFunc_quiet { s with batch := none, timeout := false } calls
    obtain ⟨opened, epoll, userCount, subtracted, fired, heq⟩ :=
      foldl_cbFunc_eq { s with batch := none, timeout := false } calls
    rw [heq] at hopened hquiet ⊢
    refine ⟨_, h.shut hopened rfl rfl rfl fun fd => ?_⟩
    have hnext : Quiet s { s with batch := none, timeout := false } fd :=
      quiet_of_eq (fun _ hev => hev) (fun _ hr => by cases hr) rfl rfl
    exact { hnext.trans (hquiet fd) with }
  · obtain rfl := Option.some.inj hs'
    refine ⟨t, traces_shut_nil (Finset.Subset.refl _), h.quiet rfl rfl rfl rfl fun fd => ?_⟩
    exact quiet_of_eq (fun _ hev => hev) (fun _ hr => by cases hr) rfl rfl

/-- `epoll_wait` returns. -/
theorem Tracks.wait (h : s.Tracks t) {ready : List Ready} (hready : s.Deliverable ready) :
  Tracks { s with
    batch := some ready
    epoll := fun fd => if fd ∈ clients ready then none else s.epoll fd } t
  := by
  have hfits : ∀ fd ev, Ready.client fd ev ∈ ready → ev.fits (s.epoll fd) (s.added fd) = true :=
    fun fd ev hev => hready.2.2 _ hev
  refine h.still rfl rfl rfl rfl (fun _ hjob => hjob) ?_ fun _ _ hw => hw
  intro fd P hP
  cases hP with
  | @armed ev hev =>
      dsimp only at hev
      split at hev
      · cases hev
      · exact ⟨_, .armed hev, fun _ => id⟩
  | readable hev =>
      exact ⟨_, .armed (of_decide_eq_true (hfits fd .readable hev)), fun _ => id⟩
  | writable hev =>
      have harmed := hready.armed (List.mem_filterMap.mpr ⟨.client fd .writable, hev, rfl⟩)
      obtain ⟨ev, hepoll⟩ := Option.ne_none_iff_exists'.mp harmed
      refine ⟨_, .armed hepoll, ?_⟩
      rintro _ rfl
      cases ev with
      | epollIn => exact .inr rfl
      | epollOut => exact .inl rfl
  | queued hjob hfd => exact ⟨_, .queued hjob hfd, fun _ => id⟩
  | took hw hfd => exact ⟨_, .took hw hfd, fun _ => id⟩
  | rearms hw hfd => exact ⟨_, .rearms hw hfd, fun _ => id⟩

/-! ### The workers -/

section Workers

variable [DecidableEq ω] {w : ω} {job : Job}

/-- What a worker with a job does is quiet for the descriptors of the other jobs. -/
theorem setWorker_quiet {x : Worker} (hx : ∀ job', x.job = some job' → job'.fd = job.fd)
    (hfd : fd ≠ job.fd) :
  Quiet s (s.setWorker w x) fd
  := by
  refine ⟨fun _ hev => hev, fun _ hev => hev, fun _ hjob _ => hjob, ?_⟩
  intro w' job' hw' hjob'
  change (Function.update s.workers w x w').job = some job' at hw'
  change s.workers w' = Function.update s.workers w x w'
  by_cases heq : w' = w
  · rw [heq, Function.update_self] at hw'
    exact absurd (hjob'.symm.trans (hx job' hw')) hfd
  · rw [Function.update_of_ne heq]

/-- What is expected of a connection whose object a worker has is what the worker goes on
with. -/
theorem Guarded.expects_setWorker (hs : s.Guarded) (hw : (s.workers w).job = some job)
    {x : Worker} {P : Phase → Prop} (h : (s.setWorker w x).Expects job.fd P) :
  (∃ job', x = .took job' ∧ P = (· = .queued)) ∨ ∃ job' ev, x = .rearms job' ev ∧ P = (· = ev.phase)
  := by
  have hjob : s.Handled job := Or.inr ⟨w, hw⟩
  have hpending : ∀ ev, Ready.client job.fd ev ∉ s.batch.getD [] := by
    intro ev hev
    refine hs.pending_free job.fd ?_ job hjob rfl
    exact List.mem_filterMap.mpr ⟨.client job.fd ev, hev, rfl⟩
  have hself : ∀ w' job', (Function.update s.workers w x w').job = some job' →
      job'.fd = job.fd → w' = w := by
    intro w' job' hw' hfd
    rcases Threads.read_update_eq_some hw' with ⟨heq, -⟩ | ⟨-, hw'⟩
    · exact heq
    · exact hs.exclusive.one w' w job' job hw' hw hfd
  cases h with
  | armed hev => cases (hs.exclusive.disarmed job hjob).symm.trans hev
  | readable hev => exact absurd hev (hpending _)
  | writable hev => exact absurd hev (hpending _)
  | @queued job' hjob' hfd =>
      apply absurd _ (hs.exclusive.apart w job hw)
      rw [← hfd]
      exact List.mem_map_of_mem hjob'
  | @took w' job' hw' hfd =>
      obtain rfl := hself w' job' (congrArg Worker.job hw') hfd
      exact Or.inl ⟨job', (Function.update_self ..).symm.trans hw', rfl⟩
  | @rearms w' job' ev hw' hfd =>
      obtain rfl := hself w' job' (congrArg Worker.job hw') hfd
      exact Or.inr ⟨job', ev, (Function.update_self ..).symm.trans hw', rfl⟩

/-- A worker takes the first job from the queue. -/
theorem Tracks.take (h : s.Tracks t) {queue : List Job} (hqueue : s.workqueue = job :: queue) :
  ({ s with workqueue := queue }.setWorker w (.took job)).Tracks t
  := by
  have hhead : job ∈ s.workqueue := hqueue ▸ List.mem_cons_self
  have hrest : ∀ job' ∈ queue, job' ∈ s.workqueue := fun job' hjob' =>
    hqueue ▸ List.mem_cons_of_mem job hjob'
  refine h.still rfl rfl rfl rfl ?_ ?_ ?_
  · rintro job' (hjob' | ⟨w', hw'⟩)
    · exact Or.inl (hrest job' hjob')
    · rcases Threads.read_update_eq_some hw' with ⟨-, heq⟩ | ⟨-, hw'⟩
      · cases heq
        exact Or.inl hhead
      · exact Or.inr ⟨w', hw'⟩
  · intro fd ph hph
    cases hph with
    | armed hev => exact ⟨_, .armed hev, fun _ => id⟩
    | readable hev => exact ⟨_, .readable hev, fun _ => id⟩
    | writable hev => exact ⟨_, .writable hev, fun _ => id⟩
    | queued hjob hfd => exact ⟨_, .queued (hrest _ hjob) hfd, fun _ => id⟩
    | @took w' job' hw' hfd =>
        change Function.update s.workers w (.took job) w' = .took job' at hw'
        by_cases heq : w' = w
        · rw [heq, Function.update_self] at hw'
          cases hw'
          exact ⟨_, .queued hhead hfd, fun _ => id⟩
        · rw [Function.update_of_ne heq] at hw'
          exact ⟨_, .took hw' hfd, fun _ => id⟩
    | @rearms w' job' ev hw' hfd =>
        change Function.update s.workers w (.took job) w' = .rearms job' ev at hw'
        by_cases heq : w' = w
        · rw [heq, Function.update_self] at hw'
          cases hw'
        · rw [Function.update_of_ne heq] at hw'
          exact ⟨_, .rearms hw' hfd, fun _ => id⟩
  · intro w' job' hw'
    change Function.update s.workers w (.took job) w' = .closed job' at hw'
    by_cases heq : w' = w
    · rw [heq, Function.update_self] at hw'
      cases hw'
    · rw [Function.update_of_ne heq] at hw'
      exact hw'

/-- A worker goes on with its job, and changes the object of it. -/
theorem Tracks.work (h : s.Tracks t) (hs : s.Guarded) (hw : (s.workers w).job = some job)
    {x : Session} {c : HttpConn} {y : Worker}
    (hy : ∀ job', y.job = some job' → job'.fd = job.fd) (hx : HttpConn.Alike False x.conn c)
    (hopened : x.opened = (t (s.conn job.fd)).opened) (htook : ∀ job', y ≠ .took job')
    (hphase : ∀ job' ev, y = .rearms job' ev → x.phase = ev.phase)
    (hclosed : ∀ job', y = .closed job' → c.sockfd = none) :
  ({ s with users := Function.update s.users job.fd c }.setWorker w y).Tracks
    (Function.update t (s.conn job.fd) x)
  := by
  refine h.touch hs (Or.inr ⟨job, Or.inr ⟨w, hw⟩, rfl⟩) rfl rfl rfl rfl ?_ hx hopened ?_ ?_
  · intro fd hne
    exact { setWorker_quiet hy hne with }
  · intro ph hph
    have hexpects : (s.setWorker w y).Expects job.fd ph := by
      have hquiet : Quiet (s.setWorker w y)
          ({ s with users := Function.update s.users job.fd c }.setWorker w y) job.fd :=
        quiet_of_eq (fun _ hev => hev) (fun _ hr => hr) rfl rfl
      exact hquiet.expects hph
    rcases hs.expects_setWorker hw hexpects with ⟨job', heq, -⟩ | ⟨job', ev, heq, rfl⟩
    · exact absurd heq (htook job')
    · exact hphase job' ev heq
  · intro w' job' hw' hfd
    change Function.update s.workers w y w' = .closed job' at hw'
    by_cases heq : w' = w
    · rw [heq, Function.update_self] at hw'
      exact hclosed job' hw'
    · rw [Function.update_of_ne heq] at hw'
      exact absurd (hs.exclusive.one w' w job' job (congrArg Worker.job hw') hw hfd) heq

/-- A worker goes on with its job, and leaves the object. -/
theorem Tracks.pass (h : s.Tracks t) (hs : s.Guarded) (hw : (s.workers w).job = some job)
    {y : Worker} (hy : ∀ job', y.job = some job' → job'.fd = job.fd)
    (htook : ∀ job', y ≠ .took job')
    (hphase : ∀ job' ev, y = .rearms job' ev → (t (s.conn job.fd)).phase = ev.phase)
    (hclosed : ∀ job', y = .closed job' → (s.users job.fd).sockfd = none) :
  (s.setWorker w y).Tracks t
  := by
  have hplay : s.InPlay job.fd := Or.inr ⟨job, Or.inr ⟨w, hw⟩, rfl⟩
  have hwork := h.work hs hw hy (h.alike job.fd hplay) rfl htook hphase hclosed
  rw [Function.update_eq_self, Function.update_eq_self] at hwork
  exact hwork

/-- A worker parses the request and prepares the response. -/
theorem Tracks.process (h : s.Tracks t) (hs : s.Guarded) (hw : s.workers w = .took job)
    {found : Found} {e : ProcessEnd} {c : HttpConn} {y : Worker}
    (hc : (s.users job.fd).process found = .ok (e, c))
    (hy : (∃ ev, e = .rearm ev ∧ y = .rearms job ev) ∨ y = .closes job) :
  ∃ t', Run.Traces (Run.each Session.step) t
      [((job.conn, .process found), .processed e)] t' ∧
    ({ s with users := Function.update s.users job.fd c }.setWorker w y).Tracks t'
  := by
  have hjob : (s.workers w).job = some job := congrArg Worker.job hw
  have hhandled : s.Handled job := Or.inr ⟨w, hjob⟩
  have hphase := h.phase job.fd _ (.took hw rfl)
  have halike := (h.alike job.fd (Or.inr ⟨job, hhandled, rfl⟩)).process found
  rw [hc] at halike
  generalize hx : (t (s.conn job.fd)).conn.process found = r at halike
  cases halike with
  | @ok a b hab =>
      obtain ⟨e', c₀⟩ := a
      obtain ⟨he, halike⟩ := hab
      obtain rfl : e' = e := he
      have hstep : Run.each Session.step t (job.conn, .process found) =
          some (.processed e', Function.update t (s.conn job.fd)
            { t (s.conn job.fd) with conn := c₀, phase := e'.phase }) := by
        rw [← hs.exclusive.same job hhandled, Run.each, Session.step_process hphase hx]
        rfl
      refine ⟨_, Run.traces_singleton hstep, h.work hs hjob ?_ halike rfl ?_ ?_ ?_⟩
      · intro job' hjob'
        rcases hy with ⟨ev, -, rfl⟩ | rfl
        · rw [Option.some.inj hjob']
        · rw [Option.some.inj hjob']
      · rintro job' rfl
        rcases hy with ⟨ev, -, hy⟩ | hy
        · cases hy
        · cases hy
      · rintro job' ev rfl
        rcases hy with ⟨ev', rfl, hy⟩ | hy
        · cases hy
          rfl
        · cases hy
      · rintro job' rfl
        rcases hy with ⟨ev, -, hy⟩ | hy
        · cases hy
        · cases hy

/-- A worker executes `close_conn`. -/
theorem Tracks.closeConn (h : s.Tracks t) (hs : s.Guarded) (hw : s.workers w = .closes job) :
  ∃ t', Run.Traces (Run.each Session.step) t
      (closings (Server.shut s ((s.closeConn job).setWorker w (.closed job)))) t' ∧
    ((s.closeConn job).setWorker w (.closed job)).Tracks t'
  := by
  have hjob : (s.workers w).job = some job := congrArg Worker.job hw
  have hsame : ∀ job', (Worker.closed job).job = some job' → job'.fd = job.fd := fun job' heq => by
    rw [Option.some.inj heq]
  rw [Server.closeConn]
  split
  next hsock =>
    refine ⟨t, traces_shut_nil (Finset.Subset.refl _), h.pass hs hjob hsame ?_ ?_ fun _ _ => hsock⟩
    · exact fun job' heq => by cases heq
    · exact fun job' ev heq => by cases heq
  next fd hsock =>
    have halike := (h.alike job.fd (Or.inr ⟨job, Or.inr ⟨w, hjob⟩, rfl⟩)).socket none
    have hwork := h.work hs hjob hsame halike rfl (fun job' heq => by cases heq)
      (fun job' ev heq => by cases heq) (fun _ _ => rfl)
    rw [Function.update_eq_self] at hwork
    refine ⟨_, hwork.shut (Finset.erase_subset fd s.opened) rfl rfl rfl fun fd' => ?_⟩
    exact quiet_of_eq (s.close_quiet fd fd').epoll (fun _ hr => hr) rfl rfl

/-- A worker executes the last `modfd` of `process`. -/
theorem Tracks.modfd (h : s.Tracks t) (hs : s.Guarded) {ev : Interest}
    (hw : s.workers w = .rearms job ev) :
  ((s.arm (s.users job.fd).sockfd ev).setWorker w .idle).Tracks t
  := by
  have hjob : (s.workers w).job = some job := congrArg Worker.job hw
  have hphase := h.phase job.fd _ (.rearms hw rfl)
  have hidle : (s.setWorker w .idle).Tracks t := by
    apply h.pass hs hjob
    · exact fun job' heq => by cases heq
    · exact fun job' heq => by cases heq
    · exact fun job' ev heq => by cases heq
    · exact fun job' heq => by cases heq
  obtain ⟨epoll, added, harm, hepoll⟩ := arm_eq (s.setWorker w .idle) (s.users job.fd).sockfd ev
  rw [arm_setWorker, harm]
  refine { hidle with phase := ?_ }
  intro fd ph hph
  have hquiet : ∀ ev', epoll fd = some ev' → s.epoll fd = some ev' ∨ fd = job.fd ∧ ev' = ev := by
    intro ev' hev'
    apply (hepoll fd ev' hev').imp id
    rintro ⟨hsock, rfl⟩
    exact ⟨(hs.own job (Or.inr ⟨w, hjob⟩)).eq hsock, rfl⟩
  cases hph with
  | @armed ev' hev =>
      rcases hquiet ev' hev with hev | ⟨rfl, rfl⟩
      · exact hidle.phase fd _ (.armed hev)
      · exact hphase
  | readable hev => exact hidle.phase fd _ (.readable hev)
  | writable hev => exact hidle.phase fd _ (.writable hev)
  | queued hjob' hfd => exact hidle.phase fd _ (.queued hjob' hfd)
  | took hw' hfd => exact hidle.phase fd _ (.took hw' hfd)
  | rearms hw' hfd => exact hidle.phase fd _ (.rearms hw' hfd)

/-- A worker executes the `modfd` that follows `close_conn`. -/
theorem Tracks.modfdClosed (h : s.Tracks t) (hs : s.Guarded) (hw : s.workers w = .closed job) :
  ((s.arm (s.users job.fd).sockfd .epollOut).setWorker w .idle).Tracks t
  := by
  rw [h.dropped w job hw]
  apply h.pass hs (congrArg Worker.job hw)
  · exact fun job' heq => by cases heq
  · exact fun job' heq => by cases heq
  · exact fun job' ev heq => by cases heq
  · exact fun job' heq => by cases heq

/-- What a step of the server does to the sessions is what they take. -/
theorem Tracks.step (h : s.Tracks t) (hs : s.Guarded) {e : ServerEvent ω} (hok : ObjectFree s e)
    (hs' : s.step e = some s') :
  ∃ t', Run.Traces (Run.each Session.step) t (does s e s') t' ∧ s'.Tracks t'
  := by
  have hturn : ∀ fd ev rest, s.batch = some (Ready.client fd ev :: rest) →
      Ready.client fd ev ∈ s.batch.getD [] := by
    intro fd ev rest hbatch
    rw [hbatch]
    exact List.mem_cons_self
  cases steps_of_step hs' with
  | wait hbatch hready =>
      exact ⟨t, traces_shut_nil (Finset.Subset.refl _), h.wait hready⟩
  | accept hbatch hs' => exact (h.next hbatch).acceptConn (hs.next hbatch) hok hs'
  | hup hbatch hs' => exact ⟨_, (h.next hbatch).closeByTimer hs'⟩
  | alarm hbatch =>
      refine ⟨t, traces_shut_nil (Finset.Subset.refl _), (h.next hbatch).quiet rfl rfl rfl rfl ?_⟩
      exact fun fd => quiet_of_eq (fun _ hev => hev) (fun _ hr => hr) rfl rfl
  | @read rs cur fd rest _ hbatch hs' =>
      have hphase := h.phase fd _ (.readable (hturn fd _ rest hbatch))
      rw [does, acts, hbatch]
      exact (h.next hbatch).readConn (hs.next hbatch) (hs.client hbatch) hphase hs'
  | @write os cur fd rest _ hbatch hs' =>
      have hphase := h.phase fd _ (.writable (hturn fd _ rest hbatch))
      rw [does, acts, hbatch]
      exact (h.next hbatch).writeConn (hs.next hbatch) (hs.client hbatch) hphase hs'
  | pass hbatch => exact ⟨t, traces_shut_nil (Finset.Subset.refl _), h.next hbatch⟩
  | endBatch _ hs' => exact h.finishBatch hs'
  | take _ hqueue => exact ⟨t, traces_shut_nil (Finset.Subset.refl _), h.take hqueue⟩
  | @rearm w found job ev c hw hc =>
      obtain ⟨t', htraces, htracks⟩ := h.process hs hw hc (.inl ⟨ev, rfl, rfl⟩)
      refine ⟨t', ?_, htracks⟩
      rw [does, acts, hw]
      dsimp only
      rw [hc]
      exact htraces.append (traces_shut_nil (Finset.Subset.refl _))
  | @refuse w found job c hw hc =>
      obtain ⟨t', htraces, htracks⟩ := h.process hs hw hc (.inr rfl)
      refine ⟨t', ?_, htracks⟩
      rw [does, acts, hw]
      dsimp only
      rw [hc]
      exact htraces.append (traces_shut_nil (Finset.Subset.refl _))
  | closeConn hw => exact h.closeConn hs hw
  | modfd hw =>
      refine ⟨t, traces_shut_nil ?_, h.modfd hs hw⟩
      rw [setWorker, arm_opened]
  | modfdClosed hw =>
      refine ⟨t, traces_shut_nil ?_, h.modfdClosed hs hw⟩
      rw [setWorker, arm_opened]

end Workers

end Tracks

/-! ### Runs -/

section Runs

variable [DecidableEq ω]

/-- What happens to the connections along a run, and what is seen of them. -/
def history (s : Server ω) (es : List (ServerEvent ω)) : List ((ℕ × SessionEvent) × Seen) :=
  Run.output step does s es

/-- A run of the server is a run of its sessions side by side. -/
theorem exec_sessions {users : ℕ → HttpConn} {usersTimer : ℕ → ClientData} {maxRequest : ℕ}
    {es : List (ServerEvent ω)} {s : Server ω}
    (hfree : Run.Along step ObjectFree (init users usersTimer maxRequest) es)
    (h : Run.exec step (init users usersTimer maxRequest) es = some s) :
  ∃ t : ℕ → Session, s.Guarded ∧ s.Tracks t ∧
    Run.Traces (Run.each Session.step) (fun _ => Session.unborn)
      (history (init users usersTimer maxRequest) es) t
  := by
  have hsim : ∀ (s : Server ω) (t : ℕ → Session) e s', s.Guarded ∧ s.Tracks t → ObjectFree s e →
      s.step e = some s' → ∃ t', Run.Traces (Run.each Session.step) t (does s e s') t' ∧
        s'.Guarded ∧ s'.Tracks t' := by
    rintro s t e s' ⟨hguarded, htracks⟩ hok hs'
    obtain ⟨t', htraces, htracks'⟩ := htracks.step hguarded hok hs'
    exact ⟨t', htraces, hguarded.step hok hs', htracks'⟩
  obtain ⟨t, htraces, hguarded, htracks⟩ := Run.exec_traces hsim
    ⟨init_guarded users usersTimer maxRequest, init_tracks users usersTimer maxRequest⟩ hfree h
  exact ⟨t, hguarded, htracks, htraces⟩

/-- Along a run in which no connection gets an object that is in use, what happens to each
connection, and what is seen of it, is a run of a session of its own, and at the end the
objects in play are alike to those of the sessions. -/
theorem sessions_trace {users : ℕ → HttpConn} {usersTimer : ℕ → ClientData} {maxRequest : ℕ}
    {es : List (ServerEvent ω)} {s : Server ω}
    (hfree : Run.Along step ObjectFree (init users usersTimer maxRequest) es)
    (h : Run.exec step (init users usersTimer maxRequest) es = some s) :
  ∃ t : ℕ → Session, s.Tracks t ∧
    ∀ n, Run.Traces Session.step Session.unborn
      (Run.own n (history (init users usersTimer maxRequest) es)) (t n)
  := by
  obtain ⟨t, -, htracks, htraces⟩ := exec_sessions hfree h
  exact ⟨t, htracks, Run.each_traces_iff.mp htraces⟩

end Runs

/-! ### Two clients -/

/-- Two clients send requests, which two workers process in turns. -/
def twoClients : List (ServerEvent Bool) :=
  [.wait [.listen], .accept 5 100 0 .clean, .endBatch 0,
    .wait [.listen], .accept 6 101 0 .clean, .endBatch 0,
    .wait [.client 5 .readable, .client 6 .readable],
    .read [.bytes (ascii "GET /a HTTP/1.1\r\n\r\n"), .again] 1,
    .read [.bytes (ascii "GET /b HTTP/1.1\r\n\r\n"), .again] 1, .endBatch 1,
    .take false, .take true,
    .process true (.plain (.file 3 fun _ => 98)), .process false (.plain (.directory 0)),
    .modfd true, .modfd false,
    .wait [.client 6 .writable, .client 5 .writable], .write [.accepted 58] 2,
    .write [.accepted 20, .again] 2, .endBatch 2]

set_option maxRecDepth 10000 in
theorem sessions_trace_twoClients :
  ∃ (s : Server Bool) (t : ℕ → Session), s.Tracks t ∧
    ∀ n, Run.Traces Session.step Session.unborn
      (Run.own n (history (blank 4 : Server Bool) twoClients)) (t n)
  := by
  obtain ⟨s, hs⟩ := Option.isSome_iff_exists.mp
    (show (Run.exec step (blank 4) twoClients).isSome = true by decide +kernel)
  exact ⟨s, sessions_trace (by decide +kernel) hs⟩

/-- What happens to that client in both runs. -/
def visit : List SessionEvent :=
  [.accept, .read [.bytes (ascii "GET /a HTTP/1.1\r\n\r\n"), .again],
    .process (.plain (.directory 0)), .write [.accepted 20, .again]]

end Server

end WebServer
