import WebServer.Server.Idle

/-!
# The alarm

What makes `main` call `tick`: `alarm` is called before the loop and at the end of every
`timer_handler`, the handler of its signal sends a byte into the pipe, `main` reads the
bytes of the pipe and sets `timeout`, and calls `timer_handler` at the end of the batch.
The machine `Alarmed` is the watched server together with the alarm and the pipe.

The end of the pipe that the handler writes to does not block, so that a byte is lost when
the socket is full.  The alarm is not lost all the same (`alarm_circulates`), and no
connection stays open that is idle for four time slots while the alarm is set
(`idle_lt_of_armed`).
-/

open CString

namespace WebServer

/-- A signal that `addsig` was called for. -/
inductive Signal where
  /-- `SIGALRM`. -/
  | alrm
  /-- `SIGTERM`. -/
  | term
  deriving DecidableEq

/-- The server with the time at which `alarm` was called last, whether its signal is still to
come, and the bytes in the pipe.  It is stopped when `main` has returned. -/
structure Alarmed (ω : Type) where
  watched : Watched ω
  since : ℤ
  armed : Bool
  pipe : List Signal
  stopped : Bool

/-- A step of the server, of the alarm or of a handler. -/
inductive AlarmEvent (ω : Type) where
  /-- A step of `main` or of a worker, but for the reading of the pipe. -/
  | server (e : ServerEvent ω)
  /-- `main` reads `n` bytes from the pipe, and none when `recv` fails. -/
  | signals (n : ℕ)
  /-- The alarm goes off. -/
  | goesOff
  /-- A signal comes from elsewhere. -/
  | raised (sig : Signal)

namespace Alarmed

variable {ω : Type}

/-- Before the loop of `main`. -/
def start (s : Server ω) (now : ℤ) : Alarmed ω where
  watched := Watched.start s now
  since := now
  armed := true
  pipe := []
  stopped := false

/-- `sig_handler`, whose `send` fails when there is no room in the socket. -/
def sigHandler (room : ℕ) (a : Alarmed ω) (sig : Signal) : Alarmed ω :=
  if a.pipe.length < room then { a with pipe := a.pipe ++ [sig] } else a

/-- `alarm(TIMESLOT)` in `timer_handler`. -/
def alarm (a : Alarmed ω) (cur : ℤ) : Alarmed ω := { a with since := cur, armed := true }

/-- The loop over the signals: what `timeout` is behind it, unless `main` returns. -/
def switchSignals : Bool → List Signal → Option Bool
  | timeout, [] => some timeout
  | _, .alrm :: signals => switchSignals true signals
  | _, .term :: _ => none

/-- Whether a step may be taken for what is in the pipe. -/
def Readable (a : Alarmed ω) : ServerEvent ω → Prop
  | .wait ready => .alarm ∈ ready → a.pipe ≠ []
  | .alarm _ => False
  | .accept _ _ _ _ | .hup | .read _ _ | .write _ _ | .pass | .endBatch _ | .take _
  | .process _ _ | .closeConn _ | .modfd _ => True

instance (a : Alarmed ω) : ∀ e, Decidable (a.Readable e)
  | .wait ready => inferInstanceAs (Decidable (.alarm ∈ ready → a.pipe ≠ []))
  | .alarm _ => instDecidableFalse
  | .accept _ _ _ _ | .hup | .read _ _ | .write _ _ | .pass | .endBatch _ | .take _
  | .process _ _ | .closeConn _ | .modfd _ => instDecidableTrue

theorem switchSignals_eq (timeout : Bool) (signals : List Signal) :
  switchSignals timeout signals =
    if .term ∈ signals then none else some (timeout || decide (.alrm ∈ signals))
  := by
  induction signals generalizing timeout with
  | nil => simp [switchSignals]
  | cons sig signals ih =>
      cases sig with
      | alrm =>
          rw [switchSignals, ih]
          simp
      | term => simp [switchSignals]

/-- The handler appends the signal to the pipe, or the pipe is full. -/
theorem sigHandler_cases {room : ℕ} (hroom : 0 < room) (a : Alarmed ω) (sig : Signal) :
  a.sigHandler room sig = { a with pipe := a.pipe ++ [sig] } ∨
    (a.sigHandler room sig = a ∧ a.pipe ≠ [])
  := by
  rw [sigHandler]
  split
  · exact .inl rfl
  next hfull =>
    refine .inr ⟨rfl, ?_⟩
    rintro hnil
    rw [hnil] at hfull
    exact hfull hroom

theorem sigHandler_watched (room : ℕ) (a : Alarmed ω) (sig : Signal) :
  (a.sigHandler room sig).watched = a.watched ∧ (a.sigHandler room sig).since = a.since ∧
    (a.sigHandler room sig).armed = a.armed
  := by
  rw [sigHandler]
  split
  · exact ⟨rfl, rfl, rfl⟩
  · exact ⟨rfl, rfl, rfl⟩

section Steps

variable [DecidableEq ω]

/-- A step of `main` or of a worker, but for the reading of the pipe. -/
def serverStep (a : Alarmed ω) (e : ServerEvent ω) : Option (Alarmed ω) :=
  if a.Readable e then
    (a.watched.step e).map fun w =>
      match e, a.watched.server.timeout with
      | .endBatch cur, true => { a with watched := w }.alarm cur
      | _, _ => { a with watched := w }
  else
    none

/-- `main` reads the pipe. -/
def readPipe (a : Alarmed ω) (n : ℕ) : Option (Alarmed ω) :=
  if n ≤ min 1024 a.pipe.length then
    let timeout := switchSignals false (a.pipe.take n)
    (a.watched.step (.alarm (timeout.getD false))).map fun w =>
      { a with watched := w, pipe := a.pipe.drop n, stopped := timeout.isNone }
  else
    none

/-- A step of the server, of the alarm or of a handler. -/
def step (room : ℕ) (a : Alarmed ω) (e : AlarmEvent ω) : Option (Alarmed ω) :=
  if a.stopped then
    none
  else
    match e with
    | .server e => a.serverStep e
    | .signals n => a.readPipe n
    | .goesOff => if a.armed then some ({ a with armed := false }.sigHandler room .alrm) else none
    | .raised sig => some (a.sigHandler room sig)

/-- What a step does. -/
inductive Steps (room : ℕ) (a : Alarmed ω) : AlarmEvent ω → Alarmed ω → Prop where
  | server {e : ServerEvent ω} {w : Watched ω} (hread : a.Readable e)
    (hquiet : ∀ cur, e = .endBatch cur → a.watched.server.timeout = false)
    (h : a.watched.step e = some w) :
    Steps room a (.server e) { a with watched := w }
  | timer {cur : ℤ} {w : Watched ω} (htimeout : a.watched.server.timeout = true)
    (h : a.watched.step (.endBatch cur) = some w) :
    Steps room a (.server (.endBatch cur)) ({ a with watched := w }.alarm cur)
  | signals {n : ℕ} {timeout : Bool} {w : Watched ω}
    (hswitch : switchSignals false (a.pipe.take n) = some timeout)
    (h : a.watched.step (.alarm timeout) = some w) :
    Steps room a (.signals n) { a with watched := w, pipe := a.pipe.drop n }
  | stops {n : ℕ} {w : Watched ω} (h : a.watched.step (.alarm false) = some w) :
    Steps room a (.signals n)
      { a with watched := w, pipe := a.pipe.drop n, stopped := true }
  | goesOff (harmed : a.armed = true) :
    Steps room a .goesOff ({ a with armed := false }.sigHandler room .alrm)
  | raised {sig : Signal} : Steps room a (.raised sig) (a.sigHandler room sig)

theorem steps_of_step {room : ℕ} {a a' : Alarmed ω} {e : AlarmEvent ω}
    (h : a.step room e = some a') :
  a.stopped = false ∧ a.Steps room e a'
  := by
  rw [step.eq_def] at h
  split at h
  · cases h
  next hstopped =>
    have hstopped := eq_false_of_ne_true hstopped
    refine ⟨hstopped, ?_⟩
    cases e with
    | server e =>
        change a.serverStep e = some a' at h
        rw [serverStep] at h
        split at h
        next hread =>
          obtain ⟨w, hw, rfl⟩ := Option.map_eq_some_iff.mp h
          split
          next cur htimeout => exact .timer htimeout hw
          next hquiet =>
            refine .server hread (fun cur he => ?_) hw
            exact eq_false_of_ne_true fun htimeout => hquiet cur he htimeout
        · cases h
    | signals n =>
        change a.readPipe n = some a' at h
        rw [readPipe] at h
        split at h
        next =>
          obtain ⟨w, hw, rfl⟩ := Option.map_eq_some_iff.mp h
          cases hswitch : switchSignals false (a.pipe.take n) with
          | none =>
              rw [hswitch] at hw
              exact .stops hw
          | some timeout =>
              rw [hswitch] at hw
              change Steps room a _ { a with watched := w, pipe := a.pipe.drop n, stopped := false }
              rw [← hstopped]
              exact .signals hswitch hw
        · cases h
    | goesOff =>
        change (if a.armed then _ else _) = some a' at h
        split at h
        next harmed =>
          obtain rfl := Option.some.inj h
          exact .goesOff harmed
        · cases h
    | raised sig =>
        obtain rfl := Option.some.inj h
        exact .raised

end Steps

end Alarmed

/-! ### `timeout` and the open descriptors -/

namespace Server

variable {ω : Type}

/-- No connection is opened, and `timeout` stays as it is. -/
structure Calm (s s' : Server ω) : Prop where
  timeout : s'.timeout = s.timeout
  conn : s'.conn = s.conn
  opened : s'.opened ⊆ s.opened

theorem Calm.trans {s s₁ s' : Server ω} (h : Calm s s₁) (h' : Calm s₁ s') :
  Calm s s'
  where
  timeout := h'.timeout.trans h.timeout
  conn := h'.conn.trans h.conn
  opened := h'.opened.trans h.opened

section Calm

variable {s s' : Server ω} {fd : ℕ} {cur : ℤ}

theorem append_calm (s : Server ω) (fd : ℕ) :
  Calm s (s.append fd)
  := by
  rw [Server.append]
  split
  · exact ⟨rfl, rfl, subset_rfl⟩
  · exact ⟨rfl, rfl, subset_rfl⟩

theorem arm_calm (s : Server ω) (fd : Option ℕ) (ev : Interest) :
  Calm s (s.arm fd ev)
  := by
  cases fd with
  | none => exact ⟨rfl, rfl, subset_rfl⟩
  | some fd =>
      rw [Server.arm]
      split
      · exact ⟨rfl, rfl, subset_rfl⟩
      · exact ⟨rfl, rfl, subset_rfl⟩

theorem closeConn_calm (s : Server ω) (job : Job) :
  Calm s (s.closeConn job)
  := by
  rw [Server.closeConn]
  split
  · exact ⟨rfl, rfl, subset_rfl⟩
  · exact ⟨rfl, rfl, Finset.erase_subset ..⟩

theorem users_calm (s : Server ω) (users : ℕ → HttpConn) :
  Calm s { s with users := users }
  := ⟨rfl, rfl, subset_rfl⟩

theorem batch_calm (s : Server ω) (batch : Option (List Ready)) :
  Calm s { s with batch := batch }
  := ⟨rfl, rfl, subset_rfl⟩

theorem delayTimer_calm (h : s.delayTimer fd cur = some s') :
  Calm s s'
  := by
  obtain ⟨_, rfl⟩ := delayTimer_eq_some h
  exact ⟨rfl, rfl, subset_rfl⟩

theorem closeByTimer_calm (h : s.closeByTimer fd = some s') :
  Calm s s'
  := by
  obtain ⟨_, _, -, -, rfl⟩ := closeByTimer_eq_some h
  exact ⟨rfl, rfl, Finset.erase_subset ..⟩

theorem readConn_calm {rs : List Recv} (h : s.readConn fd rs cur = some s') :
  Calm s s'
  := by
  obtain ⟨⟨ok, c⟩, -, h⟩ := Option.bind_eq_some_iff.mp h
  have husers := users_calm s (Function.update s.users fd c)
  cases ok with
  | true => exact husers.trans ((append_calm _ fd).trans (delayTimer_calm h))
  | false => exact husers.trans (closeByTimer_calm h)

theorem writeConn_calm {os : List Outcome} (h : s.writeConn fd os cur = some s') :
  Calm s s'
  := by
  obtain ⟨⟨ok, s₁⟩, hs₁, h⟩ := Option.bind_eq_some_iff.mp h
  have hsend : Calm s s₁ := by
    obtain ⟨c, -, ⟨-, rfl⟩ | ⟨ev, rfl⟩⟩ := sendConn_eq_some hs₁
    · exact users_calm s _
    · exact (users_calm s _).trans (arm_calm _ c.sockfd ev)
  cases ok with
  | true => exact hsend.trans (delayTimer_calm h)
  | false => exact hsend.trans (closeByTimer_calm h)

/-- What a step does to `timeout` and to the open descriptors, but for the reading of the
pipe. -/
inductive Change (s s' : Server ω) : ServerEvent ω → Prop where
  | calm {e : ServerEvent ω} (h : Calm s s') : Change s s' e
  | opens {fd timer : ℕ} {cur : ℤ} {added : Registration} (htimeout : s'.timeout = s.timeout)
    (hconn : s'.conn = Function.update s.conn fd s.accepted)
    (hopened : s'.opened = insert fd s.opened) : Change s s' (.accept fd timer cur added)
  | ticks {cur : ℤ} (hbefore : s.timeout = true) (hafter : s'.timeout = false) :
    Change s s' (.endBatch cur)

theorem change_of_step [DecidableEq ω] {e : ServerEvent ω} (he : ∀ received, e ≠ .alarm received)
    (h : s.step e = some s') :
  Change s s' e
  := by
  cases steps_of_step h with
  | wait _ _ => exact .calm ⟨rfl, rfl, subset_rfl⟩
  | accept _ h =>
      obtain ⟨-, ⟨-, rfl⟩ | ⟨-, h⟩⟩ := acceptConn_eq_some h
      · exact .calm ⟨rfl, rfl, subset_rfl⟩
      · obtain ⟨_, _, -, -, rfl⟩ := addTimer_eq_some h
        exact .opens rfl rfl rfl
  | hup _ h => exact .calm ((batch_calm s _).trans (closeByTimer_calm h))
  | @alarm received _ _ => exact absurd rfl (he received)
  | read _ h => exact .calm ((batch_calm s _).trans (readConn_calm h))
  | write _ h => exact .calm ((batch_calm s _).trans (writeConn_calm h))
  | pass _ => exact .calm ⟨rfl, rfl, subset_rfl⟩
  | @endBatch cur _ _ h =>
      rw [finishBatch] at h
      split at h
      next htimeout =>
        apply Change.ticks htimeout
        obtain ⟨⟨calls, lst⟩, -, h⟩ := Option.bind_eq_some_iff.mp h
        obtain rfl := Option.some.inj h
        obtain ⟨_, _, _, _, _, heq⟩ := foldl_cbFunc_eq
          { s with batch := none, timeout := false } calls
        dsimp only
        rw [heq]
      next =>
        obtain rfl := Option.some.inj h
        exact .calm ⟨rfl, rfl, subset_rfl⟩
  | take _ _ => exact .calm ⟨rfl, rfl, subset_rfl⟩
  | rearm _ _ | refuse _ _ => exact .calm ⟨rfl, rfl, subset_rfl⟩
  | @closeConn w job _ => exact .calm ((closeConn_calm s job).trans ⟨rfl, rfl, subset_rfl⟩)
  | @modfd w job ev _ => exact .calm ((arm_calm s _ ev).trans ⟨rfl, rfl, subset_rfl⟩)
  | @modfdClosed w job _ => exact .calm ((arm_calm s _ .epollOut).trans ⟨rfl, rfl, subset_rfl⟩)

/-- `main` reads the pipe. -/
theorem alarm_calm [DecidableEq ω] {received : Bool} (h : s.step (.alarm received) = some s') :
  Calm { s with timeout := s.timeout || received } s'
  := by
  cases steps_of_step h with
  | alarm _ => exact ⟨rfl, rfl, subset_rfl⟩

end Calm

end Server

namespace Alarmed

open Server

variable {ω : Type}

/-! ### Where the alarm is -/

/-- How often the alarm is on its way: it is set, its signal is in the pipe, or `main` has
read it. -/
def alarms (a : Alarmed ω) : ℕ :=
  a.armed.toNat + a.pipe.count .alrm + a.watched.server.timeout.toNat

/-- The alarm is on its way, unless `main` returns. -/
def Circulates (a : Alarmed ω) : Prop := a.stopped = true ∨ .term ∈ a.pipe ∨ 0 < a.alarms

theorem start_alarms (users : ℕ → HttpConn) (usersTimer : ℕ → ClientData) (maxRequest : ℕ)
    (now : ℤ) :
  (start (init users usersTimer maxRequest : Server ω) now).alarms = 1
  := rfl

theorem start_circulates (users : ℕ → HttpConn) (usersTimer : ℕ → ClientData) (maxRequest : ℕ)
    (now : ℤ) :
  (start (init users usersTimer maxRequest : Server ω) now).Circulates
  := .inr (.inr Nat.one_pos)

/-- When the pipe has a byte, it is of one of the two signals. -/
theorem term_mem_or_count (pipe : List Signal) (h : pipe ≠ []) :
  .term ∈ pipe ∨ 0 < pipe.count .alrm
  := by
  cases pipe with
  | nil => exact absurd rfl h
  | cons sig rest =>
      cases sig with
      | term => exact .inl List.mem_cons_self
      | alrm =>
          apply Or.inr
          rw [List.count_pos_iff]
          exact List.mem_cons_self

/-- A handler loses no alarm, and no byte of a pipe. -/
theorem sigHandler_circulates {room : ℕ} (hroom : 0 < room) {a : Alarmed ω} (sig : Signal)
    (h : a.Circulates) :
  (a.sigHandler room sig).Circulates
  := by
  rcases sigHandler_cases hroom a sig with heq | ⟨heq, -⟩
  · rw [heq]
    refine h.imp_right (Or.imp (fun hterm => List.mem_append_left _ hterm) fun hpos => ?_)
    dsimp only [alarms] at hpos ⊢
    rw [List.count_append]
    omega
  · rw [heq]
    exact h

/-- The signal of the alarm goes into the pipe, or there are others in it. -/
theorem goesOff_circulates {room : ℕ} (hroom : 0 < room) (a : Alarmed ω) :
  (a.sigHandler room .alrm).Circulates
  := by
  rcases sigHandler_cases hroom a .alrm with heq | ⟨heq, hne⟩
  · rw [heq]
    refine .inr (.inr ?_)
    rw [alarms, List.count_append]
    change 0 < _ + (_ + 1) + _
    omega
  · rw [heq]
    refine .inr ((term_mem_or_count a.pipe hne).imp_right fun hpos => ?_)
    rw [alarms]
    omega

theorem alarms_sigHandler_le (room : ℕ) (a : Alarmed ω) (sig : Signal) :
  (a.sigHandler room sig).alarms ≤ a.alarms + [sig].count .alrm
  := by
  rw [sigHandler]
  split
  · dsimp only [alarms]
    rw [List.count_append]
    omega
  · exact Nat.le_add_right ..

section Circulation

variable [DecidableEq ω]

/-- The signals that `main` reads are noted. -/
theorem alarms_signals {a : Alarmed ω} {n : ℕ} {timeout : Bool} {w : Watched ω}
    (hswitch : switchSignals false (a.pipe.take n) = some timeout)
    (h : a.watched.step (.alarm timeout) = some w) :
  w.server.timeout = (a.watched.server.timeout || decide (.alrm ∈ a.pipe.take n)) ∧
    .term ∉ a.pipe.take n
  := by
  rw [switchSignals_eq] at hswitch
  split at hswitch
  · cases hswitch
  next hterm =>
    obtain rfl := Option.some.inj hswitch
    obtain ⟨s, hs, rfl⟩ := Option.map_eq_some_iff.mp h
    exact ⟨(alarm_calm hs).timeout, hterm⟩

/-- A step of the server leaves `timeout`, but for the end of a batch. -/
theorem timeout_of_step {a : Alarmed ω} {e : ServerEvent ω} {w : Watched ω} (hread : a.Readable e)
    (hquiet : ∀ cur, e = .endBatch cur → a.watched.server.timeout = false)
    (h : a.watched.step e = some w) :
  w.server.timeout = a.watched.server.timeout
  := by
  obtain ⟨s, hs, rfl⟩ := Option.map_eq_some_iff.mp h
  have hne : ∀ received, e ≠ .alarm received := by
    rintro received rfl
    exact hread
  cases change_of_step hne hs with
  | calm h => exact h.timeout
  | opens htimeout _ _ => exact htimeout
  | @ticks cur hbefore _ => cases (hquiet cur rfl).symm.trans hbefore

/-- The timers are handled, and the alarm is set again. -/
theorem timeout_of_tick {a : Alarmed ω} {cur : ℤ} {w : Watched ω}
    (htimeout : a.watched.server.timeout = true)
    (h : a.watched.step (.endBatch cur) = some w) :
  w.server.timeout = false
  := by
  obtain ⟨s, hs, rfl⟩ := Option.map_eq_some_iff.mp h
  cases Server.steps_of_step hs with
  | endBatch _ h =>
      rw [finishBatch, if_pos htimeout] at h
      obtain ⟨⟨calls, lst⟩, -, h⟩ := Option.bind_eq_some_iff.mp h
      obtain rfl := Option.some.inj h
      obtain ⟨_, _, _, _, _, heq⟩ := foldl_cbFunc_eq
        { a.watched.server with batch := none, timeout := false } calls
      dsimp only
      rw [heq]

/-- No step loses the alarm. -/
theorem Circulates.step {room : ℕ} (hroom : 0 < room) {a a' : Alarmed ω} {e : AlarmEvent ω}
    (h : a.Circulates) (ha' : a.step room e = some a') :
  a'.Circulates
  := by
  obtain ⟨hstopped, hsteps⟩ := steps_of_step ha'
  have h := h.resolve_left (ne_true_of_eq_false hstopped)
  cases hsteps with
  | @server e w hread hquiet hw =>
      refine .inr (h.imp_right fun hpos => ?_)
      dsimp only [alarms] at hpos ⊢
      rw [timeout_of_step hread hquiet hw]
      exact hpos
  | timer _ _ =>
      refine .inr (.inr ?_)
      dsimp only [alarms, alarm]
      rw [Bool.toNat_true]
      omega
  | @signals n timeout w hswitch hw =>
      obtain ⟨htimeout, hterm⟩ := alarms_signals hswitch hw
      have hpipe := List.take_append_drop n a.pipe
      refine .inr (h.imp ?_ fun hpos => ?_)
      · intro hmem
        rw [← hpipe, List.mem_append] at hmem
        exact hmem.resolve_left hterm
      · dsimp only [alarms] at hpos ⊢
        rw [htimeout]
        by_cases htake : .alrm ∈ a.pipe.take n
        · rw [decide_eq_true htake, Bool.or_true, Bool.toNat_true]
          omega
        · rw [decide_eq_false htake, Bool.or_false]
          rw [← hpipe, List.count_append, List.count_eq_zero_of_not_mem htake] at hpos
          omega
  | stops _ => exact .inl rfl
  | goesOff _ => exact goesOff_circulates hroom _
  | raised => exact sigHandler_circulates hroom _ (.inr h)

/-- A step doubles no alarm. -/
theorem alarms_le_of_step {room : ℕ} {a a' : Alarmed ω} {e : AlarmEvent ω}
    (he : e ≠ .raised .alrm) (ha' : a.step room e = some a') :
  a'.alarms ≤ a.alarms
  := by
  obtain ⟨-, hsteps⟩ := steps_of_step ha'
  cases hsteps with
  | @server e w hread hquiet hw =>
      dsimp only [alarms]
      rw [timeout_of_step hread hquiet hw]
  | timer htimeout hw =>
      dsimp only [alarms, alarm]
      rw [timeout_of_tick htimeout hw, htimeout, Bool.toNat_true, Bool.toNat_false]
      omega
  | @signals n timeout w hswitch hw =>
      obtain ⟨htimeout, -⟩ := alarms_signals hswitch hw
      have hcount := congrArg (List.count Signal.alrm) (List.take_append_drop n a.pipe)
      rw [List.count_append] at hcount
      dsimp only [alarms]
      rw [htimeout]
      by_cases htake : .alrm ∈ a.pipe.take n
      · have hpos := List.count_pos_iff.mpr htake
        have hle := Bool.toNat_le (a.watched.server.timeout || decide (.alrm ∈ a.pipe.take n))
        omega
      · rw [decide_eq_false htake, Bool.or_false]
        omega
  | @stops n w hw =>
      obtain ⟨s, hs, rfl⟩ := Option.map_eq_some_iff.mp hw
      have htimeout := (alarm_calm hs).timeout
      have hcount := (List.drop_sublist n a.pipe).count_le .alrm
      dsimp only [alarms] at htimeout ⊢
      rw [htimeout, Bool.or_false]
      omega
  | goesOff harmed =>
      apply (alarms_sigHandler_le room _ _).trans_eq
      dsimp only [alarms]
      rw [harmed]
      change 0 + _ + _ + 1 = 1 + _ + _
      omega
  | @raised sig =>
      cases sig with
      | alrm => cases he rfl
      | term => exact alarms_sigHandler_le room a .term

/-- The alarm is never lost: as long as `main` runs, and has no signal to return before it,
the alarm is set, or its signal is in the pipe, or noted in `timeout`.  It is there only
once when no such signal comes from elsewhere. -/
theorem alarm_circulates {room : ℕ} (hroom : 0 < room) {users : ℕ → HttpConn}
    {usersTimer : ℕ → ClientData} {maxRequest : ℕ} {now : ℤ} {es : List (AlarmEvent ω)}
    {a : Alarmed ω}
    (h : Run.exec (step room) (start (init users usersTimer maxRequest) now) es = some a) :
  a.Circulates ∧ (.raised .alrm ∉ es → a.alarms ≤ 1)
  := by
  constructor
  · exact Run.exec_preserves (fun _ _ _ ha ha' => ha.step hroom ha')
      (start_circulates users usersTimer maxRequest now) h
  · intro hes
    have hown : ∀ e ∈ es, e ≠ .raised .alrm := fun e he heq => hes (heq ▸ he)
    exact Run.exec_invariant (fun _ _ _ ha he ha' => (alarms_le_of_step he ha').trans ha)
      (start_alarms users usersTimer maxRequest now).le (Run.along_of_mem hown) h

/-- A connection is accepted, the alarm goes off, and the pipe is full when another signal
comes. -/
def oneTick : List (AlarmEvent ℕ) :=
  [.server (.wait [.listen]), .server (.accept 5 100 1 .clean), .server (.endBatch 1), .goesOff,
    .raised .term, .server (.wait [.alarm]), .signals 1, .server (.endBatch 5)]

theorem alarm_circulates_oneTick :
  ∃ a, Run.exec (step 1) (start (blank 1 : Server ℕ) 0) oneTick = some a ∧ a.Circulates ∧
    a.alarms ≤ 1
  := by
  have hrun : (Run.exec (step 1) (start (blank 1 : Server ℕ) 0) oneTick).isSome = true := by
    decide +kernel
  obtain ⟨a, ha⟩ := Option.isSome_iff_exists.mp hrun
  obtain ⟨hcirculates, hone⟩ := alarm_circulates Nat.one_pos ha
  refine ⟨a, ha, hcirculates, hone ?_⟩
  simp [oneTick]

end Circulation

/-! ### Idle connections -/

/-- Every open connection was active less than three time slots before `t`. -/
def Recent (w : Watched ω) (t : ℤ) : Prop :=
  ∀ fd ∈ w.server.opened, t < w.active (w.server.conn fd) + 3 * timeslot

/-- The time does not go back. -/
def Onward (a : Alarmed ω) : AlarmEvent ω → Prop
  | .server e => a.watched.Forward e
  | .signals _ | .goesOff | .raised _ => True

/-- The time of a step. -/
def time : AlarmEvent ω → Option ℤ
  | .server e => e.time
  | .signals _ | .goesOff | .raised _ => none

theorem onward_of_time {a : Alarmed ω} {e : AlarmEvent ω} (he : time e = none) :
  a.Onward e
  := by
  cases e with
  | server e =>
      intro cur htime
      cases he.symm.trans htime
  | signals _ | goesOff | raised _ => trivial

/-- The time does not go back, and the alarm goes off in time. -/
def Timely (a : Alarmed ω) (e : AlarmEvent ω) : Prop :=
  a.Onward e ∧ ∀ cur, time e = some cur → a.armed = true → cur ≤ a.since + timeslot

/-- What is kept along such a run. -/
structure Punctual (a : Alarmed ω) : Prop where
  minded : a.watched.Minded
  past : a.since ≤ a.watched.now
  soon : a.armed = true → a.watched.now ≤ a.since + timeslot
  recent : Recent a.watched a.since

/-- A handler does nothing to the connections. -/
theorem Punctual.sigHandler {a : Alarmed ω} (h : a.Punctual) (room : ℕ) (sig : Signal) :
  (a.sigHandler room sig).Punctual
  := by
  obtain ⟨hwatched, hsince, harmed⟩ := sigHandler_watched room a sig
  constructor
  · rw [hwatched]
    exact h.minded
  · rw [hwatched, hsince]
    exact h.past
  · rw [hwatched, hsince, harmed]
    exact h.soon
  · rw [hwatched, hsince]
    exact h.recent

section Idle

variable [DecidableEq ω]

/-- A step makes no connection less active. -/
theorem active_of_step {w w' : Watched ω} {e : ServerEvent ω} (hforward : w.Forward e)
    (hw' : w.step e = some w') (n : ℕ) :
  w'.active n = w.active n ∨ w.now ≤ w'.active n
  := by
  obtain ⟨s, -, rfl⟩ := Option.map_eq_some_iff.mp hw'
  have hnow : w.now ≤ e.time.getD w.now := by
    cases htime : e.time with
    | none => exact le_rfl
    | some cur => exact hforward cur htime
  cases hbusy : Watched.busy w.server e with
  | none => exact .inl rfl
  | some m =>
      by_cases hn : n = m
      · subst hn
        apply Or.inr
        dsimp only [Option.elim]
        rw [Function.update_self]
        exact hnow
      · exact .inl (Function.update_of_ne hn ..)

/-- The time of a step. -/
theorem now_of_step {w w' : Watched ω} {e : ServerEvent ω} (hw' : w.step e = some w') :
  w'.now = e.time.getD w.now
  := by
  obtain ⟨s, -, rfl⟩ := Option.map_eq_some_iff.mp hw'
  rfl

/-- The connections stay recent when none is opened. -/
theorem Recent.calm {w w' : Watched ω} {t : ℤ} (h : Recent w t) (ht : t ≤ w.now)
    {e : ServerEvent ω} (hforward : w.Forward e) (hw' : w.step e = some w')
    (hconn : w'.server.conn = w.server.conn) (hopened : w'.server.opened ⊆ w.server.opened) :
  Recent w' t
  := by
  intro fd hfd
  have hslot : (0 : ℤ) < 3 * timeslot := by decide
  have hrecent := h fd (hopened hfd)
  rw [hconn]
  rcases active_of_step hforward hw' (w.server.conn fd) with heq | hle
  · rw [heq]
    exact hrecent
  · omega

/-- The connections stay recent as long as `tick` is not called. -/
theorem Recent.step {w w' : Watched ω} {t : ℤ} (h : Recent w t) (ht : t ≤ w.now)
    {e : ServerEvent ω} (he : ∀ received, e ≠ .alarm received)
    (hquiet : ∀ cur, e = .endBatch cur → w.server.timeout = false) (hforward : w.Forward e)
    (hw' : w.step e = some w') :
  Recent w' t
  := by
  obtain ⟨s, hs, hw⟩ := Option.map_eq_some_iff.mp hw'
  have hserver : w'.server = s := by rw [← hw]
  rw [← hserver] at hs
  cases change_of_step he hs with
  | calm hcalm => exact h.calm ht hforward hw' hcalm.conn hcalm.opened
  | @opens fd timer cur _ _ hconn hopened =>
      intro fd' hfd'
      have hslot : (0 : ℤ) < 3 * timeslot := by decide
      rw [hconn]
      by_cases heq : fd' = fd
      · have hactive : w'.active w.server.accepted = cur := by
          rw [← hw]
          exact Function.update_self ..
        have hle := hforward cur rfl
        rw [heq, Function.update_self, hactive]
        omega
      · have hrecent := h fd' ((Finset.mem_insert.mp (hopened ▸ hfd')).resolve_left heq)
        rw [Function.update_of_ne heq]
        rcases active_of_step hforward hw' (w.server.conn fd') with hsame | hle
        · rw [hsame]
          exact hrecent
        · omega
  | @ticks cur hbefore _ => cases (hquiet cur rfl).symm.trans hbefore

/-- `main` reads the pipe, which takes no time. -/
theorem Punctual.signals {a : Alarmed ω} (h : a.Punctual) {received : Bool} {w : Watched ω}
    (hw : a.watched.step (.alarm received) = some w) (pipe : List Signal) (stopped : Bool) :
  Punctual { a with watched := w, pipe := pipe, stopped := stopped }
  := by
  have hforward : a.watched.Forward (.alarm received) := fun _ htime => by cases htime
  have hnow : w.now = a.watched.now := now_of_step hw
  obtain ⟨s, hs, rfl⟩ := Option.map_eq_some_iff.mp hw
  have hcalm := alarm_calm hs
  constructor
  · exact h.minded.step hforward hw
  · exact h.past.trans_eq hnow.symm
  · intro harmed
    exact hnow.trans_le (h.soon harmed)
  · exact h.recent.calm h.past hforward hw hcalm.conn hcalm.opened

/-- `timer_handler` closes the connections that are idle, and sets the alarm. -/
theorem Punctual.timer {a : Alarmed ω} (h : a.Punctual) {cur : ℤ}
    (hforward : a.watched.Forward (.endBatch cur)) (htimeout : a.watched.server.timeout = true)
    {w : Watched ω} (hw : a.watched.step (.endBatch cur) = some w) :
  Punctual ({ a with watched := w }.alarm cur)
  := by
  have hnow : w.now = cur := now_of_step hw
  have hcur := hforward cur rfl
  have hslot : (0 : ℤ) ≤ timeslot := by decide
  obtain ⟨s, hs, rfl⟩ := Option.map_eq_some_iff.mp hw
  have hminded := h.minded.step hforward hw
  constructor
  · exact hminded
  · exact hnow.ge
  · intro _
    exact hnow.trans_le (le_add_of_nonneg_right hslot)
  · intro fd hfd
    obtain ⟨hbefore, hlater⟩ := (h.minded.closes_iff hcur htimeout hs fd).mp hfd
    have hconn : s.conn fd = a.watched.server.conn fd := by
      cases Server.steps_of_step hs with
      | endBatch _ hs =>
          have hsteady := finishBatch_steady hs
          rw [hsteady.conn]
    have hlt := hlater _ (h.minded.hasTimer hbefore)
    rw [← hconn] at hlt
    exact hlt

/-- Every step keeps the connections recent. -/
theorem Punctual.step {room : ℕ} {a a' : Alarmed ω} {e : AlarmEvent ω} (h : a.Punctual)
    (htimely : a.Timely e) (ha' : a.step room e = some a') :
  a'.Punctual
  := by
  obtain ⟨-, hsteps⟩ := steps_of_step ha'
  cases hsteps with
  | @server e w hread hquiet hw =>
      obtain ⟨hforward, hsoon⟩ := htimely
      have hnow := now_of_step hw
      have hne : ∀ received, e ≠ .alarm received := by
        rintro received rfl
        exact hread
      have hlater : a.watched.now ≤ w.now ∧ (a.armed = true → w.now ≤ a.since + timeslot) := by
        rw [hnow]
        cases htime : e.time with
        | none => exact ⟨le_rfl, h.soon⟩
        | some cur => exact ⟨hforward cur htime, hsoon cur htime⟩
      exact ⟨h.minded.step hforward hw, h.past.trans hlater.1, hlater.2,
        h.recent.step h.past hne hquiet hforward hw⟩
  | timer htimeout hw => exact h.timer htimely.1 htimeout hw
  | signals _ hw => exact h.signals hw _ _
  | stops hw => exact h.signals hw _ _
  | goesOff _ =>
      have hoff : Punctual { a with armed := false } :=
        ⟨h.minded, h.past, fun harmed => absurd harmed Bool.false_ne_true, h.recent⟩
      exact hoff.sigHandler room .alrm
  | raised => exact h.sigHandler room _

/-- Along a run in which the time does not go back and the alarm goes off in time, every
open connection was active less than three time slots before `alarm` was called last, and so
none is idle for four time slots as long as the alarm is set. -/
theorem idle_lt_of_armed {room : ℕ} {users : ℕ → HttpConn} {usersTimer : ℕ → ClientData}
    {maxRequest : ℕ} {now : ℤ} {es : List (AlarmEvent ω)} {a : Alarmed ω}
    (htimely : Run.Along (step room) Timely (start (init users usersTimer maxRequest) now) es)
    (h : Run.exec (step room) (start (init users usersTimer maxRequest) now) es = some a)
    {fd : ℕ} (hfd : fd ∈ a.watched.server.opened) :
  a.since < a.watched.active (a.watched.server.conn fd) + 3 * timeslot ∧
    (a.armed = true →
      a.watched.now < a.watched.active (a.watched.server.conn fd) + 4 * timeslot)
  := by
  have hstart : Punctual (start (init users usersTimer maxRequest : Server ω) now) := by
    refine ⟨Watched.start_minded users usersTimer maxRequest now, le_rfl, fun _ => ?_, ?_⟩
    · exact le_add_of_nonneg_right (by decide)
    · exact fun fd hfd => by cases hfd
  have hpunctual := Run.exec_invariant (fun _ _ _ ha ht ha' => Punctual.step ha ht ha') hstart
    htimely h
  have hrecent := hpunctual.recent fd hfd
  refine ⟨hrecent, fun harmed => ?_⟩
  have hsoon := hpunctual.soon harmed
  omega

instance (a : Alarmed ω) : ∀ e, Decidable (a.Onward e)
  | .server e => inferInstanceAs (Decidable (a.watched.Forward e))
  | .signals _ | .goesOff | .raised _ => instDecidableTrue

instance (a : Alarmed ω) (e : AlarmEvent ω) : Decidable (a.Timely e) :=
  inferInstanceAs (Decidable
    (a.Onward e ∧ ∀ cur ∈ time e, a.armed = true → cur ≤ a.since + timeslot))

theorem idle_lt_of_armed_oneTick :
  ∃ a : Alarmed ℕ, a.armed = true ∧
    a.since < a.watched.active (a.watched.server.conn 5) + 3 * timeslot ∧
    a.watched.now < a.watched.active (a.watched.server.conn 5) + 4 * timeslot
  := by
  have hrun : (Run.exec (step 1) (start (blank 1 : Server ℕ) 0) oneTick).map (fun a =>
      decide (a.armed = true ∧ 5 ∈ a.watched.server.opened)) = some true := by
    decide +kernel
  obtain ⟨a, ha, hfacts⟩ := Option.map_eq_some_iff.mp hrun
  obtain ⟨harmed, hopened⟩ := of_decide_eq_true hfacts
  obtain ⟨hsince, hidle⟩ := idle_lt_of_armed (by decide +kernel) ha hopened
  exact ⟨a, harmed, hsince, hidle harmed⟩

/-! ### `tick` -/

/-- The machine under the alarm keeps the order of the timers. -/
theorem minded_step {room : ℕ} {a a' : Alarmed ω} {e : AlarmEvent ω} (h : a.watched.Minded)
    (honward : a.Onward e) (ha' : a.step room e = some a') :
  a'.watched.Minded
  := by
  obtain ⟨-, hsteps⟩ := steps_of_step ha'
  have hread : ∀ received, a.watched.Forward (.alarm received) := fun _ _ htime => by cases htime
  cases hsteps with
  | server _ _ hw => exact h.step honward hw
  | timer _ hw => exact h.step honward hw
  | signals _ hw => exact h.step (hread _) hw
  | stops hw => exact h.step (hread _) hw
  | goesOff _ =>
      rw [(sigHandler_watched room _ .alrm).1]
      exact h
  | raised =>
      rw [(sigHandler_watched room a _).1]
      exact h

/-- What `timer_handler` leaves at the time `cur`. -/
structure Handled (a a' : Alarmed ω) (cur : ℤ) : Prop where
  since : a'.since = cur
  armed : a'.armed = true
  opened : ∀ fd, fd ∈ a'.watched.server.opened ↔ fd ∈ a.watched.server.opened ∧
    ∀ n, Watched.HasTimer a.watched.server n fd → cur < a.watched.active n + 3 * timeslot

/-- At the end of a batch `timer_handler` is called when `timeout` is set. -/
theorem handled_endBatch (room : ℕ) {a : Alarmed ω} (h : a.watched.Minded)
    (hstopped : a.stopped = false) (hbatch : a.watched.server.batch = some [])
    (htimeout : a.watched.server.timeout = true) {cur : ℤ} (hcur : a.watched.now ≤ cur) :
  ∃ a', a.step room (.server (.endBatch cur)) = some a' ∧ Handled a a' cur
  := by
  obtain ⟨l, htimed⟩ := h.timed
  obtain ⟨s', -, hs', -⟩ := htimed.finishBatch hbatch cur
  have hstep : a.watched.server.step (.endBatch cur) = some s' := by
    rw [Server.step, hbatch]
    exact hs'
  have hw : a.watched.step (.endBatch cur) = some ⟨s', cur, a.watched.active⟩ := by
    rw [Watched.step, hstep]
    rfl
  refine ⟨({ a with watched := ⟨s', cur, a.watched.active⟩ }.alarm cur), ?_, rfl, rfl,
    h.closes_iff hcur htimeout hstep⟩
  have hread : a.Readable (.endBatch cur) := trivial
  rw [step.eq_def, if_neg (ne_true_of_eq_false hstopped)]
  change a.serverStep (.endBatch cur) = _
  rw [serverStep, if_pos hread, hw, htimeout]
  rfl

/-- `epoll_wait` returns, with the pipe when there is something in it. -/
theorem exec_wait (room : ℕ) {a : Alarmed ω} (hstopped : a.stopped = false)
    (hbatch : a.watched.server.batch = none) {ready : List Ready}
    (hready : ready = [] ∨ ready = [.alarm] ∧ a.pipe ≠ []) :
  a.step room (.server (.wait ready)) = some { a with watched := { a.watched with
    server := { a.watched.server with batch := some ready } } }
  := by
  have hnone : clients ready = [] := by
    rcases hready with rfl | ⟨rfl, -⟩
    · rfl
    · rfl
  have hdeliver : a.watched.server.Deliverable ready := by
    rw [Deliverable, hnone]
    rcases hready with rfl | ⟨rfl, -⟩
    · exact ⟨List.nodup_nil, List.nodup_nil, fun _ hr => by cases hr⟩
    · refine ⟨List.nodup_singleton _, List.nodup_nil, fun r hr => ?_⟩
      rw [List.mem_singleton.mp hr]
      rfl
  have hread : a.Readable (.wait ready) := by
    rcases hready with rfl | ⟨rfl, hpipe⟩
    · exact fun hmem => by cases hmem
    · exact fun _ => hpipe
  have hstep : a.watched.server.step (.wait ready) =
      some { a.watched.server with batch := some ready } := by
    rw [Server.step, hbatch]
    dsimp only
    rw [if_pos hdeliver, hnone]
    rfl
  rw [step.eq_def, if_neg (ne_true_of_eq_false hstopped)]
  change a.serverStep (.wait ready) = _
  rw [serverStep, if_pos hread, Watched.step, hstep]
  rfl

/-- `main` reads the signal of the alarm. -/
theorem exec_signals (room : ℕ) {a : Alarmed ω} (hstopped : a.stopped = false)
    (hbatch : a.watched.server.batch = some [.alarm]) {rest : List Signal}
    (hpipe : a.pipe = .alrm :: rest) :
  a.step room (.signals 1) = some { a with
    watched := { a.watched with
      server := { a.watched.server with batch := some [], timeout := true } }
    pipe := rest }
  := by
  have hstep : a.watched.server.step (.alarm true) =
      some { a.watched.server with batch := some [], timeout := true } := by
    rw [Server.step, hbatch]
    dsimp only
    rw [Bool.or_true]
  have hn : 1 ≤ min 1024 a.pipe.length := by
    rw [hpipe, List.length_cons]
    omega
  rw [step.eq_def, if_neg (ne_true_of_eq_false hstopped)]
  change a.readPipe 1 = _
  rw [readPipe, if_pos hn, hpipe, ← hstopped]
  change (a.watched.step (.alarm true)).map _ = _
  rw [Watched.step, hstep, hstopped]
  rfl

/-- With the signal of the alarm in the pipe, `main` comes to `timer_handler`. -/
theorem handled_pipe (room : ℕ) {a : Alarmed ω} (h : a.watched.Minded)
    (hstopped : a.stopped = false) (hbatch : a.watched.server.batch = none)
    {rest : List Signal} (hpipe : a.pipe = .alrm :: rest) {cur : ℤ} (hcur : a.watched.now ≤ cur) :
  ∃ a', Run.exec (step room) a
      [.server (.wait [.alarm]), .signals 1, .server (.endBatch cur)] = some a' ∧
    Handled a a' cur
  := by
  have hne : a.pipe ≠ [] := by
    rw [hpipe]
    exact List.cons_ne_nil _ _
  have hwait := exec_wait room hstopped hbatch (.inr ⟨rfl, hne⟩)
  have hminded := minded_step (e := .server (.wait [.alarm])) h (onward_of_time rfl) hwait
  have hsignals := exec_signals room (a := { a with watched := { a.watched with
    server := { a.watched.server with batch := some [.alarm] } } }) hstopped rfl hpipe
  obtain ⟨a', ha', hhandled⟩ := handled_endBatch room
    (minded_step (e := .signals 1) hminded trivial hsignals) hstopped rfl rfl hcur
  refine ⟨a', ?_, hhandled.since, hhandled.armed, hhandled.opened⟩
  exact Run.exec_cons.mpr ⟨_, hwait, Run.exec_cons.mpr ⟨_, hsignals,
    Run.exec_cons.mpr ⟨a', ha', rfl⟩⟩⟩

/-- With `timeout` set, `main` comes to `timer_handler`. -/
theorem handled_timeout (room : ℕ) {a : Alarmed ω} (h : a.watched.Minded)
    (hstopped : a.stopped = false) (hbatch : a.watched.server.batch = none)
    (htimeout : a.watched.server.timeout = true) {cur : ℤ} (hcur : a.watched.now ≤ cur) :
  ∃ a', Run.exec (step room) a [.server (.wait []), .server (.endBatch cur)] = some a' ∧
    Handled a a' cur
  := by
  have hwait := exec_wait room hstopped hbatch (.inl rfl)
  obtain ⟨a', ha', hhandled⟩ := handled_endBatch room
    (minded_step (e := .server (.wait [])) h (onward_of_time rfl) hwait) hstopped rfl htimeout hcur
  refine ⟨a', ?_, hhandled.since, hhandled.armed, hhandled.opened⟩
  exact Run.exec_cons.mpr ⟨_, hwait, Run.exec_cons.mpr ⟨a', ha', rfl⟩⟩

/-- Whenever `main` comes to `epoll_wait`, and no signal to return is in the pipe, it can be
brought to `timer_handler` by at most four steps, at any time: the alarm goes off, and `main`
waits, reads the pipe and comes to the end of the batch.  The connections with a timer that
is due then are closed, and no others. -/
theorem handled_within_four {room : ℕ} (hroom : 0 < room) {users : ℕ → HttpConn}
    {usersTimer : ℕ → ClientData} {maxRequest : ℕ} {now cur : ℤ} {es : List (AlarmEvent ω)}
    {a : Alarmed ω}
    (honward : Run.Along (step room) Onward (start (init users usersTimer maxRequest) now) es)
    (h : Run.exec (step room) (start (init users usersTimer maxRequest) now) es = some a)
    (hstopped : a.stopped = false) (hterm : .term ∉ a.pipe)
    (hbatch : a.watched.server.batch = none) (hcur : a.watched.now ≤ cur) :
  ∃ es' a', es'.length ≤ 4 ∧ Run.exec (step room) a es' = some a' ∧ Handled a a' cur
  := by
  have hminded := Run.exec_invariant (fun _ _ _ ha ho ha' => minded_step ha ho ha')
    (Watched.start_minded users usersTimer maxRequest now) honward h
  have hcirculates := Run.exec_preserves (fun _ _ _ ha ha' => Circulates.step hroom ha ha')
    (start_circulates users usersTimer maxRequest now) h
  have hpos := (hcirculates.resolve_left (ne_true_of_eq_false hstopped)).resolve_left hterm
  cases hpipe : a.pipe with
  | cons sig rest =>
      -- the first byte is of the alarm, as no other signal is in the pipe
      cases sig with
      | alrm =>
          obtain ⟨a', ha', hhandled⟩ := handled_pipe room hminded hstopped hbatch hpipe hcur
          refine ⟨_, a', ?_, ha', hhandled⟩
          exact Nat.le_succ 3
      | term => exact absurd (hpipe ▸ List.mem_cons_self) hterm
  | nil =>
      cases htimeout : a.watched.server.timeout with
      | true =>
          obtain ⟨a', ha', hhandled⟩ := handled_timeout room hminded hstopped hbatch htimeout hcur
          refine ⟨_, a', ?_, ha', hhandled⟩
          exact Nat.le_add_left 2 2
      | false =>
          have harmed : a.armed = true := by
            dsimp only [alarms] at hpos
            rw [hpipe, htimeout] at hpos
            cases harmed : a.armed with
            | true => rfl
            | false =>
                rw [harmed] at hpos
                cases hpos
          have hgoesOff : a.step room .goesOff =
              some { a with armed := false, pipe := [.alrm] } := by
            rw [step.eq_def, if_neg (ne_true_of_eq_false hstopped)]
            change (if a.armed then _ else _) = _
            rw [if_pos harmed, sigHandler, if_pos (by rw [hpipe]; exact hroom), hpipe]
            rfl
          obtain ⟨a', ha', hhandled⟩ := handled_pipe room
            (a := { a with armed := false, pipe := [.alrm] }) hminded hstopped hbatch rfl hcur
          refine ⟨_, a', le_rfl, Run.exec_cons.mpr ⟨_, hgoesOff, ha'⟩, ?_⟩
          exact ⟨hhandled.since, hhandled.armed, hhandled.opened⟩

theorem handled_within_four_oneTick :
  ∃ (a : Alarmed ℕ) (es' : List (AlarmEvent ℕ)) (a' : Alarmed ℕ), es'.length ≤ 4 ∧
    Run.exec (step 1) a es' = some a' ∧ Handled a a' 20
  := by
  have hrun : (Run.exec (step 1) (start (blank 1 : Server ℕ) 0) oneTick).map (fun a =>
      decide (a.stopped = false ∧ .term ∉ a.pipe ∧ a.watched.server.batch = none ∧
        a.watched.now = 5)) = some true := by
    decide +kernel
  obtain ⟨a, ha, hfacts⟩ := Option.map_eq_some_iff.mp hrun
  obtain ⟨hstopped, hterm, hbatch, hnow⟩ := of_decide_eq_true hfacts
  exact ⟨a, handled_within_four Nat.one_pos (by decide +kernel) ha hstopped hterm hbatch
    (by omega)⟩

end Idle

end Alarmed

end WebServer
