import WebServer.Http.DoRequest
import WebServer.Lib.Run
import WebServer.Timer.SortTimerList

/-!
# The server

The event loop of `main` and the workers that run `process`, as one machine: what `main`
does for one event of a batch is a step, and so are the parts of `process` up to, at and
after its call of `close_conn`.  The parameters of an event are what the calls of the
operating system return: which descriptors are ready, the descriptor of a new connection
and what came of its registration, what `recv` and `writev` return, what `do_request` finds,
and the time.  Any descriptor that is not open may be returned by `accept`.

`EPOLLONESHOT` disarms a descriptor whose event is delivered, and `close` takes a
descriptor out of `epoll`, so only open descriptors are armed.  `addfd` sets its bits in a
mask that is not initialised, and does not look at what `epoll_ctl` returns: a new connection
may be registered for more than reading, or not at all.  The listening socket and the pipe are
taken to be registered, for reading.  An index out of bounds, the use of a null pointer or of a
deleted timer, and undefined behaviour of the parser and of `do_request` have no result.

The connections are numbered in the order in which they were accepted.  The fields
`accepted`, `conn`, `timerConn`, `subtracted` and `fired` record which connection is
where; no step of the program looks at them.
-/

open CString Fallible

namespace WebServer

/-- `MAX_FD`. -/
def maxFd : ℕ := 65535

/-- `TIMESLOT`. -/
def timeslot : ℤ := 5

/-- An event of a client's descriptor, as `main` tells them apart. -/
inductive ClientEvent where
  /-- `EPOLLHUP`, `EPOLLERR` or `EPOLLRDHUP`. -/
  | hup
  /-- `EPOLLIN`. -/
  | readable
  /-- `EPOLLOUT`. -/
  | writable
  /-- None of these. -/
  | other
  deriving DecidableEq

/-- What came of the registration of a descriptor. -/
inductive Registration where
  /-- `epoll_ctl` failed. -/
  | failed
  /-- Whether the bits of the mask beside those for reading ask for `EPOLLOUT`, and for an event
  that `main` does not tell apart. -/
  | made (writable other : Bool)
  deriving DecidableEq

/-- The mask has no bits that nobody set, as behind `modfd`. -/
def Registration.clean : Registration := .made false false

/-- What a descriptor is armed for by `addfd`. -/
def Registration.interest : Registration → Option Interest
  | .failed => none
  | .made _ _ => some .epollIn

/-- Whether the mask asks for `EPOLLOUT` by chance. -/
def Registration.writable : Registration → Bool
  | .failed => false
  | .made writable _ => writable

/-- Whether the mask asks for an event that `main` does not tell apart. -/
def Registration.other : Registration → Bool
  | .failed => false
  | .made _ other => other

/-- An entry of `events`: the listening socket, the pipe of the signals, or the descriptor
of a client. -/
inductive Ready where
  | listen
  | alarm
  | client (fd : ℕ) (ev : ClientEvent)
  deriving DecidableEq

/-- Whether an event may be delivered for what a descriptor is armed for. -/
def ClientEvent.fits : ClientEvent → Option Interest → Registration → Bool
  | .hup, armed, _ => armed.isSome
  | .readable, armed, _ => armed = some .epollIn
  | .writable, armed, added => armed = some .epollOut || armed.isSome && added.writable
  | .other, armed, added => armed.isSome && added.other

/-- Whether an entry may be delivered for what the descriptors are armed for. -/
def Ready.fits (epoll : ℕ → Option Interest) (added : ℕ → Registration) : Ready → Bool
  | .listen => true
  | .alarm => true
  | .client fd ev => ev.fits (epoll fd) (added fd)

/-- `client_data`. -/
structure ClientData where
  sockfd : ℕ
  timer : Option ℕ

/-- A pointer into `users` that was put into the queue, and the connection it was put
there for. -/
structure Job where
  fd : ℕ
  conn : ℕ
  deriving DecidableEq

/-- Where a worker is: waiting for a job, with a job before the parsing, before
`close_conn`, before `modfd`, or before the `modfd` that follows `close_conn`. -/
inductive Worker where
  | idle
  | took (job : Job)
  | closes (job : Job)
  | rearms (job : Job) (ev : Interest)
  | closed (job : Job)
  deriving DecidableEq

/-- The job of a worker that executes `process`. -/
def Worker.job : Worker → Option Job
  | .idle => none
  | .took job | .closes job | .rearms job _ | .closed job => some job

/-- The job of a worker that has neither armed nor closed its descriptor. -/
def Worker.unfinished : Worker → Option Job
  | .idle | .closed _ => none
  | .took job | .closes job | .rearms job _ => some job

/-- The server.  `batch` are the events of the last `epoll_wait` that `main` has not come
to, and there is none while `main` is in `epoll_wait`.  `added` says how the open descriptors
are registered. -/
structure Server (ω : Type) where
  users : ℕ → HttpConn
  usersTimer : ℕ → ClientData
  timerLst : SortTimerList
  userCount : ℤ
  opened : Finset ℕ
  epoll : ℕ → Option Interest
  added : ℕ → Registration
  batch : Option (List Ready)
  timeout : Bool
  maxRequest : ℕ
  workqueue : List Job
  workers : ω → Worker
  accepted : ℕ
  conn : ℕ → ℕ
  timerConn : ℕ → ℕ
  subtracted : List ℕ
  fired : List (ℕ × Option ℕ)

/-- A step of `main` or of a worker. -/
inductive ServerEvent (ω : Type) where
  /-- `epoll_wait` returns. -/
  | wait (ready : List Ready)
  /-- `main` accepts a connection, registers it, and constructs its timer at the address
  `timer`. -/
  | accept (fd timer : ℕ) (cur : ℤ) (added : Registration)
  /-- `main` handles a connection that was hung up. -/
  | hup
  /-- `main` reads the pipe, with the signal `SIGALRM` in it or not. -/
  | alarm (received : Bool)
  /-- `main` reads. -/
  | read (rs : List Recv) (cur : ℤ)
  /-- `main` writes. -/
  | write (os : List Outcome) (cur : ℤ)
  /-- `main` passes over an event of a client that it does not tell apart. -/
  | pass
  /-- `main` comes to the end of the batch. -/
  | endBatch (cur : ℤ)
  /-- A worker takes a job from the queue. -/
  | take (w : ω)
  /-- A worker parses the request and prepares the response. -/
  | process (w : ω) (found : Found)
  /-- A worker executes `close_conn`. -/
  | closeConn (w : ω)
  /-- A worker executes `modfd`. -/
  | modfd (w : ω)

namespace Server

variable {ω : Type}

/-- The server before its first connection, with arrays of any content. -/
def init (users : ℕ → HttpConn) (usersTimer : ℕ → ClientData) (maxRequest : ℕ) : Server ω where
  users := users
  usersTimer := usersTimer
  timerLst := SortTimerList.empty
  userCount := 0
  opened := ∅
  epoll := fun _ => none
  added := fun _ => .failed
  batch := none
  timeout := false
  maxRequest := maxRequest
  workqueue := []
  workers := fun _ => .idle
  accepted := 0
  conn := fun _ => 0
  timerConn := fun _ => 0
  subtracted := []
  fired := []

/-- The server with some content in its arrays. -/
def blank (maxRequest : ℕ) : Server ω :=
  init (fun _ => Sending.forFile 0) (fun _ => ⟨0, none⟩) maxRequest

/-! ### The operating system -/

/-- The descriptors of clients among the ready ones. -/
def clients (ready : List Ready) : List ℕ :=
  ready.filterMap fun
    | .client fd _ => some fd
    | _ => none

/-- The clients whose events `main` has not come to. -/
def pending (s : Server ω) : List ℕ := clients (s.batch.getD [])

/-- Whether `epoll_wait` may return these events. -/
def Deliverable (s : Server ω) (ready : List Ready) : Prop :=
  ready.Nodup ∧ (clients ready).Nodup ∧ ∀ r ∈ ready, r.fits s.epoll s.added = true

instance (s : Server ω) (ready : List Ready) : Decidable (s.Deliverable ready) :=
  inferInstanceAs (Decidable (_ ∧ _ ∧ _))

/-- `close`. -/
def close (s : Server ω) (fd : ℕ) : Server ω :=
  { s with
    opened := s.opened.erase fd
    epoll := Function.update s.epoll fd none }

/-- `modfd`, which fails for a descriptor that is not open or not registered. -/
def arm (s : Server ω) (fd : Option ℕ) (ev : Interest) : Server ω :=
  match fd with
  | none => s
  | some fd =>
    if fd ∈ s.opened ∧ s.added fd ≠ .failed then
      { s with
        epoll := Function.update s.epoll fd (some ev)
        added := Function.update s.added fd .clean }
    else
      s

/-! ### `main` -/

/-- `cb_func` of a timer, called with `&users_timer[slot]`. -/
def cbFunc (s : Server ω) (timer slot : ℕ) : Server ω :=
  let fd := (s.usersTimer slot).sockfd
  { s.close fd with
    userCount := s.userCount - 1
    subtracted := s.conn fd :: s.subtracted
    fired := (s.timerConn timer, if fd ∈ s.opened then some (s.conn fd) else none) :: s.fired }

/-- The timer of a descriptor closes it and is deleted. -/
def closeByTimer (s : Server ω) (fd : ℕ) : Option (Server ω) := do
  let timer ← (s.usersTimer fd).timer
  let _ ← s.timerLst.heap timer
  let s := s.cbFunc timer fd
  let timerLst ← s.timerLst.delTimer (some timer)
  some { s with timerLst := timerLst }

/-- The timer of a descriptor is put off. -/
def delayTimer (s : Server ω) (fd : ℕ) (cur : ℤ) : Option (Server ω) :=
  match (s.usersTimer fd).timer with
  | none => some s
  | some timer => do
    let timerLst ← s.timerLst.setExpire timer (cur + 3 * timeslot)
    let timerLst ← timerLst.adjustTimer (some timer)
    some { s with timerLst := timerLst }

/-- `threadpool::append`, of `users + fd`. -/
def append (s : Server ω) (fd : ℕ) : Server ω :=
  if s.maxRequest ≤ s.workqueue.length then
    s
  else
    { s with workqueue := s.workqueue ++ [⟨fd, s.conn fd⟩] }

/-- `http_conn::init` of a new connection, with its call of `addfd`. -/
def initConn (s : Server ω) (fd : ℕ) (added : Registration) : Server ω :=
  { s with
    users := Function.update s.users fd ((s.users fd).initAt fd)
    opened := insert fd s.opened
    epoll := Function.update s.epoll fd added.interest
    added := Function.update s.added fd added
    userCount := s.userCount + 1
    conn := Function.update s.conn fd s.accepted
    accepted := s.accepted + 1 }

/-- The timer of a new connection. -/
def addTimer (s : Server ω) (fd timer : ℕ) (cur : ℤ) : Option (Server ω) := do
  let timerLst ← s.timerLst.newTimer timer ⟨cur + 3 * timeslot, fd⟩
  let timerLst ← timerLst.addTimer (some timer)
  some { s with
    usersTimer := Function.update s.usersTimer fd ⟨fd, some timer⟩
    timerLst := timerLst
    timerConn := Function.update s.timerConn timer (s.conn fd) }

/-- `main` accepts a connection, which it closes at once when there are too many. -/
def acceptConn (s : Server ω) (fd timer : ℕ) (cur : ℤ) (added : Registration) :
    Option (Server ω) :=
  if fd ∈ s.opened then
    none
  else if (maxFd : ℤ) ≤ s.userCount then
    some s
  else if maxFd ≤ fd then
    none
  else
    (s.initConn fd added).addTimer fd timer cur

/-- `main` reads from a connection. -/
def readConn (s : Server ω) (fd : ℕ) (rs : List Recv) (cur : ℤ) : Option (Server ω) := do
  let (ok, c) ← (s.users fd).read rs
  let s := { s with users := Function.update s.users fd c }
  if ok then (s.append fd).delayTimer fd cur else s.closeByTimer fd

/-- `http_conn::write` with its call of `modfd`. -/
def sendConn (s : Server ω) (fd : ℕ) (os : List Outcome) : Option (Bool × Server ω) :=
  match (s.users fd).write os with
  | (_, none) => none
  | (c, some e) =>
    let s := { s with users := Function.update s.users fd c }
    match e.interest with
    | none => some (e.result, s)
    | some ev => some (e.result, s.arm c.sockfd ev)

/-- `main` writes to a connection. -/
def writeConn (s : Server ω) (fd : ℕ) (os : List Outcome) (cur : ℤ) : Option (Server ω) := do
  let (ok, s) ← s.sendConn fd os
  if ok then s.delayTimer fd cur else s.closeByTimer fd

/-- `timer_lst.tick()`. -/
def tick (s : Server ω) (cur : ℤ) : Option (Server ω) := do
  let (calls, timerLst) ← s.timerLst.tick cur
  some { calls.foldl (fun s call => s.cbFunc call.1 call.2) s with timerLst := timerLst }

/-- `main` comes to the end of a batch. -/
def finishBatch (s : Server ω) (cur : ℤ) : Option (Server ω) :=
  if s.timeout then
    ({ s with batch := none, timeout := false }).tick cur
  else
    some { s with batch := none }

/-! ### The workers -/

section Workers

variable [DecidableEq ω]

/-- Sets where a worker is. -/
def setWorker (s : Server ω) (w : ω) (x : Worker) : Server ω :=
  { s with workers := Function.update s.workers w x }

/-- A worker comes to the end of the parsing and responding of `process`. -/
def processConn (s : Server ω) (w : ω) (job : Job) (found : Found) : Option (Server ω) :=
  match (s.users job.fd).process found with
  | .error _ => none
  | .ok (.rearm ev, c) =>
    some ({ s with users := Function.update s.users job.fd c }.setWorker w (.rearms job ev))
  | .ok (.close, c) =>
    some ({ s with users := Function.update s.users job.fd c }.setWorker w (.closes job))

/-- `http_conn::close_conn`, of the object of a job. -/
def closeConn (s : Server ω) (job : Job) : Server ω :=
  match (s.users job.fd).sockfd with
  | none => s
  | some fd =>
    { s.close fd with
      userCount := s.userCount - 1
      users := Function.update s.users job.fd { s.users job.fd with sockfd := none }
      subtracted := s.conn job.fd :: s.subtracted }

/-- A step of `main` or of a worker. -/
def step (s : Server ω) : ServerEvent ω → Option (Server ω)
  | .wait ready =>
    match s.batch with
    | none =>
      if s.Deliverable ready then
        some { s with
          batch := some ready
          epoll := fun fd => if fd ∈ clients ready then none else s.epoll fd }
      else
        none
    | some _ => none
  | .accept fd timer cur added =>
    match s.batch with
    | some (.listen :: rest) => { s with batch := some rest }.acceptConn fd timer cur added
    | _ => none
  | .hup =>
    match s.batch with
    | some (.client fd .hup :: rest) => { s with batch := some rest }.closeByTimer fd
    | _ => none
  | .alarm received =>
    match s.batch with
    | some (.alarm :: rest) =>
      some { s with batch := some rest, timeout := s.timeout || received }
    | _ => none
  | .read rs cur =>
    match s.batch with
    | some (.client fd .readable :: rest) => { s with batch := some rest }.readConn fd rs cur
    | _ => none
  | .write os cur =>
    match s.batch with
    | some (.client fd .writable :: rest) => { s with batch := some rest }.writeConn fd os cur
    | _ => none
  | .pass =>
    match s.batch with
    | some (.client _ .other :: rest) => some { s with batch := some rest }
    | _ => none
  | .endBatch cur =>
    match s.batch with
    | some [] => s.finishBatch cur
    | _ => none
  | .take w =>
    match s.workers w, s.workqueue with
    | .idle, job :: queue => some ({ s with workqueue := queue }.setWorker w (.took job))
    | _, _ => none
  | .process w found =>
    match s.workers w with
    | .took job => s.processConn w job found
    | _ => none
  | .closeConn w =>
    match s.workers w with
    | .closes job => some ((s.closeConn job).setWorker w (.closed job))
    | _ => none
  | .modfd w =>
    match s.workers w with
    | .rearms job ev => some ((s.arm (s.users job.fd).sockfd ev).setWorker w .idle)
    | .closed job => some ((s.arm (s.users job.fd).sockfd .epollOut).setWorker w .idle)
    | _ => none

end Workers

end Server

end WebServer
