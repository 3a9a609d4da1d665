import WebServer.Http.Isolation
import WebServer.Lib.Interleaving

/-!
# A session

What one client has of the server: an object of its own, which is read from, processed and
written to in turns.  A machine `Session` takes what happens to the connection, and answers
with what is seen of it.  `process` comes once behind each `read` that returned true, and
`write` is called as long as the response that `process` prepared is not sent.  It may also be
called when nothing is to be sent: `addfd` may have registered a new connection for writing.
-/

open CString Fallible

namespace WebServer

/-- Whose turn it is on a connection. -/
inductive Phase where
  /-- It was not accepted yet. -/
  | unborn
  /-- The client sends. -/
  | reading
  /-- What was read waits for `process`. -/
  | queued
  /-- A response is sent. -/
  | sending
  /-- It is about to be closed. -/
  | ending
  deriving DecidableEq

/-- The phase in which a descriptor is armed for an event. -/
def Interest.phase : Interest → Phase
  | .epollIn => .reading
  | .epollOut => .sending

/-- The phase behind `process`. -/
def ProcessEnd.phase : ProcessEnd → Phase
  | .rearm ev => ev.phase
  | .close => .ending

/-- The phase behind `write`. -/
def WriteEnd.phase : WriteEnd → Phase
  | .idle | .kept => .reading
  | .again => .sending
  | .failed | .closing => .ending

/-- The descriptor is armed for the phase behind a `write` that returns true. -/
theorem WriteEnd.phase_eq {e : WriteEnd} {ev : Interest} (hresult : e.result = true)
    (hev : e.interest = some ev) :
  e.phase = ev.phase
  := by
  cases e with
  | idle | again | kept =>
      cases hev
      rfl
  | failed => cases hresult
  | closing => cases hresult

/-- What happens to a connection. -/
inductive SessionEvent where
  | accept
  | read (rs : List Recv)
  | process (found : Found)
  | write (os : List Outcome)
  /-- Its descriptor is closed, by `cb_func` or by `close_conn`. -/
  | close

/-- What is seen of a connection. -/
inductive Seen where
  | accepted
  /-- What `read` returns. -/
  | read (ok : Bool)
  /-- How `process` ends. -/
  | processed (e : ProcessEnd)
  /-- The bytes that the calls of `writev` are offered, and how `write` ends. -/
  | wrote (offers : List (List UInt8)) (e : WriteEnd)
  | closed

/-- A connection with an object of its own. -/
structure Session where
  conn : HttpConn
  phase : Phase
  opened : Bool

namespace HttpConn

/-- The bytes that the calls of `writev` of a call of `write` are offered. -/
def wrote (c : HttpConn) (os : List Outcome) : List (List UInt8) :=
  if c.bytesToSend = 0 then [] else c.offers os

theorem Alike.wrote {c d : HttpConn} (h : Alike False c d) (os : List Outcome) :
  d.wrote os = c.wrote os
  := by
  rw [HttpConn.wrote, HttpConn.wrote, h.bytesToSend]
  by_cases hidle : c.bytesToSend = 0
  · rw [if_pos hidle, if_pos hidle]
  · rw [if_neg hidle, if_neg hidle, (h.writeLoop hidle os).1]

/-- `process` looks at nothing that `init()` leaves behind. -/
theorem Alike.process {c d : HttpConn} (h : Alike False c d) (found : Found) :
  Related (Answers False) (c.process found) (d.process found)
  := by
  rw [HttpConn.process, HttpConn.process, h.toParser]
  cases hread : c.toParser.processRead with
  | error f => exact .error f
  | ok r =>
      obtain ⟨e, p⟩ := r
      have hconn : Alike False { c with toParser := p } { d with toParser := p } :=
        { h with toParser := rfl }
      cases e with
      | returned ret =>
          have hret : ret ≠ .fileRequest := by
            rintro rfl
            rcases Parser.processRead_exit hread with hexit | hexit | hexit
            · cases hexit
            · cases hexit
            · cases hexit
          apply respond_alike (hconn.imp fun h => absurd h hret)
      | doRequest =>
          have htwin : HttpTask.Twin False (({ c with toParser := p } : HttpConn).task found.users)
            (({ d with toParser := p } : HttpConn).task found.users) := ⟨hconn, rfl, rfl, rfl⟩
          rw [ok_bind, ok_bind]
          refine Related.bind (htwin.makePath found.query) fun a b hab => ?_
          obtain ⟨hret, hfile⟩ := doRequest_alike hab.conn found.answer
          change Related _ (HttpConn.respond _ (doRequest _ found.answer).1)
            (HttpConn.respond _ (doRequest _ found.answer).1)
          rw [← hret]
          apply respond_alike hfile

/-- The socket is not looked at. -/
theorem Alike.socket {sized : Prop} {c d : HttpConn} (h : Alike sized c d) (fd : Option ℕ) :
  Alike sized c { d with sockfd := fd }
  := { h with }

end HttpConn

namespace Session

/-- A connection that was not accepted yet. -/
def unborn : Session where
  conn := Sending.forFile 0
  phase := .unborn
  opened := false

/-- What happens to a connection, and what is seen of it. -/
def step (s : Session) : SessionEvent → Option (Seen × Session)
  | .accept =>
    if s.phase = .unborn then
      some (.accepted, { conn := s.conn.init, phase := .reading, opened := true })
    else
      none
  | .read rs =>
    if s.opened ∧ s.phase = .reading then
      (s.conn.read rs).map fun r =>
        (.read r.1, { s with conn := r.2, phase := if r.1 then .queued else .ending })
    else
      none
  | .process found =>
    if s.phase = .queued then
      (s.conn.process found).toOption.map fun r =>
        (.processed r.1, { s with conn := r.2, phase := r.1.phase })
    else
      none
  | .write os =>
    if s.opened ∧ (s.phase = .sending ∨ s.phase = .reading) then
      (s.conn.write os).2.map fun e =>
        (.wrote (s.conn.wrote os) e, { s with conn := (s.conn.write os).1, phase := e.phase })
    else
      none
  | .close => if s.opened then some (.closed, { s with opened := false }) else none

/-! ### The cases of a step -/

section Cases

variable {s : Session}

theorem step_accept (h : s.phase = .unborn) :
  s.step .accept = some (.accepted, { conn := s.conn.init, phase := .reading, opened := true })
  := if_pos h

theorem step_read {rs : List Recv} {ok : Bool} {c : HttpConn} (hopened : s.opened = true)
    (hphase : s.phase = .reading) (h : s.conn.read rs = some (ok, c)) :
  s.step (.read rs) =
    some (.read ok, { s with conn := c, phase := if ok then .queued else .ending })
  := by
  rw [step, if_pos ⟨hopened, hphase⟩, h]
  rfl

theorem step_process {found : Found} {e : ProcessEnd} {c : HttpConn}
    (hphase : s.phase = .queued) (h : s.conn.process found = .ok (e, c)) :
  s.step (.process found) = some (.processed e, { s with conn := c, phase := e.phase })
  := by
  rw [step, if_pos hphase, h]
  rfl

theorem step_write {os : List Outcome} {e : WriteEnd} {c : HttpConn} (hopened : s.opened = true)
    (hphase : s.phase = .sending ∨ s.phase = .reading) (h : s.conn.write os = (c, some e)) :
  s.step (.write os) =
    some (.wrote (s.conn.wrote os) e, { s with conn := c, phase := e.phase })
  := by
  rw [step, if_pos ⟨hopened, hphase⟩, h]
  rfl

theorem step_close (hopened : s.opened = true) :
  s.step .close = some (.closed, { s with opened := false })
  := if_pos hopened

end Cases

end Session

end WebServer
