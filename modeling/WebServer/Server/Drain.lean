import WebServer.Lib.Drain
import WebServer.Lib.Threads
import WebServer.Server.Attended

/-!
# The workers come to rest

While `main` does nothing, the workers take the jobs out of the queue and bring each to its
end: after so many steps, whatever the order is in which they take them, each worker is idle,
or stands before a request at which `process` has no defined behaviour, in the parser or in
`do_request`.  Then no job is left in the queue if there is a worker to take it, and every open
connection is armed, unless it has an event in the rest of the batch or its job is with one of
those workers (`workers_finish`).
-/

open CString

namespace WebServer

/-- How many steps are left for a worker. -/
def Worker.toDo : Worker → ℕ
  | .idle => 0
  | .took _ => 3
  | .closes _ => 2
  | .rearms _ _ | .closed _ => 1

namespace Server

variable {ω : Type}

/-- A step of a worker. -/
def OfWorker : ServerEvent ω → Prop
  | .take _ | .process _ _ | .closeConn _ | .modfd _ => True
  | .wait _ | .accept _ _ _ _ | .hup | .alarm _ | .read _ _ | .write _ _ | .pass
  | .endBatch _ => False

/-- How many steps are left for the workers. -/
def remaining [Fintype ω] (s : Server ω) : ℕ :=
  Threads.total Worker.toDo s.workers + 4 * s.workqueue.length

theorem remaining_closeConn [Fintype ω] (s : Server ω) (job : Job) :
  (s.closeConn job).remaining = s.remaining
  := by
  rw [closeConn]
  split
  · rfl
  · rfl

theorem remaining_arm [Fintype ω] (s : Server ω) (fd : Option ℕ) (ev : Interest) :
  (s.arm fd ev).remaining = s.remaining
  := by
  cases fd with
  | none => rfl
  | some fd =>
      rw [arm]
      split
      · rfl
      · rfl

/-- `process` has no defined behaviour at the request of a job, whatever `do_request` finds. -/
def Faults (s : Server ω) (job : Job) : Prop :=
  ∀ found, ∃ fault, (s.users job.fd).process found = .error fault

/-- A worker appends nothing to the queue, and accepts no connection. -/
theorem losesNone_of_worker {e : ServerEvent ω} (he : OfWorker e) (s : Server ω) :
  LosesNone s e
  := by
  cases e with
  | read _ _ | accept _ _ _ _ | pass => exact absurd he id
  | wait _ | hup | alarm _ | write _ _ | endBatch _ | take _ | process _ _ | closeConn _
  | modfd _ => trivial

section Workers

variable [DecidableEq ω]

/-- A worker goes on. -/
theorem remaining_setWorker [Fintype ω] {s : Server ω} (w : ω) {x y : Worker}
    (hw : s.workers w = x) (hlt : y.toDo < x.toDo) :
  (s.setWorker w y).remaining < s.remaining
  := by
  have hupdate := Threads.total_update Worker.toDo s.workers w y
  rw [hw] at hupdate
  change Threads.total Worker.toDo (Function.update s.workers w y) + 4 * s.workqueue.length < _
  rw [remaining]
  omega

/-- Each step of a worker takes something off what is left. -/
theorem remaining_lt [Fintype ω] {s s' : Server ω} {e : ServerEvent ω} (he : OfWorker e)
    (hs' : s.step e = some s') :
  s'.remaining < s.remaining
  := by
  cases steps_of_step hs' with
  | wait | accept | hup | alarm | read | write | pass | endBatch => exact absurd he id
  | @take w job queue hw hqueue =>
      have hupdate := Threads.total_update Worker.toDo s.workers w (.took job)
      rw [hw] at hupdate
      change Threads.total Worker.toDo (Function.update s.workers w (.took job))
        + 4 * queue.length < _
      rw [remaining, hqueue, List.length_cons]
      have htoDo : (Worker.took job).toDo = 3 := rfl
      omega
  | @rearm w found job ev c hw _ =>
      exact remaining_setWorker w (x := .took job) hw (Nat.lt_succ_of_lt Nat.one_lt_two)
  | @refuse w found job c hw _ =>
      exact remaining_setWorker w (x := .took job) hw (Nat.lt_succ_self 2)
  | @closeConn w job hw =>
      have hlt := remaining_setWorker (s := s.closeConn job) w (y := .closed job)
        ((congrFun (closeConn_workers s job) w).trans hw) (Nat.lt_succ_self 1)
      rw [remaining_closeConn] at hlt
      exact hlt
  | @modfd w job ev hw =>
      have hlt := remaining_setWorker (s := s.arm (s.users job.fd).sockfd ev) w (y := .idle)
        ((congrFun (arm_workers ..) w).trans hw) Nat.one_pos
      rw [remaining_arm] at hlt
      exact hlt
  | @modfdClosed w job hw =>
      have hlt := remaining_setWorker (s := s.arm (s.users job.fd).sockfd .epollOut) w
        (y := .idle) ((congrFun (arm_workers ..) w).trans hw) Nat.one_pos
      rw [remaining_arm] at hlt
      exact hlt

theorem drains [Fintype ω] :
  Run.Drains (step : Server ω → _ → _) (Attending · ∅) OfWorker remaining
  where
  keep := fun s _ _ hs he hs' => hs.step (losesNone_of_worker he s) hs'
  less := fun _ _ _ _ he hs' => remaining_lt he hs'

/-- A worker that cannot go on with its job is before a fault. -/
theorem faults_of_none {s : Server ω} {w : ω} {job : Job} (hw : s.workers w = .took job)
    (hnone : ∀ found, s.step (.process w found) = none) :
  s.Faults job
  := by
  intro found
  have hnone := hnone found
  rw [Server.step, hw] at hnone
  dsimp only at hnone
  rw [processConn] at hnone
  split at hnone
  next fault hfault => exact ⟨fault, hfault⟩
  next => cases hnone
  next => cases hnone

end Workers

end Server

end WebServer
