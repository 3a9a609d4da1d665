import WebServer.Http.Write

/-!
# Handling a connection

What `main` and the workers do with the object of a connection: `http_conn::read` as a
function of what `recv` returns, `do_request` from its call of `stat` on as a function of what
that finds, and `http_conn::process` from the result of `process_read` on, up to its last
calls, `close_conn` and `modfd`, which are the server's.
-/

open CString Fallible

namespace WebServer

/-- What `recv` returns: bytes, nothing for now, an error, or 0. -/
inductive Recv where
  | bytes (bs : List UInt8)
  | again
  | error
  | closed
  deriving DecidableEq

/-- What `do_request` finds in place of the file of the request. -/
inductive Answer where
  | missing
  | unreadable (size : ℕ)
  | directory (size : ℕ)
  | file (size : ℕ) (content : ℤ → UInt8)

/-- The event a descriptor is armed for. -/
inductive Interest where
  | epollIn
  | epollOut
  deriving DecidableEq

/-- How `http_conn::process` ends. -/
inductive ProcessEnd where
  /-- `modfd` for an event. -/
  | rearm (ev : Interest)
  /-- `close_conn`, and then `modfd` for `EPOLLOUT`. -/
  | close
  deriving DecidableEq

/-- The event a call of `http_conn::write` arms the descriptor for. -/
def WriteEnd.interest : WriteEnd → Option Interest
  | .idle => some .epollIn
  | .again => some .epollOut
  | .failed => none
  | .kept => some .epollIn
  | .closing => some .epollIn

/-- What a call of `http_conn::write` returns. -/
def WriteEnd.result : WriteEnd → Bool
  | .idle => true
  | .again => true
  | .failed => false
  | .kept => true
  | .closing => false

namespace HttpConn

/-- `http_conn::init(fd, address)`, but for `addfd` and the count of the users. -/
def initAt (c : HttpConn) (fd : ℕ) : HttpConn := { c.init with sockfd := some fd }

/-- The loop of `http_conn::read` for what its calls of `recv` return; the call has not
ended when that runs out. -/
def readLoop (c : HttpConn) : List Recv → Option (Bool × HttpConn)
  | [] => none
  | .bytes bs :: rs =>
    if bs ≠ [] ∧ c.readIndex + bs.length ≤ readBuffSize then
      { c with toParser := c.receive bs }.readLoop rs
    else
      none
  | .again :: _ => some (true, c)
  | .error :: _ => some (false, c)
  | .closed :: _ => some (false, c)

/-- `http_conn::read`. -/
def read (c : HttpConn) (rs : List Recv) : Option (Bool × HttpConn) :=
  if readBuffSize ≤ c.readIndex then some (false, c) else c.readLoop rs

/-- `http_conn::do_request`, from its call of `stat` on. -/
def doRequest (c : HttpConn) : Answer → HttpCode × HttpConn
  | .missing => (.noResource, c)
  | .unreadable size => (.forbiddenRequest, { c with fileSize := size })
  | .directory size => (.badRequest, { c with fileSize := size })
  | .file size content => (.fileRequest, { c with fileSize := size, fileAddress := some content })

/-- `http_conn::process` from the result of `process_read` on. -/
def respond (c : HttpConn) (ret : HttpCode) : Except Fault (ProcessEnd × HttpConn) :=
  if ret = .noRequest then
    .ok (.rearm .epollIn, c)
  else do
    let (ok, c) ← c.processWrite ret
    .ok (if ok then .rearm .epollOut else .close, c)

/-! ### The descriptor stays -/

theorem readLoop_sockfd {c c' : HttpConn} {rs : List Recv} {ok : Bool}
    (h : c.readLoop rs = some (ok, c')) :
  c'.sockfd = c.sockfd
  := by
  induction rs generalizing c with
  | nil => cases h
  | cons r rs ih =>
      cases r with
      | bytes bs =>
          rw [readLoop] at h
          split at h
          · have hsock := ih h
            exact hsock
          · cases h
      | again =>
          cases h
          rfl
      | error =>
          cases h
          rfl
      | closed =>
          cases h
          rfl

theorem read_sockfd {c c' : HttpConn} {rs : List Recv} {ok : Bool}
    (h : c.read rs = some (ok, c')) :
  c'.sockfd = c.sockfd
  := by
  rw [read] at h
  split at h
  · cases h
    rfl
  · apply readLoop_sockfd h

/-- What the functions of a round of the loop of `write` keep, the round keeps. -/
theorem writeRound_keeps {α : Type*} {f : HttpConn → α} (hcount : ∀ c k, f (count c k) = f c)
    (hadjust : ∀ c, f (adjust c) = f c) (hunmap : ∀ c, f (unmap c) = f c)
    (hinit : ∀ c, f (init c) = f c) (c : HttpConn) (o : Outcome) :
  f (c.writeRound o).1 = f c
  := by
  cases o with
  | again => rfl
  | error => exact hunmap c
  | accepted temp =>
      have hround : f (c.count temp).adjust = f c := (hadjust _).trans (hcount _ _)
      rw [writeRound]
      dsimp only
      split
      · split
        · rw [hinit, hunmap, hround]
        · rw [hunmap, hround]
      · exact hround

theorem unmap_sockfd (c : HttpConn) :
  c.unmap.sockfd = c.sockfd
  := by
  rw [unmap]
  split
  · rfl
  · rfl

theorem adjust_sockfd (c : HttpConn) :
  c.adjust.sockfd = c.sockfd
  := by
  rw [adjust]
  split
  · rfl
  · rfl

theorem unmap_fileSize (c : HttpConn) :
  c.unmap.fileSize = c.fileSize
  := by
  rw [unmap]
  split
  · rfl
  · rfl

theorem adjust_fileSize (c : HttpConn) :
  c.adjust.fileSize = c.fileSize
  := by
  rw [adjust]
  split
  · rfl
  · rfl

theorem writeRound_fileSize (c : HttpConn) (o : Outcome) :
  (c.writeRound o).1.fileSize = c.fileSize
  := writeRound_keeps (fun _ _ => rfl) adjust_fileSize unmap_fileSize (fun _ => rfl) c o

theorem unmap_toParser (c : HttpConn) :
  c.unmap.toParser = c.toParser
  := by
  rw [unmap]
  split
  · rfl
  · rfl

theorem adjust_toParser (c : HttpConn) :
  c.adjust.toParser = c.toParser
  := by
  rw [adjust]
  split
  · rfl
  · rfl

/-- How a call of `write` goes on when `writev` takes `k` bytes. -/
theorem writeRound_accepted (c : HttpConn) (k : ℕ) :
  (c.writeRound (.accepted k)).2 =
    if c.bytesToSend ≤ k then (if c.linger then some .kept else some .closing) else none
  := by
  have hsend : (c.count k).adjust.bytesToSend = c.bytesToSend - k :=
    (adjust_frame (c.count k)).2.2.2
  have hlinger : (c.count k).adjust.unmap.linger = c.linger := by
    rw [unmap_toParser, adjust_toParser]
    rfl
  rw [writeRound]
  dsimp only
  rw [hsend, hlinger]
  by_cases hall : c.bytesToSend ≤ k
  · rw [if_pos (by omega), if_pos hall]
    split
    · rfl
    · rfl
  · rw [if_neg (by omega), if_neg hall]

/-- A round of the loop that does not end the call: some bytes are taken, and some are
left. -/
theorem writeRound_eq_none {c d : HttpConn} {o : Outcome} (h : c.writeRound o = (d, none)) :
  ∃ k, o = .accepted k ∧ k < c.bytesToSend ∧ d = (c.count k).adjust
  := by
  cases o with
  | again => cases h
  | error => cases h
  | accepted k =>
      rw [writeRound] at h
      dsimp only at h
      split at h
      next =>
        split at h
        · cases h
        · cases h
      next hmore =>
        have hsend := (adjust_frame (c.count k)).2.2.2
        rw [hsend] at hmore
        change ¬ c.bytesToSend - k ≤ 0 at hmore
        cases h
        refine ⟨k, rfl, by omega, rfl⟩

theorem writeRound_of_lt {c : HttpConn} {k : ℕ} (h : k < c.bytesToSend) :
  c.writeRound (.accepted k) = ((c.count k).adjust, none)
  := by
  have hsend := (adjust_frame (c.count k)).2.2.2
  rw [writeRound]
  dsimp only
  rw [hsend, if_neg]
  change ¬ c.bytesToSend - k ≤ 0
  omega

theorem writeRound_sockfd (c : HttpConn) (o : Outcome) :
  (c.writeRound o).1.sockfd = c.sockfd
  := writeRound_keeps (fun _ _ => rfl) adjust_sockfd unmap_sockfd (fun _ => rfl) c o

theorem writeLoop_sockfd (c : HttpConn) (os : List Outcome) :
  (c.writeLoop os).1.sockfd = c.sockfd
  := by
  induction os generalizing c with
  | nil => rfl
  | cons o os ih =>
      have hround := c.writeRound_sockfd o
      rw [writeLoop]
      split
      next c' h =>
        rw [h] at hround
        exact (ih c').trans hround
      next c' e h =>
        rw [h] at hround
        exact hround

theorem write_sockfd (c : HttpConn) (os : List Outcome) :
  (c.write os).1.sockfd = c.sockfd
  := by
  rw [write]
  split
  · rfl
  · apply c.writeLoop_sockfd os

theorem processWrite_sockfd {c c' : HttpConn} {ret : HttpCode} {ok : Bool}
    (h : c.processWrite ret = .ok (ok, c')) :
  c'.sockfd = c.sockfd
  := by
  cases processWrite_replied h with
  | failed hfilled _ => exact hfilled.sockfd
  | text hfilled hc' _ _ =>
      subst hc'
      exact hfilled.sockfd
  | file hfilled hc' _ _ =>
      subst hc'
      exact hfilled.sockfd

/-- `process` waits for more of the request, or prepares a response, or closes. -/
theorem respond_cases {c c' : HttpConn} {ret : HttpCode} {e : ProcessEnd}
    (h : c.respond ret = .ok (e, c')) :
  (ret = .noRequest ∧ e = .rearm .epollIn ∧ c' = c) ∨
    ∃ ok, c.processWrite ret = .ok (ok, c') ∧ e = if ok then .rearm .epollOut else .close
  := by
  rw [respond] at h
  split at h
  next hret =>
    cases h
    exact .inl ⟨hret, rfl, rfl⟩
  next =>
    obtain ⟨⟨ok, d⟩, hd, h⟩ := bind_eq_ok.mp h
    cases h
    exact .inr ⟨ok, hd, rfl⟩

theorem respond_sockfd {c c' : HttpConn} {ret : HttpCode} {e : ProcessEnd}
    (h : c.respond ret = .ok (e, c')) :
  c'.sockfd = c.sockfd
  := by
  rcases respond_cases h with ⟨-, -, rfl⟩ | ⟨ok, hwrite, -⟩
  · rfl
  · apply processWrite_sockfd hwrite

theorem doRequest_sockfd (c : HttpConn) (answer : Answer) :
  (c.doRequest answer).2.sockfd = c.sockfd
  := by
  cases answer with
  | missing => rfl
  | unreadable size => rfl
  | directory size => rfl
  | file size content => rfl

end HttpConn

end WebServer
