import WebServer.Http.Session
import WebServer.Http.Replies

/-!
# The exchange on a connection

A client receives the bytes that `writev` takes.  As long as no second short write ends
inside the header of a response with a file, they are the responses to its requests one
behind the other, of which the last may be there in part (`Session.exchange`).  So who
reads them as `replies` reads at any time the responses to the first requests, each whole
and in order, and all of them when the server reads again (`Session.received_replies`).
-/

open CString Fallible

namespace WebServer

/-- The bytes that `writev` takes of those that it is offered. -/
def Outcome.takes (offer : List UInt8) : Outcome → List UInt8
  | .accepted k => offer.take k
  | .again | .error => []

/-- The bytes that the calls of `writev` of a call of `write` take. -/
def delivered (os : List Outcome) (offers : List (List UInt8)) : List UInt8 :=
  (List.zipWith (fun o offer => o.takes offer) os offers).flatten

namespace HttpConn

/-- The outcomes are possible, and no second short write ends inside the header. -/
def Clean (c : HttpConn) : List Outcome → Prop
  | [] => True
  | o :: os =>
    Sending.possible c.offered.length o = true ∧ ¬ Sending.CutsAgain ⟨c, [], none⟩ o ∧
      ((c.writeRound o).2 = none → (c.writeRound o).1.Clean os)

instance Clean.decidable (c : HttpConn) : (os : List Outcome) → Decidable (c.Clean os)
  | [] => inferInstanceAs (Decidable True)
  | o :: os =>
    have := Clean.decidable (c.writeRound o).1 os
    inferInstanceAs (Decidable (_ = true ∧ _ ∧ (_ → _)))

/-- Of the response `m` the first `bytes_have_send` bytes are sent, and the rest is offered
next. -/
def Pending (m : Framing.Message UInt8) (d : HttpConn) : Prop :=
  ∃ c, Rest c d ∧ d.byteAt = c.byteAt ∧ c.response = replies.encode m

theorem Prepares.pending {m : Framing.Message UInt8} {c : HttpConn} (h : Prepares m c) :
  Pending m c
  := ⟨c, h.rest, rfl, h.response⟩

/-- What is taken comes next in the response. -/
theorem Pending.takes {m : Framing.Message UInt8} {d : HttpConn} (h : Pending m d) {k : ℕ}
    (hk : k ≤ d.offered.length) :
  (replies.encode m).take d.bytesHaveSend ++ (d.offered.map d.byteAt).take k =
    (replies.encode m).take (d.bytesHaveSend + k)
  := by
  obtain ⟨c, hrest, hbytes, hresponse⟩ := h
  have hsent := congrArg (List.map c.byteAt) (Sending.Progress.sent hrest hk)
  rw [List.map_append, List.map_take, List.map_take, List.map_take, ← response_eq] at hsent
  rw [← hresponse, hbytes]
  exact hsent

theorem count_byteAt (c : HttpConn) (k : ℕ) :
  (c.count k).byteAt = c.byteAt
  := by
  funext a
  cases a with
  | writeBuff offset => rfl
  | file offset => rfl

theorem adjust_byteAt (c : HttpConn) :
  c.adjust.byteAt = c.byteAt
  := by
  funext a
  rw [adjust]
  cases a with
  | writeBuff offset =>
      split
      · rfl
      · rfl
  | file offset =>
      split
      · rfl
      · rfl

/-- More of the response is to be sent. -/
theorem Pending.more {m : Framing.Message UInt8} {d : HttpConn} (h : Pending m d) {k : ℕ}
    (hk : 1 ≤ k) (hle : k ≤ d.offered.length)
    (hcut : ¬ Sending.CutsAgain ⟨d, [], none⟩ (.accepted k)) (hmore : k < d.bytesToSend) :
  Pending m (d.count k).adjust
  := by
  obtain ⟨c, hrest, hbytes, hresponse⟩ := h
  refine ⟨c, hrest.adjust hk hle hcut ?_, ?_, hresponse⟩
  · change 0 < d.bytesToSend - k
    omega
  · rw [adjust_byteAt, count_byteAt, hbytes]

/-- What a call of `write` has sent of the response `m`, the bytes `w` behind the first
`sent` ones, and how it leaves the object. -/
inductive Written (m : Framing.Message UInt8) (sent : ℕ) (w : List UInt8) :
    WriteEnd → HttpConn → Prop where
  | again {d : HttpConn} (hpending : Pending m d)
      (hsent : (replies.encode m).take sent ++ w = (replies.encode m).take d.bytesHaveSend) :
      Written m sent w .again d
  | failed {d : HttpConn} (hsent : (replies.encode m).take sent ++ w <+: replies.encode m) :
      Written m sent w .failed d
  | kept {d : HttpConn} (hfresh : Fresh d)
      (hsent : (replies.encode m).take sent ++ w = replies.encode m) : Written m sent w .kept d
  | closing {d : HttpConn} (hsent : (replies.encode m).take sent ++ w = replies.encode m) :
      Written m sent w .closing d

theorem Written.cons {m : Framing.Message UInt8} {sent sent' : ℕ} {v w : List UInt8} {e : WriteEnd}
    {d : HttpConn} (h : Written m sent' w e d)
    (hv : (replies.encode m).take sent ++ v = (replies.encode m).take sent') :
  Written m sent (v ++ w) e d
  := by
  have happend : (replies.encode m).take sent ++ (v ++ w) = (replies.encode m).take sent' ++ w := by
    rw [← List.append_assoc, hv]
  cases h with
  | again hpending hsent => exact .again hpending (happend.trans hsent)
  | failed hsent => exact .failed (happend ▸ hsent)
  | kept hfresh hsent => exact .kept hfresh (happend.trans hsent)
  | closing hsent => exact .closing (happend.trans hsent)

/-- The rest of the response is taken. -/
theorem Pending.done {m : Framing.Message UInt8} {d d' : HttpConn} {e : WriteEnd} (h : Pending m d)
    {k : ℕ} (hle : k ≤ d.offered.length) (hdone : d.bytesToSend ≤ k)
    (hround : d.writeRound (.accepted k) = (d', some e)) :
  Written m d.bytesHaveSend ((d.offered.map d.byteAt).take k) e d'
  := by
  have hsent := h.takes hle
  obtain ⟨c, hrest, hbytes, hresponse⟩ := h
  have hto := hrest.bytesToSend
  have hlength := congrArg List.length hresponse
  rw [← length_addresses] at hlength
  rw [List.take_of_length_le (i := d.bytesHaveSend + k) (by omega)] at hsent
  have hsend := (adjust_frame (d.count k)).2.2.2
  rw [writeRound] at hround
  dsimp only at hround
  rw [hsend, if_pos (show (d.count k).bytesToSend ≤ 0 by change d.bytesToSend - k ≤ 0; omega)]
    at hround
  split at hround
  · cases hround
    exact .kept (init_fresh _) hsent
  · cases hround
    exact .closing hsent

theorem Pending.bytesToSend_pos {m : Framing.Message UInt8} {d : HttpConn} (h : Pending m d) :
  0 < d.bytesToSend
  := by
  obtain ⟨c, hrest, -⟩ := h
  have hto := hrest.bytesToSend
  have hpending := hrest.pending
  omega

/-- One call of `writev`. -/
theorem delivered_singleton (o : Outcome) (os : List Outcome) (offer : List UInt8) :
  delivered (o :: os) [offer] = o.takes offer
  := by
  rw [delivered, List.zipWith_cons_cons, List.zipWith_nil_right, List.flatten_singleton]

theorem offers_of_some {c c' : HttpConn} {o : Outcome} {e : WriteEnd} (os : List Outcome)
    (h : c.writeRound o = (c', some e)) :
  c.offers (o :: os) = [c.offered.map c.byteAt]
  := by
  rw [offers, h]

/-- The loop of `write` sends what comes next in the response. -/
theorem Pending.writeLoop {m : Framing.Message UInt8} {d d' : HttpConn} {os : List Outcome}
    {e : WriteEnd} (h : Pending m d) (hclean : d.Clean os)
    (hwrite : d.writeLoop os = (d', some e)) :
  Written m d.bytesHaveSend (delivered os (d.offers os)) e d'
  := by
  induction os generalizing d with
  | nil => cases hwrite
  | cons o os ih =>
      obtain ⟨hpossible, hcut, hclean⟩ := hclean
      cases o with
      | again =>
          cases hwrite
          rw [offers_of_some os rfl, delivered_singleton]
          exact .again h (List.append_nil _)
      | error =>
          cases hwrite
          rw [offers_of_some os rfl, delivered_singleton]
          apply Written.failed
          rw [Outcome.takes, List.append_nil]
          apply List.take_prefix
      | accepted k =>
          have hk : 1 ≤ k ∧ k ≤ d.offered.length := by
            simpa [Sending.possible] using hpossible
          by_cases hmore : k < d.bytesToSend
          · have hround := writeRound_of_lt hmore
            rw [hround] at hclean
            rw [HttpConn.writeLoop, hround] at hwrite
            rw [offers, hround]
            apply (ih (h.more hk.1 hk.2 hcut hmore) (hclean rfl) hwrite).cons
            rw [(adjust_frame (d.count k)).2.2.1]
            apply h.takes hk.2
          · rcases hround : d.writeRound (.accepted k) with ⟨c', e'⟩
            have hend := writeRound_accepted d k
            rw [hround, if_pos (not_lt.mp hmore)] at hend
            cases e' with
            | none =>
                split at hend
                · cases hend
                · cases hend
            | some e' =>
                rw [HttpConn.writeLoop, hround] at hwrite
                cases hwrite
                rw [offers_of_some os hround, delivered_singleton]
                apply h.done hk.2 (not_lt.mp hmore) hround

/-- A call of `write` sends what comes next in the response. -/
theorem Pending.write {m : Framing.Message UInt8} {d d' : HttpConn} {os : List Outcome}
    {e : WriteEnd} (h : Pending m d) (hclean : d.Clean os) (hwrite : d.write os = (d', some e)) :
  Written m d.bytesHaveSend (delivered os (d.wrote os)) e d'
  := by
  have hbusy := h.bytesToSend_pos.ne'
  rw [HttpConn.write, if_neg hbusy] at hwrite
  rw [HttpConn.wrote, if_neg hbusy]
  apply h.writeLoop hclean hwrite

/-- `read` leaves what is to be sent. -/
theorem readLoop_fresh {c d : HttpConn} {rs : List Recv} {ok : Bool} (hc : Fresh c)
    (h : c.readLoop rs = some (ok, d)) :
  Fresh d
  := by
  induction rs generalizing c with
  | nil => cases h
  | cons r rs ih =>
      cases r with
      | bytes bs =>
          rw [readLoop] at h
          split at h
          · refine ih ?_ h
            exact ⟨hc.writeIndex, hc.bytesHaveSend, hc.bytesToSend⟩
          · cases h
      | again | error | closed =>
          cases h
          exact hc

theorem read_fresh {c d : HttpConn} {rs : List Recv} {ok : Bool} (hc : Fresh c)
    (h : c.read rs = some (ok, d)) :
  Fresh d
  := by
  rw [read] at h
  split at h
  · cases h
    exact hc
  · apply readLoop_fresh hc h

end HttpConn

/-! ### A run of a session -/

/-- The bytes that are sent when something happens. -/
def sentIn : SessionEvent × Seen → List UInt8
  | (.write os, .wrote offers _) => delivered os offers
  | _ => []

/-- The bytes that are sent along a trace of a session. -/
def sentBytes (l : List (SessionEvent × Seen)) : List UInt8 := l.flatMap sentIn

/-- The number of the bytes of a response with the file fits into an `int`. -/
def Answer.Sized : Answer → Prop
  | .file size _ => size < 2 ^ 31 - writeBuffSize
  | .missing | .unreadable _ | .directory _ => True

/-- A file fits when its answer does. -/
theorem Answer.Sized.size {answer : Answer} (h : answer.Sized) (size : ℕ) (content : ℤ → UInt8)
    (hanswer : answer = .file size content) :
  size < 2 ^ 31 - writeBuffSize
  := by
  subst hanswer
  exact h

instance : ∀ answer : Answer, Decidable answer.Sized
  | .file _ _ => inferInstanceAs (Decidable (_ < _))
  | .missing | .unreadable _ | .directory _ => .isTrue trivial

namespace Session

/-- The response that `process` prepares, if this is what happens. -/
def reply (s : Session) : SessionEvent → List (Framing.Message UInt8)
  | .process found => (s.conn.reply found.answer).toList
  | .accept | .read _ | .write _ | .close => []

/-- The next state. -/
def next (s : Session) (e : SessionEvent) : Option Session := (s.step e).map Prod.snd

/-- The responses to the requests of a run. -/
def answered (s : Session) (es : List SessionEvent) : List (Framing.Message UInt8) :=
  Run.output next (fun s e _ => s.reply e) s es

/-- The size of a file fits, and no second short write ends inside the header of a response
with one. -/
def Sound (s : Session) : SessionEvent → Prop
  | .process found => found.answer.Sized
  | .write os => s.conn.bytesToSend ≠ 0 → s.conn.Clean os
  | .accept | .read _ | .close => True

/-- The bytes `w` were sent for the responses `ms`, and what is left of them is still to be
sent. -/
inductive Exchanged (s : Session) (ms : List (Framing.Message UInt8)) (w : List UInt8) : Prop where
  | unborn (hphase : s.phase = .unborn) (hms : ms = []) (hw : w = [])
  | waiting (hphase : s.phase = .reading ∨ s.phase = .queued) (hfresh : s.conn.Fresh)
      (hw : w = ms.flatMap HttpConn.replies.encode)
  | sending {ms' : List (Framing.Message UInt8)} {m : Framing.Message UInt8}
      (hphase : s.phase = .sending) (hpending : s.conn.Pending m) (hms : ms = ms' ++ [m])
      (hw : w = ms'.flatMap HttpConn.replies.encode ++
        (HttpConn.replies.encode m).take s.conn.bytesHaveSend)
  | ending (hphase : s.phase = .ending) (hw : w <+: ms.flatMap HttpConn.replies.encode)

/-- What happens to a connection, and what is seen of it. -/
inductive Steps (s : Session) : SessionEvent → Seen → Session → Prop where
  | accept (hphase : s.phase = .unborn) :
      Steps s .accept .accepted { conn := s.conn.init, phase := .reading, opened := true }
  | read {rs : List Recv} {ok : Bool} {c : HttpConn} (hphase : s.phase = .reading)
      (hread : s.conn.read rs = some (ok, c)) :
      Steps s (.read rs) (.read ok) { s with conn := c, phase := if ok then .queued else .ending }
  | process {found : Found} {e : ProcessEnd} {c : HttpConn} (hphase : s.phase = .queued)
      (hprocess : s.conn.process found = .ok (e, c)) :
      Steps s (.process found) (.processed e) { s with conn := c, phase := e.phase }
  | write {os : List Outcome} {e : WriteEnd} {c : HttpConn}
      (hphase : s.phase = .sending ∨ s.phase = .reading) (hwrite : s.conn.write os = (c, some e)) :
      Steps s (.write os) (.wrote (s.conn.wrote os) e) { s with conn := c, phase := e.phase }
  | close : Steps s .close .closed { s with opened := false }

/-- What happens to a connection is one of these. -/
theorem steps_of_step {s s' : Session} {e : SessionEvent} {r : Seen}
    (h : s.step e = some (r, s')) :
  Steps s e r s'
  := by
  cases e with
  | accept =>
      rw [step] at h
      split at h
      next hphase =>
        cases h
        exact .accept hphase
      next => cases h
  | read rs =>
      rw [step] at h
      split at h
      next hphase =>
        obtain ⟨⟨ok, c⟩, hread, h⟩ := Option.map_eq_some_iff.mp h
        cases h
        exact .read hphase.2 hread
      next => cases h
  | process found =>
      rw [step] at h
      split at h
      next hphase =>
        obtain ⟨⟨e, c⟩, hprocess, h⟩ := Option.map_eq_some_iff.mp h
        cases h
        exact .process hphase (toOption_eq_some.mp hprocess)
      next => cases h
  | write os =>
      rw [step] at h
      split at h
      next hphase =>
        obtain ⟨e, hwrite, h⟩ := Option.map_eq_some_iff.mp h
        cases h
        exact .write hphase.2 (Prod.ext rfl hwrite)
      next => cases h
  | close =>
      rw [step] at h
      split at h
      next =>
        cases h
        exact .close
      next => cases h

section Exchanged

variable {s s' : Session} {ms : List (Framing.Message UInt8)} {w : List UInt8}

/-- All responses are sent when the client sends. -/
theorem Exchanged.of_waiting (h : s.Exchanged ms w)
    (hphase : s.phase = .reading ∨ s.phase = .queued) :
  s.conn.Fresh ∧ w = ms.flatMap HttpConn.replies.encode
  := by
  cases h with
  | unborn hphase' _ _ =>
      rw [hphase'] at hphase
      rcases hphase with hphase | hphase
      · cases hphase
      · cases hphase
  | waiting _ hfresh hw => exact ⟨hfresh, hw⟩
  | sending hphase' _ _ _ =>
      rw [hphase'] at hphase
      rcases hphase with hphase | hphase
      · cases hphase
      · cases hphase
  | ending hphase' _ =>
      rw [hphase'] at hphase
      rcases hphase with hphase | hphase
      · cases hphase
      · cases hphase

/-- All responses but the last are sent when one is sent. -/
theorem Exchanged.of_sending (h : s.Exchanged ms w) (hphase : s.phase = .sending) :
  ∃ ms' m, s.conn.Pending m ∧ ms = ms' ++ [m] ∧ w = ms'.flatMap HttpConn.replies.encode ++
    (HttpConn.replies.encode m).take s.conn.bytesHaveSend
  := by
  cases h with
  | unborn hphase' _ _ => cases hphase'.symm.trans hphase
  | waiting hphase' _ _ =>
      rw [hphase] at hphase'
      rcases hphase' with hphase' | hphase'
      · cases hphase'
      · cases hphase'
  | sending _ hpending hms hw => exact ⟨_, _, hpending, hms, hw⟩
  | ending hphase' _ => cases hphase'.symm.trans hphase

/-- There are no responses before the connection is accepted. -/
theorem Exchanged.of_unborn (h : s.Exchanged ms w) (hphase : s.phase = .unborn) :
  ms = [] ∧ w = []
  := by
  cases h with
  | unborn _ hms hw => exact ⟨hms, hw⟩
  | waiting hphase' _ _ =>
      rw [hphase] at hphase'
      rcases hphase' with hphase' | hphase'
      · cases hphase'
      · cases hphase'
  | sending hphase' _ _ _ => cases hphase'.symm.trans hphase
  | ending hphase' _ => cases hphase'.symm.trans hphase

/-- Whether the descriptor is open plays no part. -/
theorem Exchanged.close (h : s.Exchanged ms w) :
  Exchanged { s with opened := false } ms w
  := by
  cases h with
  | unborn hphase hms hw => exact .unborn hphase hms hw
  | waiting hphase hfresh hw => exact .waiting hphase hfresh hw
  | sending hphase hpending hms hw => exact .sending hphase hpending hms hw
  | ending hphase hw => exact .ending hphase hw

/-- `read` sends nothing. -/
theorem Exchanged.read (h : s.Exchanged ms w) {rs : List Recv} {ok : Bool} {c : HttpConn}
    (hphase : s.phase = .reading) (hread : s.conn.read rs = some (ok, c)) :
  Exchanged { s with conn := c, phase := if ok then .queued else .ending } ms w
  := by
  obtain ⟨hfresh, hw⟩ := h.of_waiting (.inl hphase)
  cases ok with
  | false =>
      apply Exchanged.ending rfl
      rw [hw]
  | true => exact .waiting (.inr rfl) (HttpConn.read_fresh hfresh hread) hw

/-- `process` prepares the response that is sent next. -/
theorem Exchanged.process (h : s.Exchanged ms w) {found : Found} (hsized : found.answer.Sized)
    {e : ProcessEnd} {c : HttpConn} (hphase : s.phase = .queued)
    (hprocess : s.conn.process found = .ok (e, c)) :
  Exchanged { s with conn := c, phase := e.phase } (ms ++ (s.conn.reply found.answer).toList) w
  := by
  obtain ⟨hfresh, hw⟩ := h.of_waiting (.inr hphase)
  cases HttpConn.process_replies hfresh hsized.size hprocess with
  | waits hnone hfresh' =>
      rw [hnone]
      exact .waiting (.inl rfl) hfresh' (by rw [hw, Option.toList_none, List.append_nil])
  | closes hnone =>
      rw [hnone]
      exact .ending rfl (by rw [hw, Option.toList_none, List.append_nil])
  | @prepares m d hsome hprepares =>
      rw [hsome]
      refine .sending rfl hprepares.pending rfl ?_
      rw [hw, hprepares.bytesHaveSend, List.take_zero, List.append_nil]

/-- `write` sends what comes next. -/
theorem Exchanged.write (h : s.Exchanged ms w) {os : List Outcome}
    (hclean : s.conn.bytesToSend ≠ 0 → s.conn.Clean os)
    {e : WriteEnd} {c : HttpConn} (hphase : s.phase = .sending)
    (hwrite : s.conn.write os = (c, some e)) :
  Exchanged { s with conn := c, phase := e.phase } ms (w ++ delivered os (s.conn.wrote os))
  := by
  obtain ⟨ms', m, hpending, rfl, rfl⟩ := h.of_sending hphase
  have hall : (ms' ++ [m]).flatMap HttpConn.replies.encode =
      ms'.flatMap HttpConn.replies.encode ++ HttpConn.replies.encode m := by
    rw [List.flatMap_append, List.flatMap_singleton]
  rw [List.append_assoc]
  cases hpending.write (hclean hpending.bytesToSend_pos.ne') hwrite with
  | again hpending' hsent =>
      rw [hsent]
      exact .sending rfl hpending' rfl rfl
  | failed hsent =>
      apply Exchanged.ending rfl
      rw [hall]
      exact (List.prefix_append_right_inj _).mpr hsent
  | kept hfresh hsent =>
      refine .waiting (.inl rfl) hfresh ?_
      rw [hall, hsent]
  | closing hsent =>
      apply Exchanged.ending rfl
      rw [hall, hsent]

/-- `write` sends nothing when the client sends, and clears the object. -/
theorem Exchanged.idle (h : s.Exchanged ms w) {os : List Outcome} {e : WriteEnd} {c : HttpConn}
    (hphase : s.phase = .reading) (hwrite : s.conn.write os = (c, some e)) :
  Exchanged { s with conn := c, phase := e.phase } ms (w ++ delivered os (s.conn.wrote os))
  := by
  obtain ⟨hfresh, rfl⟩ := h.of_waiting (.inl hphase)
  have hwrote : s.conn.wrote os = [] := if_pos hfresh.bytesToSend
  rw [HttpConn.write, if_pos hfresh.bytesToSend] at hwrite
  cases hwrite
  refine .waiting (.inl rfl) (HttpConn.init_fresh _) ?_
  rw [hwrote, show delivered os [] = [] by rw [delivered, List.zipWith_nil_right]; rfl,
    List.append_nil]

end Exchanged

/-- Whose turn it is says how far the responses are sent. -/
theorem Exchanged.step {s s' : Session} {e : SessionEvent} {r : Seen}
    {ms : List (Framing.Message UInt8)} {w : List UInt8} (h : s.Exchanged ms w) (hsound : s.Sound e)
    (hs' : s.step e = some (r, s')) :
  s'.Exchanged (ms ++ s.reply e) (w ++ sentIn (e, r))
  := by
  cases steps_of_step hs' with
  | accept hphase =>
      obtain ⟨rfl, rfl⟩ := h.of_unborn hphase
      exact .waiting (.inl rfl) (HttpConn.init_fresh _) rfl
  | read hphase hread =>
      rw [show s.reply _ = [] from rfl, List.append_nil, show sentIn _ = [] from rfl,
        List.append_nil]
      exact h.read hphase hread
  | process hphase hprocess =>
      rw [show sentIn _ = [] from rfl, List.append_nil]
      exact h.process hsound hphase hprocess
  | write hphase hwrite =>
      rw [show s.reply _ = [] from rfl, List.append_nil]
      rcases hphase with hphase | hphase
      · exact h.write hsound hphase hwrite
      · exact h.idle hphase hwrite
  | close =>
      rw [show s.reply _ = [] from rfl, List.append_nil, show sentIn _ = [] from rfl,
        List.append_nil]
      exact h.close

/-- Whose turn it is behind a trace says how far the responses are sent. -/
theorem Exchanged.traces {s s' : Session} {l : List (SessionEvent × Seen)}
    {ms : List (Framing.Message UInt8)} {w : List UInt8} (h : s.Exchanged ms w)
    (hsound : Run.Along next Sound s (l.map Prod.fst)) (hl : Run.Traces Session.step s l s') :
  s'.Exchanged (ms ++ s.answered (l.map Prod.fst)) (w ++ sentBytes l)
  := by
  induction l generalizing s ms w with
  | nil =>
      cases hl
      rw [List.map_nil, answered, Run.output, List.append_nil, sentBytes, List.flatMap_nil,
        List.append_nil]
      exact h
  | cons x l ih =>
      obtain ⟨s₁, hs₁, hl⟩ := hl
      have hnext : s.next x.1 = some s₁ := by
        rw [next, hs₁]
        rfl
      have hrest := ih (h.step hsound.1 hs₁) (hsound.2 s₁ hnext) hl
      have hanswered : s.answered (x.1 :: l.map Prod.fst) =
          s.reply x.1 ++ s₁.answered (l.map Prod.fst) := by
        rw [answered, Run.output, hnext]
        rfl
      rw [List.append_assoc, List.append_assoc] at hrest
      rw [List.map_cons, hanswered, sentBytes, List.flatMap_cons]
      exact hrest

/-- Along a run, whose turn it is says how far the responses are sent. -/
theorem exchange {l : List (SessionEvent × Seen)} {s : Session}
    (hsound : Run.Along next Sound unborn (l.map Prod.fst)) (h : Run.Traces step unborn l s) :
  s.Exchanged (unborn.answered (l.map Prod.fst)) (sentBytes l)
  := (Exchanged.unborn rfl rfl rfl).traces hsound h

/-- The responses to the requests of a run are words. -/
theorem answered_valid (s : Session) (es : List SessionEvent) :
  ∀ m ∈ s.answered es, HttpConn.replies.Valid m
  := by
  induction es generalizing s with
  | nil =>
      intro m hm
      cases hm
  | cons e es ih =>
      intro m hm
      rw [answered, Run.output] at hm
      cases hnext : s.next e with
      | none =>
          rw [hnext] at hm
          cases hm
      | some s₁ =>
          rw [hnext] at hm
          rcases List.mem_append.mp hm with hm | hm
          · cases e with
            | process found => exact HttpConn.reply_valid (Option.mem_toList.mp hm)
            | accept | read _ | write _ | close => cases hm
          · exact ih s₁ m hm

/-- What was sent is an initial part of the responses, and all of them when the server
reads. -/
theorem Exchanged.initial {s : Session} {ms : List (Framing.Message UInt8)} {w : List UInt8}
    (h : s.Exchanged ms w) :
  w <+: ms.flatMap HttpConn.replies.encode
  := by
  cases h with
  | unborn _ hms hw =>
      rw [hw]
      apply List.nil_prefix
  | waiting _ _ hw => rw [hw]
  | sending _ _ hms hw =>
      rw [hw, hms, List.flatMap_append, List.flatMap_singleton]
      apply (List.prefix_append_right_inj _).mpr (List.take_prefix _ _)
  | ending _ hw => exact hw

/-- Who reads what was sent reads the first responses, each whole and in order. -/
theorem Exchanged.received {s : Session} {ms : List (Framing.Message UInt8)} {w : List UInt8}
    (h : s.Exchanged ms w) (hms : ∀ m ∈ ms, HttpConn.replies.Valid m) :
  HttpConn.replies.Received ms w (HttpConn.replies.decodeAll w).1
    (HttpConn.replies.decodeAll w).2
  := HttpConn.replies.decodeAll_received hms h.initial

/-- Who reads what was sent reads all responses when it is the client's turn. -/
theorem Exchanged.decodeAll {s : Session} {ms : List (Framing.Message UInt8)} {w : List UInt8}
    (h : s.Exchanged ms w) (hms : ∀ m ∈ ms, HttpConn.replies.Valid m)
    (hphase : s.phase = .reading ∨ s.phase = .queued) :
  HttpConn.replies.decodeAll w = (ms, [])
  := by
  rw [(h.of_waiting hphase).2]
  apply HttpConn.replies.decodeAll_flatMap hms

/-- Along a run of a session, who reads what was sent as responses reads those to the
first requests, each whole and in order, and has less than the next one left.  When the
server reads again, or has a request to process, these are the responses to all requests,
and nothing is left. -/
theorem received_replies {l : List (SessionEvent × Seen)} {s : Session}
    (hsound : Run.Along next Sound unborn (l.map Prod.fst)) (h : Run.Traces step unborn l s) :
  HttpConn.replies.Received (unborn.answered (l.map Prod.fst)) (sentBytes l)
      (HttpConn.replies.decodeAll (sentBytes l)).1 (HttpConn.replies.decodeAll (sentBytes l)).2 ∧
    (s.phase = .reading ∨ s.phase = .queued →
      HttpConn.replies.decodeAll (sentBytes l) = (unborn.answered (l.map Prod.fst), []))
  := by
  have hexchanged := exchange hsound h
  have hvalid := unborn.answered_valid (l.map Prod.fst)
  exact ⟨hexchanged.received hvalid, hexchanged.decodeAll hvalid⟩

instance (s : Session) : ∀ e, Decidable (s.Sound e)
  | .process found => inferInstanceAs (Decidable found.answer.Sized)
  | .write _ => inferInstanceAs (Decidable (_ → HttpConn.Clean _ _))
  | .accept | .read _ | .close => .isTrue trivial

/-- A client sends two requests on one connection, and the response to the first comes in
two pieces. -/
def twoRequests : List SessionEvent :=
  [.accept, .read [.bytes (ascii "GET /a HTTP/1.1\r\nConnection: keep-alive\r\n\r\n"), .again],
    .process (.plain (.file 3 fun _ => 97)), .write [.accepted 30, .again], .write [.accepted 33],
    .read [.bytes (ascii "GET /b HTTP/1.1\r\n\r\n"), .again], .process (.plain (.directory 0)),
    .write [.accepted 20, .again]]

/-- What is seen of it. -/
def twoReplies : List (SessionEvent × Seen) :=
  (Run.answers step unborn twoRequests).elim [] fun r => twoRequests.zip r.1

set_option maxRecDepth 10000 in
theorem received_replies_twoReplies :
  ∃ s : Session, HttpConn.replies.Received (unborn.answered (twoReplies.map Prod.fst))
      (sentBytes twoReplies) (HttpConn.replies.decodeAll (sentBytes twoReplies)).1
      (HttpConn.replies.decodeAll (sentBytes twoReplies)).2 ∧
    (s.phase = .reading ∨ s.phase = .queued →
      HttpConn.replies.decodeAll (sentBytes twoReplies) =
        (unborn.answered (twoReplies.map Prod.fst), []))
  := by
  obtain ⟨⟨rs, s⟩, hrs⟩ := Option.isSome_iff_exists.mp
    (show (Run.answers step unborn twoRequests).isSome = true by decide +kernel)
  have htraces : Run.Traces step unborn twoReplies s := by
    rw [twoReplies, hrs]
    exact Run.traces_of_answers hrs
  exact ⟨s, received_replies (by decide +kernel) htraces⟩

end Session

end WebServer
