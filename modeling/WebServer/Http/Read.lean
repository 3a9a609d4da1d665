import WebServer.Http.DoRequest
import WebServer.Http.Receive

/-!
# What `read` takes out of the socket

`http_conn::read` against a socket on which bytes arrive in pieces, until there is nothing
for now, an error, or the end of the stream.  A call of `recv` gets a piece, or as much of it
as there is room for; with no room left it asks for nothing and gets 0, which the loop takes
for the end of the stream.

`read` takes the bytes in order whatever the pieces are (`readLoop_outcomes`).  It returns
false with a reason exactly when the bytes do not fill the buffer to its end, or the peer
has closed the connection (`read_keeps_iff`).
-/

open CString

namespace WebServer

/-- What comes behind the last piece: nothing for now, an error other than `EAGAIN`, or the
end of the stream. -/
inductive ArrivalEnd where
  | again
  | error
  | closed
  deriving DecidableEq

/-- What `recv` returns there. -/
def ArrivalEnd.recv : ArrivalEnd → Recv
  | .again => .again
  | .error => .error
  | .closed => .closed

/-- What arrives on a socket during a call of `read`. -/
structure Arrival where
  pieces : List (List UInt8)
  pieces_ne_nil : ∀ bs ∈ pieces, bs ≠ []
  last : ArrivalEnd

namespace Arrival

/-- All bytes that arrive. -/
def bytes (a : Arrival) : List UInt8 := a.pieces.flatten

/-- What the calls of `recv` return, with room for `room` bytes in the buffer. -/
def outcomes (last : ArrivalEnd) : (room : ℕ) → (pieces : List (List UInt8)) → List Recv
  | 0, _ => [.closed]
  | _ + 1, [] => [last.recv]
  | room + 1, bs :: pieces =>
    if bs.length ≤ room + 1 then
      .bytes bs :: outcomes last (room + 1 - bs.length) pieces
    else
      [.bytes (bs.take (room + 1)), .closed]

/-- Why `read` may return false: `recv` reported an error, the peer closed the connection, or
more bytes are pending than fit. -/
def Reason (a : Arrival) (room : ℕ) : Prop :=
  (a.last = .error ∧ a.bytes.length < room) ∨ a.last = .closed ∨ room < a.bytes.length

end Arrival

/-- The bytes in the read buffer up to `m_read_index`. -/
def Parser.contents (c : Parser) : List UInt8 := (List.range c.readIndex).map c.readBuf

/-- The bytes received are behind those that were there. -/
theorem Parser.contents_receive (c : Parser) (bs : List UInt8) :
  (c.receive bs).contents = c.contents ++ bs
  := by
  have hwritten := map_range_writeAt c.readBuf c.readIndex bs []
  rw [List.append_nil] at hwritten
  exact hwritten

namespace HttpConn

/-- The loop of `read` takes the bytes in order, as many as there is room for, and returns
true when they leave room and nothing follows for now. -/
theorem readLoop_outcomes (last : ArrivalEnd) {pieces : List (List UInt8)}
    (hne : ∀ bs ∈ pieces, bs ≠ []) (c : HttpConn) {room : ℕ}
    (hroom : c.readIndex + room = readBuffSize) :
  c.readLoop (Arrival.outcomes last room pieces)
    = some (decide (last = .again ∧ pieces.flatten.length < room),
        { c with toParser := c.receive (pieces.flatten.take room) })
  := by
  induction pieces generalizing c room with
  | nil =>
      rw [List.flatten_nil, List.take_nil, Parser.receive_nil]
      cases room with
      | zero => simp [Arrival.outcomes, readLoop]
      | succ room =>
          cases last with
          | again => simp [Arrival.outcomes, ArrivalEnd.recv, readLoop]
          | error => simp [Arrival.outcomes, ArrivalEnd.recv, readLoop]
          | closed => simp [Arrival.outcomes, ArrivalEnd.recv, readLoop]
  | cons bs pieces ih =>
      rw [List.forall_mem_cons] at hne
      rw [List.flatten_cons]
      cases room with
      | zero =>
          rw [List.take_zero, Parser.receive_nil]
          simp [Arrival.outcomes, readLoop]
      | succ room =>
          rw [Arrival.outcomes]
          split
          next hfits =>
            have hindex : (c.receive bs).readIndex + (room + 1 - bs.length) = readBuffSize := by
              change c.readIndex + bs.length + _ = _
              omega
            have hrest := ih hne.2 { c with toParser := c.receive bs } hindex
            have hlength : pieces.flatten.length < room + 1 - bs.length ↔
                (bs ++ pieces.flatten).length < room + 1 := by
              rw [List.length_append]
              omega
            rw [readLoop, if_pos ⟨hne.1, by omega⟩, hrest, List.take_append,
              List.take_of_length_le hfits, Parser.receive_append]
            simp only [hlength]
          next hcut =>
            have hlen : (bs.take (room + 1)).length = room + 1 := by
              rw [List.length_take, Nat.min_eq_left (by omega)]
            have hpiece : bs.take (room + 1) ≠ [] := by
              intro hnil
              rw [hnil] at hlen
              cases hlen
            have hmore : ¬ (bs ++ pieces.flatten).length < room + 1 := by
              rw [List.length_append]
              omega
            have hflag : decide (last = .again ∧ (bs ++ pieces.flatten).length < room + 1)
                = false := decide_eq_false fun h => hmore h.2
            rw [readLoop, if_pos ⟨hpiece, by omega⟩, hflag,
              List.take_append_of_le_length (by omega)]
            rfl

/-- `read` takes the bytes in order, as many as there is room for, and returns true when they
leave room and nothing follows for now. -/
theorem read_outcomes {c : HttpConn} (hroom : c.readIndex < readBuffSize) (a : Arrival) :
  c.read (Arrival.outcomes a.last (readBuffSize - c.readIndex) a.pieces)
    = some (decide (a.last = .again ∧ a.bytes.length < readBuffSize - c.readIndex),
        { c with toParser := c.receive (a.bytes.take (readBuffSize - c.readIndex)) })
  := by
  rw [read, if_neg (not_le.mpr hroom)]
  apply readLoop_outcomes a.last a.pieces_ne_nil c
  omega

/-- `read` ends, the bytes received are in the buffer behind those that were there, and it
returns false only with a reason. -/
def ReadKeeps (c : HttpConn) (a : Arrival) : Prop :=
  ∃ ok c', c.read (Arrival.outcomes a.last (readBuffSize - c.readIndex) a.pieces)
      = some (ok, c') ∧
    c'.contents = c.contents ++ a.bytes.take (readBuffSize - c.readIndex) ∧
    c'.readIndex ≤ readBuffSize ∧
    (ok = false → a.Reason (readBuffSize - c.readIndex))

/-- `read` keeps every byte and returns false only with a reason, exactly when the bytes do
not fill the buffer to its end or the peer has closed the connection. -/
theorem read_keeps_iff {c : HttpConn} (hroom : c.readIndex < readBuffSize) (a : Arrival) :
  c.ReadKeeps a ↔ a.bytes.length ≠ readBuffSize - c.readIndex ∨ a.last = .closed
  := by
  have hread := read_outcomes hroom a
  constructor
  · rintro ⟨ok, c', h, -, -, hreason⟩
    obtain ⟨rfl, rfl⟩ := Prod.mk.inj (Option.some.inj (hread.symm.trans h))
    rw [or_iff_not_imp_left, not_not]
    intro hfull
    have hflag : decide (a.last = .again ∧ a.bytes.length < readBuffSize - c.readIndex)
        = false := decide_eq_false fun h => h.2.ne hfull
    rcases hreason hflag with ⟨-, hlt⟩ | hclosed | hmore
    · apply absurd hfull hlt.ne
    · exact hclosed
    · apply absurd hfull hmore.ne'
  · intro h
    refine ⟨_, _, hread, Parser.contents_receive _ _, ?_, ?_⟩
    · change c.readIndex + (a.bytes.take (readBuffSize - c.readIndex)).length ≤ readBuffSize
      rw [List.length_take]
      omega
    · intro hflag
      have hnot := of_decide_eq_false hflag
      rcases lt_trichotomy a.bytes.length (readBuffSize - c.readIndex) with hlt | heq | hgt
      · cases hlast : a.last with
        | again => exact absurd ⟨hlast, hlt⟩ hnot
        | error => exact Or.inl ⟨hlast, hlt⟩
        | closed => exact Or.inr (Or.inl hlast)
      · apply Or.inr (Or.inl (h.resolve_left (not_not.mpr heq)))
      · apply Or.inr (Or.inr hgt)

end HttpConn

/-- Bytes that arrive in one piece, with nothing behind them for now. -/
def Arrival.once (bs : List UInt8) (h : bs ≠ []) : Arrival where
  pieces := [bs]
  pieces_ne_nil := by
    rw [List.forall_mem_singleton]
    exact h
  last := .again

namespace HttpConn

/-- Two bytes arrive on a new connection. -/
theorem read_keeps_two :
  HttpTask.idle.toHttpConn.ReadKeeps (.once [71, 69] (by decide))
  := by
  apply (read_keeps_iff (by decide) _).mpr
  apply Or.inl (by decide)

/-- A client that sends as many bytes as fit, and waits, is treated as one that closed the
connection. -/
theorem not_read_keeps :
  ¬ ∀ (c : HttpConn) (a : Arrival), c.readIndex < readBuffSize → c.ReadKeeps a
  := by
  intro h
  have hne : List.replicate 2048 (71 : UInt8) ≠ [] := List.cons_ne_nil _ _
  have hroom : HttpTask.idle.toHttpConn.readIndex < readBuffSize := by decide
  have hlength : (Arrival.once (List.replicate 2048 71) hne).bytes.length
      = readBuffSize - HttpTask.idle.toHttpConn.readIndex := by
    change ([List.replicate 2048 (71 : UInt8)].flatten).length = 2048
    rw [List.flatten_singleton, List.length_replicate]
  obtain ⟨ok, c', hread, -, -, hreason⟩ := h _ (.once (List.replicate 2048 71) hne) hroom
  rw [read_outcomes hroom, hlength] at hread
  have hfalse : ok = false := by
    rw [← (Prod.mk.inj (Option.some.inj hread)).1]
    apply decide_eq_false fun h => absurd h.2 (lt_irrefl _)
  rcases hreason hfalse with ⟨herror, -⟩ | hclosed | hmore
  · cases herror
  · cases hclosed
  · rw [hlength] at hmore
    apply absurd hmore (lt_irrefl _)

end HttpConn

end WebServer
