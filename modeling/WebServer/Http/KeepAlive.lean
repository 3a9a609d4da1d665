import WebServer.Http.Complete
import WebServer.Http.Isolation

/-!
# Requests on one connection

A client keeps its connection and sends one `GET` request after another.  What one call of
`read` receives is a packet of one or more whole requests.  When each response is prepared
and sent in full, in one or more calls of `write`, `do_request` gets the first request of
each packet (`delivered_eq`): what was received behind it is cleared by the `init()` at the
end of the last of these calls.
-/

open CString Fallible

namespace WebServer

/-- A `GET` request that asks to keep the connection, without bytes behind it. -/
structure KeepAliveRequest extends CompleteRequest where
  method_get : Parser.methodOf method = some .get
  keeps : ∃ line ∈ headers, keepsAlive line = true
  length_eq_body : lastLength headers = body.length

/-- The requests that one call of `read` receives, in some calls of `recv`, and what the
server meets when it answers: the accounts, the results of `mysql_query`, the file system
and, for each call of `write`, the outcomes of `writev`. -/
structure Packet where
  first : KeepAliveRequest
  others : List KeepAliveRequest
  chunks : List (List UInt8)
  users : Users
  query : List UInt8 → ℤ
  stat : List UInt8 → Answer
  writes : List (List Outcome)
  chunks_ne_nil : ∀ bs ∈ chunks, bs ≠ []
  flatten_chunks : chunks.flatten = (first :: others).flatMap fun q => q.bytes
  length_lt : chunks.flatten.length < readBuffSize

namespace Packet

/-- The requests of a packet. -/
def requests (p : Packet) : List KeepAliveRequest := p.first :: p.others

/-- What happens to the object of the connection when a packet comes. -/
def events (p : Packet) : List ConnEvent :=
  .read (p.chunks.map .bytes ++ [.again]) :: .process p.users p.query p.stat ::
    p.writes.map .write

/-- The bytes of a packet are those of its first request, if that had the bytes of the
others behind it. -/
def whole (p : Packet) : CompleteRequest :=
  { p.first.toCompleteRequest with
    body := p.first.body ++ p.others.flatMap fun q => q.bytes
    length_le := by
      rw [List.length_append, Nat.cast_add]
      apply p.first.length_le.trans
      omega }

theorem bytes_whole (p : Packet) :
  p.chunks.flatten = p.whole.bytes
  := by
  rw [p.flatten_chunks, List.flatMap_cons]
  simp [whole, CompleteRequest.bytes]

end Packet

/-- What may be seen next when each response is prepared and sent in full.  Behind `process`
comes a call of `write`, and each call of `write` either ends at `EAGAIN` and is followed by
another one, or is the last one and sends all that is left, on a connection that stays. -/
def Observation.goesOn : Observation → Option Observation → Bool
  | .read _, _ => true
  | .processed _ _ _ _, some (.wrote _ _) => true
  | .processed _ _ _ _, _ => false
  | .wrote _ e, some (.wrote _ _) => e == some .again
  | .wrote _ e, _ => e == some .kept
  | .fault _, _ => false

/-- Each response is prepared and sent in full. -/
def allServed : List Observation → Bool
  | [] => true
  | o :: os => o.goesOn os.head? && allServed os

namespace HttpTask

/-- The request that `process_read` hands to `do_request`, if it does. -/
def handedOver (c : HttpTask) : Option Parsed :=
  match c.toParser.processRead with
  | .ok (.doRequest, p) => some p.parsed
  | .ok (.returned _, _) | .error _ => none

/-- The request that an event makes `process_read` hand to `do_request`. -/
def deliver (c : HttpTask) : ConnEvent → Option Parsed
  | .process _ _ _ => c.handedOver
  | .read _ | .write _ => none

/-- The requests that reach `do_request` along a run. -/
def delivered (c : HttpTask) : List ConnEvent → List Parsed
  | [] => []
  | e :: es =>
    (c.deliver e).toList ++
      match c.handle e with
      | .ok (_, d) => d.delivered es
      | .error _ => []

/-! ### One packet -/

/-- `read` takes a packet. -/
theorem readLoop_chunks (c : HttpConn) {chunks : List (List UInt8)} (hne : ∀ bs ∈ chunks, bs ≠ [])
    (hroom : c.readIndex + chunks.flatten.length ≤ readBuffSize) :
  c.readLoop (chunks.map .bytes ++ [.again])
    = some (true, { c with toParser := c.receive chunks.flatten })
  := by
  induction chunks generalizing c with
  | nil =>
      rw [List.flatten_nil, Parser.receive_nil]
      rfl
  | cons bs chunks ih =>
      rw [List.flatten_cons, List.length_append] at hroom
      have hbs := hne bs List.mem_cons_self
      have hrest := ih { c with toParser := c.receive bs }
        (fun bs' hmem => hne bs' (List.mem_cons_of_mem _ hmem)) (by
          rw [Parser.receive_readIndex]
          omega)
      rw [List.map_cons, List.cons_append, HttpConn.readLoop, if_pos ⟨hbs, by omega⟩, hrest,
        Parser.receive_append, List.flatten_cons]

/-- The object of a connection behind `init()`, when a packet is read. -/
theorem Begins.handle_read {c : HttpTask} (h : Begins c) (p : Packet) :
  ∃ d, c.handle (.read (p.chunks.map .bytes ++ [.again])) = .ok (.read (some true), d) ∧
    d.handedOver = some p.first.parsed
  := by
  have hinit : c.toParser = Parser.init := by
    rw [← h.init_eq]
    rfl
  have hlt := p.length_lt
  have hindex : c.readIndex = 0 := by
    rw [hinit]
    rfl
  have hsize : readBuffSize = 2048 := rfl
  have hread : c.toHttpConn.read (p.chunks.map .bytes ++ [.again])
      = some (true, { c.toHttpConn with toParser := c.receive p.chunks.flatten }) := by
    rw [HttpConn.read, if_neg (by omega)]
    apply readLoop_chunks _ p.chunks_ne_nil
    omega
  refine ⟨{ c with toParser := c.receive p.chunks.flatten }, ?_, ?_⟩
  · rw [handle, hread]
  · obtain ⟨q, hq, hparsed, -⟩ := Parser.processRead_parsed p.whole (p.bytes_whole ▸ hlt)
    rw [handedOver]
    dsimp only
    rw [hinit, p.bytes_whole, hq]
    exact congrArg some hparsed

/-! ### Packet after packet -/

theorem delivered_cons {c d : HttpTask} {e : ConnEvent} {o : Observation}
    (h : c.handle e = .ok (o, d)) (es : List ConnEvent) :
  c.delivered (e :: es) = (c.deliver e).toList ++ d.delivered es
  := by
  rw [delivered, h]

/-- What is seen of a call of `read`. -/
theorem handle_read (c : HttpTask) (rs : List Recv) :
  ∃ ok d, c.handle (.read rs) = .ok (.read ok, d)
  := by
  cases hread : c.toHttpConn.read rs with
  | none => exact ⟨none, c, by rw [handle, hread]⟩
  | some r => exact ⟨some r.1, { c with toHttpConn := r.2 }, by rw [handle, hread]⟩

/-- What is seen of a call of `process` that is no fault. -/
theorem handle_process {c d : HttpTask} {users : Users} {query : List UInt8 → ℤ}
    {stat : List UInt8 → Answer} {o : Observation}
    (h : c.handle (.process users query stat) = .ok (o, d)) :
  ∃ ret path queries e, o = .processed ret path queries e
  := by
  obtain ⟨⟨ret, d₁⟩, -, h⟩ := bind_eq_ok.mp h
  obtain ⟨⟨e, conn⟩, -, h⟩ := bind_eq_ok.mp h
  cases h
  exact ⟨ret, _, _, e, rfl⟩

/-- What is seen of a call of `write`.  One that sends all that is left, on a connection that
stays, ends with `init()`. -/
theorem handle_write (c : HttpTask) (os : List Outcome) :
  ∃ offers e d, c.handle (.write os) = .ok (.wrote offers e, d) ∧ (e = some .kept → Begins d)
  := by
  rcases hwrite : c.write os with ⟨d, e⟩
  refine ⟨_, e, d, by rw [handle, hwrite], ?_⟩
  rintro rfl
  apply Begins.kept hwrite (.inl rfl)

/-- What is seen of packets does not begin with a call of `write`. -/
theorem head?_observe_packets (c : HttpTask) (packets : List Packet) :
  (c.observe (packets.flatMap Packet.events)).head? = none ∨
    ∃ ok, (c.observe (packets.flatMap Packet.events)).head? = some (.read ok)
  := by
  cases packets with
  | nil => exact .inl rfl
  | cons p packets =>
      obtain ⟨ok, d, hread⟩ := c.handle_read (p.chunks.map .bytes ++ [.again])
      right
      use ok
      rw [List.flatMap_cons]
      change (c.observe (_ :: _)).head? = _
      rw [observe_cons hread]
      rfl

/-- The calls of `write` that send a response in full leave an object behind `init()`. -/
theorem begins_of_writes (c : HttpTask) (w : List Outcome) (ws : List (List Outcome))
    (packets : List Packet)
    (hserved : allServed (c.observe ((w :: ws).map .write ++ packets.flatMap Packet.events))
      = true) :
  ∃ d, Begins d ∧ allServed (d.observe (packets.flatMap Packet.events)) = true ∧
    c.delivered ((w :: ws).map .write ++ packets.flatMap Packet.events)
      = d.delivered (packets.flatMap Packet.events)
  := by
  induction ws generalizing c w with
  | nil =>
      obtain ⟨offers, e, d, hwrite, hbegins⟩ := c.handle_write w
      rw [List.map_singleton, List.singleton_append] at hserved ⊢
      rw [observe_cons hwrite, allServed, Bool.and_eq_true] at hserved
      obtain ⟨hend, hserved⟩ := hserved
      have hkept : e = some .kept := by
        rcases d.head?_observe_packets packets with hhead | ⟨ok, hhead⟩
        · rw [hhead] at hend
          apply eq_of_beq hend
        · rw [hhead] at hend
          apply eq_of_beq hend
      exact ⟨d, hbegins hkept, hserved, delivered_cons hwrite _⟩
  | cons w' ws ih =>
      obtain ⟨offers, e, d, hwrite, -⟩ := c.handle_write w
      rw [List.map_cons, List.cons_append] at hserved ⊢
      rw [observe_cons hwrite, allServed, Bool.and_eq_true] at hserved
      obtain ⟨d', hd', hrest, hdelivered⟩ := ih d w' hserved.2
      exact ⟨d', hd', hrest, (delivered_cons hwrite _).trans hdelivered⟩

/-- When every response is prepared and sent in full, the first request of each packet
reaches `do_request`. -/
theorem delivered_eq {c : HttpTask} (hc : Begins c) (packets : List Packet)
    (hserved : allServed (c.observe (packets.flatMap Packet.events)) = true) :
  c.delivered (packets.flatMap Packet.events) = packets.map fun p => p.first.parsed
  := by
  induction packets generalizing c with
  | nil => rfl
  | cons p packets ih =>
      obtain ⟨d, hread, hover⟩ := hc.handle_read p
      rw [List.flatMap_cons] at hserved ⊢
      change allServed (c.observe (_ :: _ :: (_ ++ packets.flatMap Packet.events))) = _ at hserved
      change c.delivered (_ :: _ :: (_ ++ packets.flatMap Packet.events)) = _
      rw [observe_cons hread, allServed, Bool.and_eq_true] at hserved
      rw [delivered_cons hread]
      obtain ⟨-, hserved⟩ := hserved
      cases hprocess : d.handle (.process p.users p.query p.stat) with
      | error f =>
          rw [observe_cons_error hprocess] at hserved
          cases hserved
      | ok r =>
          obtain ⟨o, d₁⟩ := r
          obtain ⟨ret, path, queries, e, rfl⟩ := handle_process hprocess
          rw [observe_cons hprocess, allServed, Bool.and_eq_true] at hserved
          obtain ⟨hprepared, hserved⟩ := hserved
          cases hwrites : p.writes with
          | nil =>
              -- nothing is written: what is seen next is no call of `write`
              rw [hwrites, List.map_nil, List.nil_append] at hprepared
              rcases d₁.head?_observe_packets packets with hhead | ⟨ok, hhead⟩
              · rw [hhead] at hprepared
                cases hprepared
              · rw [hhead] at hprepared
                cases hprepared
          | cons w ws =>
              rw [hwrites] at hserved
              obtain ⟨d₂, hbegins, hrest, hdelivered⟩ := begins_of_writes d₁ w ws packets hserved
              rw [delivered_cons hprocess, hdelivered, ih hbegins hrest, deliver, hover]
              rfl

end HttpTask

theorem isBlank_space :
  isBlank 32 = true
  := rfl

theorem eqIgnoreCase_version :
  eqIgnoreCase (ascii "HTTP/1.1") (ascii "HTTP/1.1") = true
  := by
  decide

/-- `GET` for a path of one letter, with a header line that asks to keep the connection. -/
def KeepAliveRequest.letter (b : UInt8) (hb : isWordByte b = true) : KeepAliveRequest where
  method := ascii "GET"
  blank := 32
  url := [47, b]
  blank' := 32
  version := ascii "HTTP/1.1"
  headers := [ascii "Connection: keep-alive"]
  body := []
  method_implemented := by decide
  blank_isBlank := isBlank_space
  url_word := by
    intro b' hb'
    rcases List.mem_pair.mp hb' with rfl | rfl
    · decide
    · exact hb
  url_path := by
    rfl
  blank'_isBlank := isBlank_space
  version_http := eqIgnoreCase_version
  headers_ne_nil := by
    intro line hline
    rw [List.mem_singleton.mp hline]
    decide
  headers_line := by
    have hall : (ascii "Connection: keep-alive").all isLineByte = true := by decide
    intro line hline
    rw [List.mem_singleton.mp hline]
    apply List.all_eq_true.mp hall
  length_nonneg := by decide
  length_le := by decide
  method_get := by decide
  keeps := ⟨ascii "Connection: keep-alive", List.mem_singleton_self _, by decide⟩
  length_eq_body := by decide

/-- The requests for the paths `/a` and `/b` in one packet. -/
def Packet.two : Packet where
  first := .letter 97 (by decide)
  others := [.letter 98 (by decide)]
  chunks := [(KeepAliveRequest.letter 97 (by decide)).bytes ++
    (KeepAliveRequest.letter 98 (by decide)).bytes]
  users := fun _ => none
  query := fun _ => 0
  stat := HttpTask.filesOnly
  writes := [[.accepted 65]]
  chunks_ne_nil := by decide
  flatten_chunks := by decide
  length_lt := by decide

/-- The request for the path `/c` in a packet of its own, which `recv` returns in two
pieces.  The socket takes nothing at the first call of `write`. -/
def Packet.one : Packet where
  first := .letter 99 (by decide)
  others := []
  chunks := [(KeepAliveRequest.letter 99 (by decide)).bytes.take 9,
    (KeepAliveRequest.letter 99 (by decide)).bytes.drop 9]
  users := fun _ => none
  query := fun _ => 0
  stat := HttpTask.filesOnly
  writes := [[.again], [.accepted 65]]
  chunks_ne_nil := by decide
  flatten_chunks := by decide
  length_lt := by decide

namespace HttpTask

theorem delivered_eq_two :
  ({ idle.init with sockfd := some 5 } : HttpTask).delivered
      ([Packet.two, Packet.one].flatMap Packet.events)
    = [Packet.two, Packet.one].map fun p => p.first.parsed
  := delivered_eq (.accepted idle 5) _ (by decide +kernel)

/-- Of two requests in one packet only the first one reaches `do_request`. -/
theorem not_delivered_all :
  ¬ ∀ (c : HttpTask) (packets : List Packet), Begins c →
    allServed (c.observe (packets.flatMap Packet.events)) = true →
      c.delivered (packets.flatMap Packet.events)
        = (packets.flatMap Packet.requests).map fun q => q.parsed
  := by
  intro h
  have hall := h { idle.init with sockfd := some 5 } [Packet.two] (.accepted idle 5)
    (by decide +kernel)
  have hone : (({ idle.init with sockfd := some 5 } : HttpTask).delivered
      ([Packet.two].flatMap Packet.events)).length = 1 := by
    decide +kernel
  rw [hall] at hone
  revert hone
  decide

end HttpTask

end WebServer
