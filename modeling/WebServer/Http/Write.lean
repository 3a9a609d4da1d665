import WebServer.Lib.Run
import WebServer.Http.Response

/-!
# Writing a response

`http_conn::write` as a function of the outcomes of `writev`, and the machine `Sending`
that takes one outcome at a time over any number of calls.

The bytes of a response have addresses `c.addresses`, first in the write buffer and then
in the mapped file.  As long as no second short write ends inside the header, what was
sent is an initial part of them and what is offered next is an initial part of the rest
(`Progress`), so the response is delivered as it was prepared (`write_delivers`).  A
second short write inside the header takes the length of the first `iovec`, which
`bytes_have_send` was subtracted from already, for the length of the header.
-/

open CString Fallible

namespace WebServer

/-- What `writev` does: it takes `k` bytes, the socket takes none for now, or it
fails. -/
inductive Outcome where
  | accepted (k : ℕ)
  | again
  | error
  deriving DecidableEq

/-- How a call of `http_conn::write` ends. -/
inductive WriteEnd where
  /-- Nothing to send: `EPOLLIN`, `init()` and `true`. -/
  | idle
  /-- The socket takes no more for now: `EPOLLOUT` and `true`. -/
  | again
  /-- `writev` failed: `unmap()` and `false`. -/
  | failed
  /-- All sent, the connection stays: `unmap()`, `EPOLLIN`, `init()` and `true`. -/
  | kept
  /-- All sent, the connection ends: `unmap()`, `EPOLLIN` and `false`. -/
  | closing
  deriving DecidableEq

namespace HttpConn

/-! ### `write` -/

/-- The addresses of the bytes that `writev` is offered. -/
def offered (c : HttpConn) : List Address :=
  ([c.iv₀, c.iv₁].take c.ivCount).flatMap Iovec.addresses

/-- `http_conn::unmap`, which unmaps the null pointer only. -/
def unmap (c : HttpConn) : HttpConn :=
  if c.fileAddress.isNone then { c with fileAddress := none } else c

/-- The counters after `writev` took `temp` bytes. -/
def count (c : HttpConn) (temp : ℕ) : HttpConn :=
  { c with
    bytesHaveSend := c.bytesHaveSend + temp
    bytesToSend := c.bytesToSend - temp }

/-- The `iovec`s computed from the counters. -/
def adjust (c : HttpConn) : HttpConn :=
  if c.iv₀.len ≤ c.bytesHaveSend then
    { c with
      iv₀ := { c.iv₀ with len := 0 }
      iv₁ := ⟨.file (c.bytesHaveSend - c.writeIndex), (c.bytesToSend % 2 ^ 64).toNat⟩ }
  else
    { c with iv₀ := ⟨.writeBuff c.bytesHaveSend, c.iv₀.len - c.bytesHaveSend⟩ }

/-- A round of the loop of `http_conn::write`. -/
def writeRound (c : HttpConn) : Outcome → HttpConn × Option WriteEnd
  | .again => (c, some .again)
  | .error => (c.unmap, some .failed)
  | .accepted temp =>
    let c := (c.count temp).adjust
    if c.bytesToSend ≤ 0 then
      let c := c.unmap
      if c.linger then (c.init, some .kept) else (c, some .closing)
    else
      (c, none)

/-- The loop of `http_conn::write` for the outcomes of its calls of `writev`; the call
has not ended when the outcomes run out. -/
def writeLoop (c : HttpConn) : List Outcome → HttpConn × Option WriteEnd
  | [] => (c, none)
  | o :: os =>
    match c.writeRound o with
    | (c, none) => c.writeLoop os
    | (c, some e) => (c, some e)

/-- `http_conn::write`. -/
def write (c : HttpConn) (os : List Outcome) : HttpConn × Option WriteEnd :=
  if c.bytesToSend = 0 then (c.init, some .idle) else c.writeLoop os

/-! ### The response -/

/-- The byte at an address. -/
def byteAt (c : HttpConn) : Address → UInt8
  | .writeBuff offset => c.writeBuff offset
  | .file offset => (c.fileAddress.map (· offset)).getD 0

/-- The header block, `m_write_buff[0, m_write_index)`. -/
def header (c : HttpConn) : List UInt8 := (List.range c.writeIndex).map c.writeBuff

/-- The bytes of the mapped file. -/
def file (c : HttpConn) : List UInt8 :=
  (List.range c.fileSize).map fun i : ℕ => c.byteAt (.file i)

/-- The response that was prepared. -/
def response (c : HttpConn) : List UInt8 :=
  c.header ++ if c.ivCount = 2 then c.file else []

/-- The addresses of the bytes of the response. -/
def addresses (c : HttpConn) : List Address :=
  (List.range c.writeIndex).map .writeBuff ++
    if c.ivCount = 2 then (List.range c.fileSize).map (fun i : ℕ => .file i) else []

theorem response_eq (c : HttpConn) :
  c.response = c.addresses.map c.byteAt
  := by
  rw [response, addresses]
  rw [List.map_append, List.map_map]
  congr 1
  split
  · rw [List.map_map]
    rfl
  · rfl

end HttpConn

/-! ### The sending machine -/

/-- The state of sending a response: the connection at its next call of `writev`, the
addresses of the bytes that were sent, and how the last call of `write` ended if sending
is over. -/
structure Sending where
  conn : HttpConn
  sent : List Address
  exit : Option WriteEnd

namespace Sending

/-- A call of `write` comes to its loop, or finds nothing to send. -/
def enter (c : HttpConn) (sent : List Address) : Sending :=
  if c.bytesToSend = 0 then ⟨c.init, sent, some .idle⟩ else ⟨c, sent, none⟩

/-- What `writev` may do when it is offered `n` bytes. -/
def possible (n : ℕ) : Outcome → Bool
  | .accepted k => 1 ≤ k && k ≤ n
  | .again => true
  | .error => true

/-- The addresses that an outcome takes from those that are offered. -/
def taken (l : List Address) : Outcome → List Address
  | .accepted k => l.take k
  | .again => []
  | .error => []

/-- What follows a round of the loop of `write`: after `EAGAIN`, `write` is called
again. -/
def after (sent : List Address) : HttpConn × Option WriteEnd → Sending
  | (c, some .again) => enter c sent
  | (c, e) => ⟨c, sent, e⟩

/-- One outcome of `writev`. -/
def step (s : Sending) (o : Outcome) : Option Sending :=
  if s.exit = none ∧ possible s.conn.offered.length o then
    some (after (s.sent ++ taken s.conn.offered o) (s.conn.writeRound o))
  else
    none

theorem writeRound_eq_again {c c' : HttpConn} {o : Outcome}
    (h : c.writeRound o = (c', some .again)) :
  o = .again
  := by
  cases o with
  | again => rfl
  | error => cases h
  | accepted k =>
      rw [HttpConn.writeRound] at h
      dsimp only at h
      split at h
      · split at h
        · cases h
        · cases h
      · cases h

theorem after_of_ne_again (sent : List Address) (c : HttpConn) {e : Option WriteEnd}
    (he : e ≠ some .again) :
  after sent (c, e) = ⟨c, sent, e⟩
  := by
  unfold after
  split
  · next h =>
      cases h
      apply absurd rfl he
  · next h =>
      cases h
      rfl

theorem writeLoop_of_exec {c : HttpConn} {sent : List Address} {os : List Outcome} {s : Sending}
    (hagain : .again ∉ os) (h : Run.exec step ⟨c, sent, none⟩ os = some s) :
  c.writeLoop os = (s.conn, s.exit)
  := by
  induction os generalizing c sent with
  | nil =>
      cases h
      rfl
  | cons o os ih =>
      rw [List.mem_cons, not_or] at hagain
      obtain ⟨s₁, hs₁, h⟩ := Run.exec_cons.mp h
      rw [step] at hs₁
      split at hs₁
      · cases hr : c.writeRound o with
        | mk c' e =>
            have he : e ≠ some .again := by
              rintro rfl
              apply hagain.1 (writeRound_eq_again hr).symm
            rw [hr, after_of_ne_again _ _ he] at hs₁
            cases hs₁
            rw [HttpConn.writeLoop, hr]
            cases e with
            | none => exact ih hagain.2 h
            | some e =>
                cases os with
                | nil =>
                    cases h
                    rfl
                | cons o' os =>
                    obtain ⟨s₂, hs₂, -⟩ := Run.exec_cons.mp h
                    rw [step, if_neg (by rintro ⟨⟨⟩, -⟩)] at hs₂
                    cases hs₂
      · cases hs₁

/-- A run of the sending machine without `EAGAIN` is a call of `write`. -/
theorem write_of_exec {c : HttpConn} {sent : List Address} {os : List Outcome} {s : Sending}
    (hagain : .again ∉ os) (h : Run.exec step (enter c sent) os = some s) :
  c.write os = (s.conn, s.exit)
  := by
  rw [HttpConn.write]
  rw [enter] at h
  split at h
  · next hidle =>
      rw [if_pos hidle]
      cases os with
      | nil =>
          cases h
          rfl
      | cons o os =>
          obtain ⟨s₁, hs₁, -⟩ := Run.exec_cons.mp h
          rw [step, if_neg (by rintro ⟨⟨⟩, -⟩)] at hs₁
          cases hs₁
  · next hbusy =>
      rw [if_neg hbusy]
      apply writeLoop_of_exec hagain h

/-- A second short write that ends inside the header of a response with a file. -/
def CutsAgain (s : Sending) : Outcome → Prop
  | .accepted k => s.conn.ivCount = 2 ∧ 0 < s.conn.bytesHaveSend ∧
      s.conn.bytesHaveSend + k < s.conn.writeIndex
  | .again => False
  | .error => False

instance (s : Sending) : ∀ o, Decidable (CutsAgain s o)
  | .accepted _ => inferInstanceAs (Decidable (_ ∧ _ ∧ _))
  | .again => inferInstanceAs (Decidable False)
  | .error => inferInstanceAs (Decidable False)

/-- The response `c` prepared is delivered so far: what was sent is an initial part of
it, what is offered lies in it, and when all is sent it is the response. -/
structure Delivers (c : HttpConn) (s : Sending) : Prop where
  initial : s.sent.map c.byteAt <+: c.response
  inside : s.exit = none → ∀ a ∈ s.conn.offered, a ∈ c.addresses
  complete : s.exit = some .kept ∨ s.exit = some .closing → s.sent.map c.byteAt = c.response

end Sending

namespace HttpConn

/-! ### What `process_write` prepares -/

/-- A response is prepared and nothing of it was sent. -/
structure Prepared (c : HttpConn) : Prop where
  bytesHaveSend : c.bytesHaveSend = 0
  iv₀ : c.iv₀ = ⟨.writeBuff 0, c.writeIndex⟩
  bytesToSend : c.bytesToSend = c.addresses.length
  iv₁ : c.ivCount = 1 ∨ c.ivCount = 2 ∧ c.iv₁ = ⟨.file 0, c.fileSize⟩

theorem length_addresses (c : HttpConn) :
  c.addresses.length = c.response.length
  := by
  rw [response_eq, List.length_map]

/-- `c'` is `c` but for the write buffer. -/
def Filled (c c' : HttpConn) : Prop :=
  c' = { c with writeBuff := c'.writeBuff, writeIndex := c'.writeIndex }

theorem Filled.trans {c c' c'' : HttpConn} (h : Filled c c') (h' : Filled c' c'') :
  Filled c c''
  := by
  rw [Filled, h] at h'
  exact h'

theorem Filled.bytesHaveSend {c c' : HttpConn} (h : Filled c c') :
  c'.bytesHaveSend = c.bytesHaveSend
  := by
  have hfield := congrArg HttpConn.bytesHaveSend h
  exact hfield

theorem Filled.sockfd {c c' : HttpConn} (h : Filled c c') :
  c'.sockfd = c.sockfd
  := by
  have hfield := congrArg HttpConn.sockfd h
  exact hfield

theorem Filled.fileSize {c c' : HttpConn} (h : Filled c c') :
  c'.fileSize = c.fileSize
  := by
  have hfield := congrArg HttpConn.fileSize h
  exact hfield

/-- `add_response` writes into the write buffer only. -/
theorem addResponse_filled {c c' : HttpConn} {text : List UInt8} {ok : Bool}
    (h : c.addResponse text = .ok (ok, c')) :
  Filled c c'
  := by
  rw [addResponse] at h
  split at h
  · cases h
    rfl
  · split at h
    · cases h
    · dsimp only at h
      split at h
      · cases h
        rfl
      · cases h
        rfl

theorem addHeaders_filled {c c' : HttpConn} {n : ℤ} {ok : Bool}
    (h : c.addHeaders n = .ok (ok, c')) :
  Filled c c'
  := by
  rw [addHeaders] at h
  obtain ⟨⟨ok₁, c₁⟩, h₁, h⟩ := bind_eq_ok.mp h
  have hf₁ := addResponse_filled h₁
  cases ok₁ with
  | false =>
      cases h
      exact hf₁
  | true =>
      obtain ⟨⟨ok₂, c₂⟩, h₂, h⟩ := bind_eq_ok.mp h
      have hf₂ := addResponse_filled h₂
      cases ok₂ with
      | false =>
          cases h
          apply hf₁.trans hf₂
      | true => exact hf₁.trans (hf₂.trans (addResponse_filled h))

theorem useFile_bytesToSend (c : HttpConn) :
  c.useFile.bytesToSend = toInt32 (c.writeIndex + c.fileSize)
  := by
  simp only [useFile]

/-- What `process_write` does: it fails behind some writes into the write buffer, or it sets
the `iovec`s as well. -/
inductive Replied (c c' : HttpConn) (ret : HttpCode) : Bool → Prop
  | failed : Filled c c' → (ret = .fileRequest → c.fileSize = 0) → Replied c c' ret false
  | text {d : HttpConn} : Filled c d → c' = d.useWriteBuff → ret ≠ .fileRequest →
      ret ≠ .noResource → Replied c c' ret true
  | file {d : HttpConn} : Filled c d → c' = d.useFile → ret = .fileRequest → c.fileSize ≠ 0 →
      Replied c c' ret true

theorem respondError_replied {c c' : HttpConn} {ret : HttpCode} {status : ℕ}
    {title form : String} {ok : Bool} (h : c.respondError status title form = .ok (ok, c'))
    (hfile : ret ≠ .fileRequest) (hmissing : ret ≠ .noResource) :
  Replied c c' ret ok
  := by
  obtain ⟨⟨ok, d⟩, hd, h⟩ := bind_eq_ok.mp h
  obtain ⟨⟨ok₁, c₁⟩, h₁, hd⟩ := bind_eq_ok.mp hd
  obtain ⟨⟨ok₂, c₂⟩, h₂, hd⟩ := bind_eq_ok.mp hd
  have hfilled := (addResponse_filled h₁).trans
    ((addHeaders_filled h₂).trans (addResponse_filled hd))
  cases ok with
  | false =>
      cases h
      exact .failed hfilled (fun hret => absurd hret hfile)
  | true =>
      cases h
      exact .text hfilled rfl hfile hmissing

theorem processWrite_replied {c c' : HttpConn} {ret : HttpCode} {ok : Bool}
    (h : c.processWrite ret = .ok (ok, c')) :
  Replied c c' ret ok
  := by
  cases ret with
  | internalError => apply respondError_replied h (by decide) (by decide)
  | badRequest => apply respondError_replied h (by decide) (by decide)
  | forbiddenRequest => apply respondError_replied h (by decide) (by decide)
  | fileRequest =>
      obtain ⟨⟨ok₁, c₁⟩, h₁, h⟩ := bind_eq_ok.mp h
      have hfilled := addResponse_filled h₁
      have hsize := hfilled.fileSize
      dsimp only at h
      split at h
      next hfile =>
        obtain ⟨⟨ok₂, c₂⟩, h₂, h⟩ := bind_eq_ok.mp h
        cases h
        exact .file (hfilled.trans (addHeaders_filled h₂)) rfl rfl (hsize ▸ hfile)
      next hfile =>
        obtain ⟨⟨ok₂, c₂⟩, h₂, h⟩ := bind_eq_ok.mp h
        obtain ⟨⟨ok₃, c₃⟩, h₃, h⟩ := bind_eq_ok.mp h
        cases h
        exact .failed (hfilled.trans ((addHeaders_filled h₂).trans (addResponse_filled h₃)))
          (fun _ => hsize ▸ not_not.mp hfile)
  | noRequest | getRequest | noResource | closedConnection =>
      cases h
      exact .failed rfl nofun

theorem useWriteBuff_prepared {c : HttpConn} (hfresh : c.bytesHaveSend = 0) :
  Prepared c.useWriteBuff
  := by
  refine ⟨hfresh, rfl, ?_, Or.inl rfl⟩
  simp [addresses, useWriteBuff]

/-- A response that `process_write` has prepared. -/
theorem processWrite_prepared {c c' : HttpConn} {ret : HttpCode} (hfresh : c.bytesHaveSend = 0)
    (h : c.processWrite ret = .ok (true, c')) (hsize : c'.response.length < 2 ^ 31) :
  Prepared c'
  := by
  cases processWrite_replied h with
  | text hfilled hc' _ _ =>
      subst hc'
      apply useWriteBuff_prepared (hfilled.bytesHaveSend.trans hfresh)
  | @file d hfilled hc' _ _ =>
      subst hc'
      have hlen : d.useFile.addresses.length = d.writeIndex + d.fileSize := by
        simp [addresses, useFile]
      refine ⟨hfilled.bytesHaveSend.trans hfresh, rfl, ?_, Or.inr ⟨rfl, rfl⟩⟩
      rw [← length_addresses] at hsize
      rw [hlen]
      rw [hlen] at hsize
      have hsend := toInt32_of_lt hsize
      rw [Nat.cast_add] at hsend
      rw [useFile_bytesToSend, hsend, Nat.cast_add]

/-! ### Addresses -/

theorem map_range_drop {α : Type} (f : ℕ → α) (n k : ℕ) :
  ((List.range n).map f).drop k = (List.range (n - k)).map fun i => f (k + i)
  := by
  apply List.ext_getElem
  · simp
  · intro i _ _
    simp

theorem map_range_prefix {α : Type} (f : ℕ → α) {n m : ℕ} (h : n ≤ m) :
  (List.range n).map f <+: (List.range m).map f
  := by
  rw [← Nat.min_eq_left h, ← List.take_range, List.map_take]
  apply List.take_prefix

/-- The number of the bytes of the response in the file. -/
def fileLength (c : HttpConn) : ℕ := if c.ivCount = 2 then c.fileSize else 0

theorem addresses_eq (c : HttpConn) :
  c.addresses = (List.range c.writeIndex).map .writeBuff ++
    (List.range c.fileLength).map fun i : ℕ => .file i
  := by
  rw [addresses, fileLength]
  congr 1
  split
  · rfl
  · rfl

theorem length_addresses_eq (c : HttpConn) :
  c.addresses.length = c.writeIndex + c.fileLength
  := by
  rw [addresses_eq]
  simp

/-- The addresses from within the header on. -/
theorem drop_addresses_header (c : HttpConn) {k : ℕ} (hk : k ≤ c.writeIndex) :
  c.addresses.drop k = (List.range (c.writeIndex - k)).map (fun i => .writeBuff (k + i)) ++
    (List.range c.fileLength).map fun i : ℕ => .file i
  := by
  rw [addresses_eq, List.drop_append_of_le_length (by simpa using hk), map_range_drop]

/-- The addresses from the end of the header on. -/
theorem drop_addresses_file (c : HttpConn) {k : ℕ} (hk : c.writeIndex ≤ k) :
  c.addresses.drop k = (List.range (c.addresses.length - k)).map
    fun i : ℕ => .file ((k - c.writeIndex : ℤ) + i)
  := by
  have hlen := c.length_addresses_eq
  rw [addresses_eq, List.drop_append, List.drop_eq_nil_of_le (by simpa using hk),
    List.nil_append, map_range_drop, List.length_map, List.length_range, ← addresses_eq]
  rw [show c.fileLength - (k - c.writeIndex) = c.addresses.length - k by omega]
  apply List.map_congr_left
  intro i _
  rw [Nat.cast_add, Nat.cast_sub hk]

/-! ### The `iovec`s -/

/-- The `iovec`s of `d`, of which a response with a header of `w` bytes and a file of `n`
bytes is sent. -/
inductive Vectors (w n : ℕ) (d : HttpConn) : Prop where
  /-- The response has no file; a second short write may leave the `iovec` too short. -/
  | single : d.ivCount = 1 →
      d.iv₀.len = 0 ∨ d.iv₀.base = .writeBuff d.bytesHaveSend ∧ d.iv₀.len + d.bytesHaveSend ≤ w →
      Vectors w n d
  /-- The rest of the header and the file. -/
  | header : d.ivCount = 2 → d.bytesHaveSend < w →
      d.iv₀ = ⟨.writeBuff d.bytesHaveSend, w - d.bytesHaveSend⟩ → d.iv₁ = ⟨.file 0, n⟩ →
      Vectors w n d
  /-- The rest of the file. -/
  | file : d.ivCount = 2 → w ≤ d.bytesHaveSend → d.iv₀.len = 0 →
      d.iv₁ = ⟨.file (d.bytesHaveSend - w), w + n - d.bytesHaveSend⟩ → Vectors w n d

/-- The connection `d` has sent a part of the response that `c` prepared, and is about to
call `writev` for the rest. -/
structure Rest (c d : HttpConn) : Prop where
  writeIndex : d.writeIndex = c.writeIndex
  ivCount : d.ivCount = c.ivCount
  bytesToSend : d.bytesToSend = c.addresses.length - d.bytesHaveSend
  pending : d.bytesHaveSend < c.addresses.length
  size : c.addresses.length < 2 ^ 31
  vectors : Vectors c.writeIndex c.fileLength d

theorem Iovec.addresses_nil {iov : Iovec} (h : iov.len = 0) :
  iov.addresses = []
  := by
  rw [Iovec.addresses]
  rw [h]
  rfl

/-- What is offered comes next in the response. -/
theorem Rest.offered {c d : HttpConn} (h : Rest c d) :
  d.offered <+: c.addresses.drop d.bytesHaveSend
  := by
  cases h.vectors with
  | single hcount hiv =>
      have hoff : d.offered = d.iv₀.addresses := by
        unfold HttpConn.offered
        rw [hcount]
        simp
      rw [hoff]
      rcases hiv with hlen | ⟨hbase, hlen⟩
      · rw [Iovec.addresses_nil hlen]
        apply List.nil_prefix
      · rw [drop_addresses_header c (by omega), Iovec.addresses, hbase]
        apply List.IsPrefix.trans _ (List.prefix_append _ _)
        apply map_range_prefix
        omega
  | header hcount hlt hiv₀ hiv₁ =>
      have hoff : d.offered = d.iv₀.addresses ++ d.iv₁.addresses := by
        unfold HttpConn.offered
        rw [hcount]
        simp
      have hfile : (Address.file 0).add = fun i : ℕ => .file i := by
        funext i
        rw [Address.add, Int.zero_add]
      rw [hoff, drop_addresses_header c (Nat.le_of_lt hlt), hiv₀, hiv₁]
      unfold Iovec.addresses
      dsimp only
      rw [hfile]
      apply List.prefix_rfl
  | file hcount hle hiv₀ hiv₁ =>
      have hoff : d.offered = d.iv₀.addresses ++ d.iv₁.addresses := by
        unfold HttpConn.offered
        rw [hcount]
        simp
      rw [hoff, Iovec.addresses_nil hiv₀, hiv₁, drop_addresses_file c hle, length_addresses_eq]
      apply List.prefix_rfl

theorem Prepared.rest {c : HttpConn} (h : Prepared c) (hhead : 0 < c.writeIndex)
    (hsize : c.response.length < 2 ^ 31) :
  Rest c c
  where
  writeIndex := rfl
  ivCount := rfl
  bytesToSend := by
    rw [h.bytesToSend, h.bytesHaveSend]
    simp
  pending := by
    rw [h.bytesHaveSend, length_addresses_eq]
    omega
  size := by rwa [length_addresses]
  vectors := by
    rcases h.iv₁ with hcount | ⟨hcount, hiv₁⟩
    · apply Vectors.single hcount
      right
      rw [h.iv₀, h.bytesHaveSend]
      exact ⟨rfl, le_rfl⟩
    · apply Vectors.header hcount
      · rw [h.bytesHaveSend]
        exact hhead
      · rw [h.iv₀, h.bytesHaveSend]
        rfl
      · rw [hiv₁, fileLength, if_pos hcount]

@[simp]
theorem count_bytesHaveSend (c : HttpConn) (k : ℕ) :
  (c.count k).bytesHaveSend = c.bytesHaveSend + k
  := rfl

/-- The fields that `adjust` leaves. -/
theorem adjust_frame (c : HttpConn) :
  c.adjust.writeIndex = c.writeIndex ∧ c.adjust.ivCount = c.ivCount ∧
    c.adjust.bytesHaveSend = c.bytesHaveSend ∧ c.adjust.bytesToSend = c.bytesToSend
  := by
  rw [adjust]
  split
  · exact ⟨rfl, rfl, rfl, rfl⟩
  · exact ⟨rfl, rfl, rfl, rfl⟩

/-- The bytes taken reach past the first `iovec`. -/
theorem adjust_of_le {c : HttpConn} (h : c.iv₀.len ≤ c.bytesHaveSend) :
  c.adjust.iv₀.len = 0 ∧
    c.adjust.iv₁ = ⟨.file (c.bytesHaveSend - c.writeIndex), (c.bytesToSend % 2 ^ 64).toNat⟩
  := by
  rw [adjust, if_pos h]
  exact ⟨rfl, rfl⟩

/-- The bytes taken end within the first `iovec`. -/
theorem adjust_of_lt {c : HttpConn} (h : c.bytesHaveSend < c.iv₀.len) :
  c.adjust.iv₀ = ⟨.writeBuff c.bytesHaveSend, c.iv₀.len - c.bytesHaveSend⟩ ∧
    c.adjust.iv₁ = c.iv₁
  := by
  rw [adjust, if_neg (Nat.not_le.mpr h)]
  exact ⟨rfl, rfl⟩

/-- Once the header is sent, the second `iovec` is the rest of the file. -/
theorem adjust_file {c d : HttpConn} (hindex : d.writeIndex = c.writeIndex)
    (htwo : d.ivCount = 2) (hto : d.bytesToSend = c.addresses.length - d.bytesHaveSend)
    (hpending : d.bytesHaveSend < c.addresses.length) (hsize : c.addresses.length < 2 ^ 31)
    (hle : d.iv₀.len ≤ d.bytesHaveSend) (hsent : c.writeIndex ≤ d.bytesHaveSend) :
  Vectors c.writeIndex c.fileLength d.adjust
  := by
  obtain ⟨-, hcount, hsend, -⟩ := adjust_frame d
  obtain ⟨hiv₀, hiv₁⟩ := adjust_of_le hle
  have hlen := c.length_addresses_eq
  have hnat : (d.bytesToSend % 2 ^ 64).toNat
      = c.writeIndex + c.fileLength - d.bytesHaveSend := by omega
  apply Vectors.file (hcount.trans htwo)
  · rwa [hsend]
  · exact hiv₀
  · rw [hiv₁, hnat, hsend, hindex]

/-- A short write of a response without a file. -/
theorem Vectors.adjust_single {w n k : ℕ} {d : HttpConn} (hone : d.ivCount = 1)
    (hiv : d.iv₀.len = 0 ∨
      d.iv₀.base = .writeBuff d.bytesHaveSend ∧ d.iv₀.len + d.bytesHaveSend ≤ w)
    (hk : 1 ≤ k) (hle : k ≤ d.offered.length) :
  Vectors w n (d.count k).adjust
  := by
  obtain ⟨-, hcount, hsend, -⟩ := adjust_frame (d.count k)
  have hoff : d.offered = d.iv₀.addresses := by
    rw [HttpConn.offered]
    rw [hone]
    simp
  rw [hoff, Iovec.addresses, List.length_map, List.length_range] at hle
  apply Vectors.single (hcount.trans hone)
  rcases hiv with hlen | ⟨-, hlen⟩
  · omega
  · rcases Nat.lt_or_ge (d.count k).bytesHaveSend (d.count k).iv₀.len with hwithin | hpast
    · right
      rw [(adjust_of_lt hwithin).1, hsend]
      refine ⟨rfl, ?_⟩
      change d.iv₀.len - (d.bytesHaveSend + k) + (d.bytesHaveSend + k) ≤ w
      change d.bytesHaveSend + k < d.iv₀.len at hwithin
      omega
    · left
      exact (adjust_of_le hpast).1

/-- The first short write, when it ends inside the header of a response with a file. -/
theorem Vectors.adjust_header {w n k : ℕ} {d : HttpConn} (htwo : d.ivCount = 2)
    (hzero : d.bytesHaveSend = 0) (hiv₀ : d.iv₀.len = w) (hiv₁ : d.iv₁ = ⟨.file 0, n⟩)
    (hwithin : k < w) :
  Vectors w n (d.count k).adjust
  := by
  obtain ⟨-, hcount, hsend, -⟩ := adjust_frame (d.count k)
  have hk : (d.count k).bytesHaveSend = k := by
    rw [count_bytesHaveSend, hzero, Nat.zero_add]
  have hlen : (d.count k).iv₀.len = w := hiv₀
  obtain ⟨hiv₀', hiv₁'⟩ := adjust_of_lt (c := d.count k) (by rw [hlen, hk]; exact hwithin)
  apply Vectors.header (hcount.trans htwo)
  · rw [hsend, hk]
    exact hwithin
  · rw [hiv₀', hlen, hsend]
  · apply hiv₁'.trans hiv₁

/-- A short write leaves the `iovec`s at the rest of the response, unless it is the
second one to end inside the header. -/
theorem Vectors.adjust {c d : HttpConn} (h : Rest c d) {k : ℕ} (hk : 1 ≤ k)
    (hle : k ≤ d.offered.length)
    (hcut : ¬ (d.ivCount = 2 ∧ 0 < d.bytesHaveSend ∧ d.bytesHaveSend + k < d.writeIndex))
    (hto : (d.count k).bytesToSend = c.addresses.length - (d.bytesHaveSend + k : ℕ))
    (hpending : d.bytesHaveSend + k < c.addresses.length) :
  Vectors c.writeIndex c.fileLength (d.count k).adjust
  := by
  cases h.vectors with
  | single hone hiv => exact Vectors.adjust_single hone hiv hk hle
  | header htwo hlt hiv₀ hiv₁ =>
      have hlen : d.iv₀.len = c.writeIndex - d.bytesHaveSend := by
        rw [hiv₀]
      rcases Nat.lt_or_ge (d.bytesHaveSend + k) c.writeIndex with hwithin | hpast
      · -- the first short write, of which `iv₀` does not know yet
        have hzero : d.bytesHaveSend = 0 := by
          by_contra hpos
          apply hcut
          rw [h.writeIndex]
          exact ⟨htwo, Nat.pos_of_ne_zero hpos, hwithin⟩
        rw [hzero, Nat.sub_zero] at hlen
        apply Vectors.adjust_header htwo hzero hlen hiv₁ (by omega)
      · apply adjust_file (d := d.count k) h.writeIndex htwo hto hpending h.size _ hpast
        change d.iv₀.len ≤ d.bytesHaveSend + k
        omega
  | file htwo hsent hiv₀ hiv₁ =>
      apply adjust_file (d := d.count k) h.writeIndex htwo hto hpending h.size
      · change d.iv₀.len ≤ d.bytesHaveSend + k
        omega
      · apply Nat.le_add_right_of_le hsent

/-- `writev` takes some of what it is offered, and not all is sent yet. -/
theorem Rest.adjust {c d : HttpConn} (h : Rest c d) {k : ℕ} (hk : 1 ≤ k)
    (hle : k ≤ d.offered.length)
    (hcut : ¬ (d.ivCount = 2 ∧ 0 < d.bytesHaveSend ∧ d.bytesHaveSend + k < d.writeIndex))
    (hmore : 0 < (d.count k).bytesToSend) :
  Rest c (d.count k).adjust
  := by
  obtain ⟨hindex, hcount, hsend, hto⟩ := adjust_frame (d.count k)
  have hrest := h.bytesToSend
  have hto' : (d.count k).bytesToSend = c.addresses.length - (d.bytesHaveSend + k : ℕ) := by
    change d.bytesToSend - k = _
    omega
  have hpending : d.bytesHaveSend + k < c.addresses.length := by omega
  refine ⟨hindex.trans h.writeIndex, hcount.trans h.ivCount, ?_, ?_, h.size,
    Vectors.adjust h hk hle hcut hto' hpending⟩
  · rw [hto, hto', hsend, count_bytesHaveSend]
  · rw [hsend]
    exact hpending

end HttpConn

namespace Sending

open HttpConn

/-! ### Runs -/

/-- How far the response that `c` prepared is sent: `write` is about to call `writev` for
the rest, or sending is over. -/
inductive Progress (c : HttpConn) (s : Sending) : Prop where
  | running : s.exit = none → Rest c s.conn →
      s.sent = c.addresses.take s.conn.bytesHaveSend → Progress c s
  | ended : s.exit ≠ none → s.sent <+: c.addresses →
      (s.exit = some .kept ∨ s.exit = some .closing → s.sent = c.addresses) → Progress c s

theorem Progress.delivers {c : HttpConn} {s : Sending} (h : Progress c s) :
  Delivers c s
  := by
  cases h with
  | running hexit hrest hsent =>
      refine ⟨?_, ?_, ?_⟩
      · rw [hsent, response_eq]
        apply (List.take_prefix _ _).map
      · intro _ a ha
        apply List.mem_of_mem_drop (hrest.offered.subset ha)
      · rw [hexit]
        rintro (⟨⟨⟩⟩ | ⟨⟨⟩⟩)
  | ended hexit hsent hall =>
      refine ⟨?_, fun hnone => absurd hnone hexit, ?_⟩
      · rw [response_eq]
        apply hsent.map
      · intro hend
        rw [hall hend, response_eq]

/-- The addresses that are taken come next. -/
theorem Progress.sent {c d : HttpConn} (h : Rest c d) {k : ℕ} (hk : k ≤ d.offered.length) :
  c.addresses.take d.bytesHaveSend ++ d.offered.take k
    = c.addresses.take (d.bytesHaveSend + k)
  := by
  obtain ⟨l, hl⟩ := h.offered
  rw [List.take_add, ← hl, List.take_append_of_le_length hk]

/-- `writev` takes some of what it is offered. -/
theorem Progress.accepted {c d : HttpConn} (h : Rest c d) {k : ℕ} (hk : 1 ≤ k)
    (hle : k ≤ d.offered.length)
    (hcut : ¬ (d.ivCount = 2 ∧ 0 < d.bytesHaveSend ∧ d.bytesHaveSend + k < d.writeIndex)) :
  Progress c (after (c.addresses.take (d.bytesHaveSend + k)) (d.writeRound (.accepted k)))
  := by
  have hto := h.bytesToSend
  obtain ⟨-, -, hsend, hto'⟩ := adjust_frame (d.count k)
  have hleft : (d.count k).adjust.bytesToSend = c.addresses.length - (d.bytesHaveSend + k) := by
    rw [hto']
    change d.bytesToSend - k = _
    omega
  rw [writeRound]
  dsimp only
  split
  next hdone =>
    -- all bytes are sent
    have hall : c.addresses.take (d.bytesHaveSend + k) = c.addresses := by
      apply List.take_of_length_le
      omega
    rw [hall]
    split
    · exact .ended (by rintro ⟨⟩) List.prefix_rfl (fun _ => rfl)
    · exact .ended (by rintro ⟨⟩) List.prefix_rfl (fun _ => rfl)
  next hmore =>
    apply Progress.running rfl
    · apply h.adjust hk hle hcut
      rw [← hto']
      omega
    · change _ = c.addresses.take (d.count k).adjust.bytesHaveSend
      rw [hsend, count_bytesHaveSend]
      rfl

/-- An outcome of `writev` that is not a second short write inside the header. -/
theorem Progress.step {c : HttpConn} {s s' : Sending} {o : Outcome} (h : Progress c s)
    (hcut : ¬ CutsAgain s o) (hs : step s o = some s') :
  Progress c s'
  := by
  rw [Sending.step] at hs
  split at hs
  next hpossible =>
    cases hs
    cases h with
    | ended hexit _ _ => exact absurd hpossible.1 hexit
    | running hexit hrest hsent =>
        cases o with
        | again =>
            have henter : after (s.sent ++ taken s.conn.offered .again)
                (s.conn.writeRound .again) = ⟨s.conn, s.sent, none⟩ := by
              have hpending := hrest.pending
              have hto := hrest.bytesToSend
              change enter s.conn (s.sent ++ []) = _
              rw [enter, if_neg (by omega), List.append_nil]
            rw [henter]
            exact .running rfl hrest hsent
        | error =>
            apply Progress.ended
            · rintro ⟨⟩
            · change s.sent ++ [] <+: _
              rw [List.append_nil, hsent]
              apply List.take_prefix
            · rintro (⟨⟨⟩⟩ | ⟨⟨⟩⟩)
        | accepted k =>
            have hk : 1 ≤ k ∧ k ≤ s.conn.offered.length := by
              simpa [possible] using hpossible.2
            have hsent' : s.sent ++ taken s.conn.offered (.accepted k)
                = c.addresses.take (s.conn.bytesHaveSend + k) := by
              rw [hsent]
              apply Progress.sent hrest hk.2
            rw [hsent']
            apply Progress.accepted hrest hk.1 hk.2 hcut
  next => cases hs

/-- Every response is delivered, whatever `writev` does, as long as no second short write
ends inside the header. -/
theorem write_delivers {c₀ c : HttpConn} {ret : HttpCode} {os : List Outcome} {s : Sending}
    (hfresh : c₀.bytesHaveSend = 0) (hprepared : c₀.processWrite ret = .ok (true, c))
    (hhead : 0 < c.writeIndex) (hsize : c.response.length < 2 ^ 31)
    (hcut : Run.Along step (fun s o => ¬ CutsAgain s o) (enter c []) os)
    (hrun : Run.exec step (enter c []) os = some s) :
  Delivers c s
  := by
  have hc := processWrite_prepared hfresh hprepared hsize
  have hrest := hc.rest hhead hsize
  have hpending := hrest.pending
  have hto := hrest.bytesToSend
  have hstart : enter c [] = ⟨c, [], none⟩ := if_neg (by omega)
  have hprogress : Progress c (enter c []) := by
    rw [hstart]
    apply Progress.running rfl hrest
    rw [hc.bytesHaveSend]
    rfl
  apply Progress.delivers
  apply Run.exec_invariant (fun s o s' hs hcut hstep => hs.step hcut hstep) hprogress hcut hrun

/-- A connection whose request was for a file of `n` bytes. -/
def forFile (n : ℕ) : HttpConn where
  toParser := Parser.init
  sockfd := none
  writeBuff := fun _ => 0
  writeIndex := 0
  iv₀ := ⟨.writeBuff 0, 0⟩
  iv₁ := ⟨.writeBuff 0, 0⟩
  ivCount := 0
  bytesToSend := 0
  bytesHaveSend := 0
  fileAddress := some fun _ => 0
  fileSize := n

/-- The connection with its response prepared. -/
def prepared (n : ℕ) : HttpConn :=
  (((forFile n).processWrite .fileRequest).toOption.map Prod.snd).getD (forFile n)

theorem processWrite_forFile (n : ℕ)
    (h : ((forFile n).processWrite .fileRequest).map Prod.fst = .ok true) :
  (forFile n).processWrite .fileRequest = .ok (true, prepared n)
  := by
  obtain ⟨c, hc⟩ := exists_of_map_fst h
  rw [prepared, hc]
  rfl

set_option maxRecDepth 10000 in
/-- One short write inside the header and one inside the file. -/
theorem write_delivers_forFile :
  Delivers (prepared 3) ((Run.exec step (enter (prepared 3) [])
    [.accepted 30, .again, .accepted 26, .accepted 2]).get (by decide))
  := write_delivers rfl (processWrite_forFile 3 (by decide)) (by decide) (by decide)
    (by decide) (Option.some_get _).symm

set_option maxRecDepth 10000 in
/-- Two short writes inside the header make `write` offer bytes from before the file. -/
theorem not_write_delivers :
  ¬ ∀ (c₀ c : HttpConn) (ret : HttpCode) (os : List Outcome) (s : Sending),
    c₀.bytesHaveSend = 0 → c₀.processWrite ret = .ok (true, c) → 0 < c.writeIndex →
    c.response.length < 2 ^ 31 → Run.exec step (enter c []) os = some s → Delivers c s
  := by
  intro h
  have hdelivers := h (forFile 1) (prepared 1) .fileRequest [.accepted 30, .accepted 20]
    ((Run.exec step (enter (prepared 1) []) [.accepted 30, .accepted 20]).get (by decide)) rfl
    (processWrite_forFile 1 (by decide)) (by decide) (by decide) (Option.some_get _).symm
  have hinside := hdelivers.inside (by decide) (.file (-5)) (by decide)
  revert hinside
  decide

end Sending

end WebServer
