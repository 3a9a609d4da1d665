import WebServer.Http.Process

/-!
# The loop of `write`

Whether a call of `http_conn::write` ends, for every stream of outcomes of its calls of
`writev`.  A call that is offered bytes takes at least one of them or fails, and a call
that is offered nothing returns 0.

The loop runs on as long as `bytes_to_send` is positive.  For a response without a file
the first `iovec` is all that `writev` is offered, and a second short write takes
`bytes_have_send` off its length once more, which may leave nothing.  Then the loop spins:
a call of `write` ends exactly when no short write comes to that (`ends_iff`).
-/

open CString Fallible

namespace WebServer

namespace HttpConn

/-- What `writev` does when it is offered `n` bytes. -/
def legit (n : ℕ) : Outcome → Bool
  | .accepted k => k ≤ n && (n == 0 || 1 ≤ k)
  | .again => 1 ≤ n
  | .error => 1 ≤ n

/-- The first `n` outcomes of a stream. -/
def firsts (os : ℕ → Outcome) (n : ℕ) : List Outcome := (List.range n).map os

/-- The call of `write` has not ended after `n` rounds of its loop, and comes to `d`. -/
def Reaches (c : HttpConn) (os : ℕ → Outcome) (n : ℕ) (d : HttpConn) : Prop :=
  c.writeLoop (firsts os n) = (d, none)

/-- A stream of outcomes for the rounds of a call of `write`. -/
def Legit (c : HttpConn) (os : ℕ → Outcome) : Prop :=
  ∀ n d, Reaches c os n d → legit d.offered.length (os n)

/-- The call of `write` ends. -/
def Ends (c : HttpConn) (os : ℕ → Outcome) : Prop :=
  ∃ n e, (c.writeLoop (firsts os n)).2 = some e

/-- There are bytes to send, and `writev` is offered none. -/
def Spins (c : HttpConn) : Prop := 0 < c.bytesToSend ∧ c.offered = []

/-- The response has a file, or the bytes taken are all that are left, or they end within
the first `iovec` as `write` sees it. -/
def Advances (c : HttpConn) : Outcome → Prop
  | .accepted k =>
    c.ivCount = 2 ∨ c.bytesToSend ≤ k ∨ c.bytesHaveSend + k < c.iv₀.len
  | .again => True
  | .error => True

/-! ### The rounds of a call -/

theorem writeLoop_concat {c d : HttpConn} {os : List Outcome} (h : c.writeLoop os = (d, none))
    (o : Outcome) :
  c.writeLoop (os ++ [o]) = d.writeRound o
  := by
  induction os generalizing c with
  | nil =>
      cases h
      rw [List.nil_append, writeLoop]
      rcases d.writeRound o with ⟨d', _ | e⟩
      · rfl
      · rfl
  | cons o' os ih =>
      rw [writeLoop] at h
      rw [List.cons_append, writeLoop]
      split at h
      next => exact ih h
      next => cases h

theorem writeLoop_concat_some {c d : HttpConn} {os : List Outcome} {e : WriteEnd}
    (h : c.writeLoop os = (d, some e)) (o : Outcome) :
  c.writeLoop (os ++ [o]) = (d, some e)
  := by
  induction os generalizing c with
  | nil => cases h
  | cons o' os ih =>
      rw [writeLoop] at h
      rw [List.cons_append, writeLoop]
      split at h
      next => exact ih h
      next => exact h

theorem firsts_succ (os : ℕ → Outcome) (n : ℕ) :
  firsts os (n + 1) = firsts os n ++ [os n]
  := by
  rw [firsts, firsts, List.range_succ, List.map_append]
  rfl

theorem reaches_zero (c : HttpConn) (os : ℕ → Outcome) :
  Reaches c os 0 c
  := rfl

/-- A round of the loop that does not end the call. -/
theorem Reaches.succ {c d d' : HttpConn} {os : ℕ → Outcome} {n : ℕ} (h : Reaches c os n d)
    (hround : d.writeRound (os n) = (d', none)) :
  Reaches c os (n + 1) d'
  := by
  rw [Reaches, firsts_succ, writeLoop_concat h]
  exact hround

/-- A call that has not ended after a round has not ended before it. -/
theorem reaches_succ_cases {c d' : HttpConn} {os : ℕ → Outcome} {n : ℕ}
    (h : Reaches c os (n + 1) d') :
  ∃ d, Reaches c os n d ∧ d.writeRound (os n) = (d', none)
  := by
  rw [Reaches, firsts_succ] at h
  rcases hloop : c.writeLoop (firsts os n) with ⟨d, _ | e⟩
  · rw [writeLoop_concat hloop] at h
    exact ⟨d, hloop, h⟩
  · rw [writeLoop_concat_some hloop] at h
    cases h

/-- A call that does not end comes to every round. -/
theorem not_ends_iff (c : HttpConn) (os : ℕ → Outcome) :
  ¬ Ends c os ↔ ∀ n, ∃ d, Reaches c os n d
  := by
  constructor
  · intro h n
    rcases hloop : c.writeLoop (firsts os n) with ⟨d, _ | e⟩
    · exact ⟨d, hloop⟩
    · apply absurd _ h
      exact ⟨n, e, by rw [hloop]⟩
  · rintro h ⟨n, e, hend⟩
    obtain ⟨d, hd⟩ := h n
    rw [hd] at hend
    cases hend

/-! ### What is offered -/

/-- The `iovec`s of a response that is not sent yet. -/
inductive Loaded (c : HttpConn) : Prop
  /-- The response has no file, and no more is offered than there is to send. -/
  | single : c.ivCount = 1 → (c.iv₀.len : ℤ) ≤ c.bytesToSend → Loaded c
  /-- The response has a file, of which something is offered. -/
  | file : c.ivCount = 2 → 0 < c.iv₁.len → c.bytesToSend < 2 ^ 31 → Loaded c

theorem offered_single {c : HttpConn} (h : c.ivCount = 1) :
  c.offered.length = c.iv₀.len
  := by
  rw [offered]
  rw [h]
  simp [Iovec.addresses]

theorem offered_file {c : HttpConn} (h : c.ivCount = 2) (hfile : 0 < c.iv₁.len) :
  c.offered ≠ []
  := by
  rw [← List.length_pos_iff, offered]
  rw [h]
  simp [Iovec.addresses]
  omega

/-- A response that `process_write` has prepared. -/
theorem processWrite_loaded {c c' : HttpConn} {ret : HttpCode}
    (h : c.processWrite ret = .ok (true, c')) :
  Loaded c'
  := by
  cases processWrite_replied h with
  | text _ hc' _ _ =>
      subst hc'
      exact .single rfl le_rfl
  | @file d hfilled hc' _ hsize =>
      subst hc'
      have hkept := hfilled.fileSize
      apply Loaded.file rfl
      · change 0 < d.fileSize
        omega
      · rw [useFile_bytesToSend]
        apply toInt32_lt

/-- A round of the loop keeps what is offered. -/
theorem Loaded.round {c d : HttpConn} {o : Outcome} (h : Loaded c)
    (hround : c.writeRound o = (d, none)) :
  Loaded d
  := by
  obtain ⟨k, rfl, hlt, rfl⟩ := writeRound_eq_none hround
  obtain ⟨-, hcount, hsend, hto⟩ := adjust_frame (c.count k)
  have hto' : (c.count k).adjust.bytesToSend = c.bytesToSend - k := hto
  have hlen : (c.count k).iv₀.len = c.iv₀.len := rfl
  cases h with
  | single hone hiv =>
      apply Loaded.single (hcount.trans hone)
      rcases Nat.lt_or_ge (c.count k).bytesHaveSend (c.count k).iv₀.len with hwithin | hpast
      · rw [(adjust_of_lt hwithin).1, hto']
        dsimp only
        rw [hlen, count_bytesHaveSend]
        omega
      · rw [(adjust_of_le hpast).1, hto']
        omega
  | file htwo hiv hbound =>
      apply Loaded.file (hcount.trans htwo)
      · rcases Nat.lt_or_ge (c.count k).bytesHaveSend (c.count k).iv₀.len with hwithin | hpast
        · rw [(adjust_of_lt hwithin).2]
          exact hiv
        · rw [(adjust_of_le hpast).2]
          change 0 < ((c.bytesToSend - k) % 2 ^ 64).toNat
          omega
      · rw [hto']
        omega

theorem Loaded.reaches {c d : HttpConn} {os : ℕ → Outcome} {n : ℕ} (h : Loaded c)
    (hreach : Reaches c os n d) :
  Loaded d
  := by
  induction n generalizing d with
  | zero =>
      cases hreach
      exact h
  | succ n ih =>
      obtain ⟨d', hd', hround⟩ := reaches_succ_cases hreach
      apply (ih hd').round hround

/-- Only a response without a file comes to spin. -/
theorem Loaded.spins {c : HttpConn} (h : Loaded c) (hspins : Spins c) :
  c.ivCount = 1 ∧ c.iv₀.len = 0
  := by
  obtain ⟨-, hnil⟩ := hspins
  cases h with
  | single hone _ =>
      rw [← offered_single hone, hnil]
      exact ⟨hone, rfl⟩
  | file htwo hiv _ => exact absurd hnil (offered_file htwo hiv)

/-- A short write that leaves nothing to offer. -/
theorem Loaded.spins_of_not_advances {c : HttpConn} {o : Outcome} (h : Loaded c)
    (ho : ¬ Advances c o) :
  ∃ d, c.writeRound o = (d, none) ∧ Spins d
  := by
  cases o with
  | again => exact absurd trivial ho
  | error => exact absurd trivial ho
  | accepted k =>
      rw [Advances, not_or, not_or, not_le, not_lt] at ho
      obtain ⟨hfile, hmore, hpast⟩ := ho
      cases h with
      | file htwo _ _ => exact absurd htwo hfile
      | single hone _ =>
          obtain ⟨-, hcount, -, hto⟩ := adjust_frame (c.count k)
          refine ⟨_, writeRound_of_lt hmore, ?_, ?_⟩
          · rw [hto]
            change 0 < c.bytesToSend - k
            omega
          · rw [← List.length_eq_zero_iff, offered_single (hcount.trans hone)]
            exact (adjust_of_le (c := c.count k) hpast).1

/-- Where nothing is offered, nothing is taken. -/
theorem Loaded.not_advances {c : HttpConn} {o : Outcome} (h : Loaded c) (hspins : Spins c)
    (ho : legit c.offered.length o) :
  ¬ Advances c o
  := by
  obtain ⟨hone, hzero⟩ := h.spins hspins
  obtain ⟨hpos, hnil⟩ := hspins
  rw [hnil] at ho
  cases o with
  | again => cases ho
  | error => cases ho
  | accepted k =>
      simp only [legit, List.length_nil, Bool.and_eq_true, decide_eq_true_eq] at ho
      rw [Advances, hone, hzero]
      omega

/-- A call that spins goes on to spin. -/
theorem Reaches.spins {c d : HttpConn} {os : ℕ → Outcome} {n : ℕ} (hloaded : Loaded c)
    (hlegit : Legit c os) (h : Reaches c os n d) (hspins : Spins d) (m : ℕ) :
  ∃ d', Reaches c os (n + m) d' ∧ Spins d'
  := by
  induction m with
  | zero => exact ⟨d, h, hspins⟩
  | succ m ih =>
      obtain ⟨d', hd', hspins'⟩ := ih
      have hd := hloaded.reaches hd'
      have hnot := hd.not_advances hspins' (hlegit _ d' hd')
      obtain ⟨d'', hround, hspins''⟩ := hd.spins_of_not_advances hnot
      exact ⟨d'', hd'.succ hround, hspins''⟩

theorem Reaches.of_add {c d : HttpConn} {os : ℕ → Outcome} {n m : ℕ}
    (h : Reaches c os (n + m) d) :
  ∃ d', Reaches c os n d'
  := by
  induction m generalizing d with
  | zero => exact ⟨d, h⟩
  | succ m ih =>
      obtain ⟨d', hd', -⟩ := reaches_succ_cases h
      exact ih hd'

/-- A call that spins does not end. -/
theorem Reaches.not_ends {c d : HttpConn} {os : ℕ → Outcome} {n : ℕ} (hloaded : Loaded c)
    (hlegit : Legit c os) (h : Reaches c os n d) (hspins : Spins d) :
  ¬ Ends c os
  := by
  rw [not_ends_iff]
  intro m
  obtain ⟨d', hd', -⟩ := h.spins hloaded hlegit hspins m
  rw [Nat.add_comm] at hd'
  exact hd'.of_add

/-- A round in which something is offered takes a byte, or ends the call. -/
theorem Reaches.decreases {c d d' : HttpConn} {os : ℕ → Outcome} {n : ℕ} (hlegit : Legit c os)
    (h : Reaches c os n d) (hspins : ¬ Spins d) (hround : d.writeRound (os n) = (d', none)) :
  0 < d'.bytesToSend ∧ d'.bytesToSend < d.bytesToSend
  := by
  obtain ⟨k, hk, hlt, rfl⟩ := writeRound_eq_none hround
  have ho := hlegit n d h
  have hoffered : d.offered.length ≠ 0 := by
    intro hnil
    apply hspins
    exact ⟨by omega, List.length_eq_zero_iff.mp hnil⟩
  rw [hk] at ho
  simp only [legit, Bool.and_eq_true, Bool.or_eq_true, decide_eq_true_eq, beq_iff_eq] at ho
  have hsend := (adjust_frame (d.count k)).2.2.2
  rw [hsend]
  change 0 < d.bytesToSend - k ∧ d.bytesToSend - k < d.bytesToSend
  omega

/-- A call that does not come to spin ends. -/
theorem ends_of_not_spins {c : HttpConn} {os : ℕ → Outcome} (hlegit : Legit c os)
    (hspins : ∀ n d, Reaches c os n d → ¬ Spins d) :
  Ends c os
  := by
  by_contra hends
  rw [not_ends_iff] at hends
  have hleft : ∀ n d, Reaches c os n d → d.bytesToSend ≤ c.bytesToSend - n := by
    intro n
    induction n with
    | zero =>
        intro d hd
        cases hd
        simp
    | succ n ih =>
        intro d' hd'
        obtain ⟨d, hd, hround⟩ := reaches_succ_cases hd'
        have hless := (hd.decreases hlegit (hspins n d hd) hround).2
        have hd₀ := ih d hd
        push_cast
        omega
  obtain ⟨d', hd'⟩ := hends (c.bytesToSend.toNat + 1)
  obtain ⟨d, hd, hround⟩ := reaches_succ_cases hd'
  have hpos := (hd.decreases hlegit (hspins _ d hd) hround).1
  have hlast := hleft _ d' hd'
  omega

/-- A call of `write` ends exactly when it does not come to a round in which nothing is
offered, and exactly when no short write leaves nothing to offer. -/
theorem Loaded.ends_iff {c : HttpConn} (h : Loaded c) {os : ℕ → Outcome} (hlegit : Legit c os) :
  (Ends c os ↔ ∀ n d, Reaches c os n d → ¬ Spins d) ∧
    (Ends c os ↔ ∀ n d, Reaches c os n d → Advances d (os n))
  := by
  have hspins : Ends c os ↔ ∀ n d, Reaches c os n d → ¬ Spins d := by
    constructor
    · intro hends n d hd hspins
      apply hd.not_ends h hlegit hspins hends
    · apply ends_of_not_spins hlegit
  refine ⟨hspins, ?_⟩
  constructor
  · intro hends n d hd
    by_contra hnot
    obtain ⟨d', hround, hd'⟩ := (h.reaches hd).spins_of_not_advances hnot
    apply hspins.mp hends (n + 1) d' (hd.succ hround) hd'
  · intro hadvances
    rw [hspins]
    intro n d hd hspins'
    apply (h.reaches hd).not_advances hspins' (hlegit n d hd) (hadvances n d hd)

end HttpConn

namespace Sending

open HttpConn

/-! ### Calls of `write` -/

/-- What is to be sent is loaded as long as sending is not over. -/
def Pending (s : Sending) : Prop := s.exit = none → Loaded s.conn

theorem enter_pending {c : HttpConn} (h : Loaded c) (sent : List Address) :
  (enter c sent).Pending
  := by
  rw [enter]
  split
  · rintro ⟨⟩
  · intro _
    exact h

theorem Pending.step {s s' : Sending} {o : Outcome} (h : s.Pending) (hs : step s o = some s') :
  s'.Pending
  := by
  rw [Sending.step] at hs
  split at hs
  next hpossible =>
    obtain rfl := Option.some.inj hs
    have hloaded := h hpossible.1
    rcases hround : s.conn.writeRound o with ⟨d, _ | e⟩
    · intro _
      apply hloaded.round hround
    · by_cases hagain : e = .again
      · subst hagain
        have ho := writeRound_eq_again hround
        rw [ho] at hround
        cases hround
        apply enter_pending hloaded
      · rw [after_of_ne_again _ _ (fun he => hagain (Option.some.inj he))]
        rintro ⟨⟩
  next => cases hs

/-- Every call of `write` for a response that was prepared ends exactly when it does not
come to a round in which nothing is offered, and exactly when no short write leaves
nothing to offer. -/
theorem write_ends_iff {c₀ c : HttpConn} {ret : HttpCode} {es : List Outcome} {s : Sending}
    {os : ℕ → Outcome} (hprepared : c₀.processWrite ret = .ok (true, c))
    (hrun : Run.exec step (enter c []) es = some s) (hexit : s.exit = none)
    (hlegit : Legit s.conn os) :
  (Ends s.conn os ↔ ∀ n d, Reaches s.conn os n d → ¬ Spins d) ∧
    (Ends s.conn os ↔ ∀ n d, Reaches s.conn os n d → Advances d (os n))
  := by
  have hpending := Run.exec_preserves (fun _ _ _ h hs => Pending.step h hs)
    (enter_pending (processWrite_loaded hprepared) []) hrun
  apply (hpending hexit).ends_iff hlegit

/-- A stream whose first outcome takes all that is to be sent. -/
theorem legit_all {c : HttpConn} {k : ℕ} (hk : legit c.offered.length (.accepted k))
    (hall : c.bytesToSend ≤ k) :
  Legit c fun _ => .accepted k
  := by
  intro n d hd
  cases n with
  | zero =>
      cases hd
      exact hk
  | succ n =>
      rw [Nat.add_comm] at hd
      obtain ⟨d', hd'⟩ := hd.of_add
      obtain ⟨c', hc', hround⟩ := reaches_succ_cases (n := 0) hd'
      cases hc'
      obtain ⟨k', hk', hlt, -⟩ := writeRound_eq_none hround
      cases hk'
      omega

/-- The stream that takes `k` bytes and then nothing. -/
def stall (k : ℕ) : ℕ → Outcome
  | 0 => .accepted k
  | _ + 1 => .accepted 0

/-- The stream that takes nothing behind a short write that leaves nothing to offer. -/
theorem legit_stall {c : HttpConn} {k : ℕ} (hone : c.ivCount = 1)
    (hk : legit c.offered.length (.accepted k)) (hpast : c.iv₀.len ≤ c.bytesHaveSend + k) :
  Legit c (stall k)
  := by
  have hempty : ∀ n d, Reaches c (stall k) (n + 1) d → d.ivCount = 1 ∧ d.iv₀.len = 0 := by
    intro n
    induction n with
    | zero =>
        intro d hd
        obtain ⟨c', hc', hround⟩ := reaches_succ_cases hd
        cases hc'
        obtain ⟨k', hk', -, rfl⟩ := writeRound_eq_none hround
        cases hk'
        exact ⟨(adjust_frame (c.count k)).2.1.trans hone, (adjust_of_le (c := c.count k) hpast).1⟩
    | succ n ih =>
        intro d hd
        obtain ⟨d', hd', hround⟩ := reaches_succ_cases hd
        obtain ⟨hone', hzero⟩ := ih d' hd'
        obtain ⟨k', -, -, rfl⟩ := writeRound_eq_none hround
        refine ⟨(adjust_frame (d'.count k')).2.1.trans hone', (adjust_of_le ?_).1⟩
        change d'.iv₀.len ≤ _
        omega
  intro n d hd
  cases n with
  | zero =>
      cases hd
      exact hk
  | succ n =>
      obtain ⟨hone', hzero⟩ := hempty n d hd
      rw [offered_single hone', hzero]
      rfl

/-- The connection with the response to a bad request prepared. -/
def rejected : HttpConn :=
  (((forFile 0).processWrite .badRequest).toOption.map Prod.snd).getD (forFile 0)

theorem processWrite_rejected :
  (forFile 0).processWrite .badRequest = .ok (true, rejected)
  := by
  obtain ⟨c, hc⟩ := exists_of_map_fst (x := (forFile 0).processWrite .badRequest) (c := true)
    (by decide)
  rw [rejected, hc]
  rfl

set_option maxRecDepth 10000 in
/-- A response of 112 bytes, of which `writev` takes 10 and then, in another call of
`write`, the rest. -/
theorem write_ends_iff_rejected :
  Ends ((Run.exec step (enter rejected []) [.accepted 10, .again]).get (by decide)).conn
      (fun _ => .accepted 102) ↔
    ∀ n d, Reaches ((Run.exec step (enter rejected []) [.accepted 10, .again]).get (by decide)).conn
      (fun _ => .accepted 102) n d → Advances d (.accepted 102)
  := (write_ends_iff processWrite_rejected (Option.some_get _).symm (by decide)
    (legit_all (by decide) (by decide))).2

set_option maxRecDepth 10000 in
/-- `writev` takes 60 bytes of a response of 112 and then one byte: the loop of `write`
goes on without offering anything. -/
theorem not_write_ends :
  ¬ ∀ (c₀ c : HttpConn) (ret : HttpCode) (es : List Outcome) (s : Sending) (os : ℕ → Outcome),
    c₀.bytesHaveSend = 0 → c₀.processWrite ret = .ok (true, c) →
      Run.exec step (enter c []) es = some s → s.exit = none → Legit s.conn os → Ends s.conn os
  := by
  intro h
  have hends := h (forFile 0) rejected .badRequest [.accepted 60]
    ((Run.exec step (enter rejected []) [.accepted 60]).get (by decide)) (stall 1) rfl
    processWrite_rejected (Option.some_get _).symm (by decide)
    (legit_stall (by decide) (by decide) (by decide))
  have hloaded : Loaded ((Run.exec step (enter rejected []) [.accepted 60]).get (by decide)).conn :=
    .single (by decide) (by decide)
  have hadvances := ((hloaded.ends_iff
    (legit_stall (by decide) (by decide) (by decide))).2.mp hends) 0 _ (reaches_zero _ _)
  revert hadvances
  change ¬ (_ ∨ _ ∨ _)
  decide

end Sending

end WebServer
