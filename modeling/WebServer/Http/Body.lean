import WebServer.Http.Request

/-!
# Requests whose body arrives in pieces

In the state `CHECK_STATE_CONTENT` the loop of `process_read` calls `parse_content` for
what was read of the body.  When the body is not complete, `line_status` is set to
`LINE_OPEN` to leave the loop; but the condition of the loop then calls `parse_line`, on
the bytes of the body.  It moves `m_check_index`, from which `parse_content` measures the
body the next time, unless the bytes park it where it stands.

A request is delivered exactly when every call made with a part of the body finds that
part `parked` (`delivers_iff`).
-/

open CString Fallible

namespace WebServer

namespace Parser

/-! ### The parser in a body -/

/-- The parser stands at the beginning `k` of a body of `n` bytes of which `got` was
read. -/
structure InBody (c : Parser) (k n : ℕ) (got : List UInt8) : Prop where
  checkState : c.checkState = .content
  startLine : c.startLine = k
  checkIndex : c.checkIndex = k
  readIndex : c.readIndex = k + got.length
  contentLength : c.contentLength = n
  spells : Spells c.readBuf k got
  nul : ∀ i, i + 1 = k → c.readBuf i = 0
  room : k + n < readBuffSize

theorem InBody.nextLine {c : Parser} {k n : ℕ} {got : List UInt8} (h : InBody c k n got) :
  c.nextLine = c
  := by
  have hstart := h.checkIndex.trans h.startLine.symm
  cases c
  dsimp only at hstart
  subst hstart
  rfl

theorem InBody.receive {c : Parser} {k n : ℕ} {got : List UInt8} (h : InBody c k n got)
    (bs : List UInt8) :
  InBody (c.receive bs) k n (got ++ bs)
  where
  checkState := h.checkState
  startLine := h.startLine
  checkIndex := h.checkIndex
  readIndex := by rw [receive_readIndex, h.readIndex, List.length_append, Nat.add_assoc]
  contentLength := h.contentLength
  spells := by
    rw [spells_append]
    constructor
    · apply h.spells.congr
      intro i _ hi
      apply readBuf_receive
      rw [h.readIndex]
      exact hi
    · rw [← h.readIndex]
      apply spells_receive
  nul := by
    intro i hi
    rw [readBuf_receive _ _ (by rw [h.readIndex]; omega)]
    apply h.nul i hi
  room := h.room

theorem readPass_of_content {c : Parser} (hc : c.checkState = .content) :
  c.readPass = (c.nextLine.parseContent c.startLine >>= fun r =>
    .ok (passOf .content r.1, r.2))
  := by
  have hc' : c.nextLine.checkState = .content := hc
  rw [readPass, parseText_content hc', hc]

/-- The parser with the body of `n` bytes at `k` found. -/
def bodyFound (c : Parser) (k n : ℕ) : Parser := { c.put (k + n) 0 with string := some k }

/-- A body that is complete is handed to `do_request`. -/
theorem InBody.complete {c : Parser} {k n : ℕ} {got : List UInt8} (h : InBody c k n got)
    (hgot : n ≤ got.length) :
  c.processRead = .ok (.doRequest, c.bodyFound k n) ∧
    Spells (c.bodyFound k n).readBuf k (got.take n) ∧ (c.bodyFound k n).readBuf (k + n) = 0
  := by
  have hroom := h.room
  have hsize : readBuffSize = 2048 := rfl
  have hparse : c.parseContent k = .ok (.getRequest, c.bodyFound k n) := by
    rw [parseContent, h.checkIndex, h.contentLength, h.readIndex, if_neg (by omega),
      if_pos (by omega), ← Nat.cast_add, store_of_lt _ _ h.room]
    rfl
  have hpass : c.readPass = .ok (.exit .doRequest, c.bodyFound k n) := by
    rw [readPass_of_content h.checkState, h.nextLine, h.startLine, hparse]
    rfl
  refine ⟨?_, ?_, Function.update_self _ _ _⟩
  · apply Loop.whileLoop_inr
    rw [readLine_content h.checkState, hpass]
    rfl
  · have hspells := h.spells
    rw [← List.take_append_drop n got, spells_append] at hspells
    apply hspells.1.congr
    intro i _ hi
    rw [List.length_take, Nat.min_eq_left hgot] at hi
    apply Function.update_of_ne (Nat.ne_of_lt hi)

/-! ### The call of `parse_line` on a part of a body -/

/-- The bytes of a body on which `parse_line` stays where it is: none, a line feed, a
carriage return at the end or a carriage return that no line feed follows. -/
def parked : List UInt8 → Bool
  | [] => true
  | b :: s => !isPlain b && !(b == 13 && s.head? == some 10)

/-- The parser waits for the rest of a body of `n` bytes. -/
structure Waiting (c : Parser) (n : ℕ) : Prop where
  checkState : c.checkState = .content
  contentLength : c.contentLength = n
  check_le : c.checkIndex ≤ c.readIndex
  short : c.readIndex < c.checkIndex + n
  room : c.readIndex < readBuffSize
  length_lt : n < readBuffSize

theorem InBody.waiting {c : Parser} {k n : ℕ} {got : List UInt8} (h : InBody c k n got)
    (hgot : got.length < n) :
  Waiting c n
  := by
  have hcheck := h.checkIndex
  have hread := h.readIndex
  have hroom := h.room
  exact ⟨h.checkState, h.contentLength, by omega, by omega, by omega, by omega⟩

/-- A pass at a body that is not complete. -/
theorem Waiting.readPass {c : Parser} {n : ℕ} (h : Waiting c n) :
  c.readPass = .ok (.again .lineOpen, c.nextLine)
  := by
  have hcheck := h.check_le
  have hroom := h.room
  have hlength := h.length_lt
  have hshort := h.short
  have hsize : readBuffSize = 2048 := rfl
  have hparse : c.nextLine.parseContent c.startLine = .ok (.noRequest, c.nextLine) := by
    rw [parseContent]
    change (if (c.checkIndex : ℤ) + c.contentLength < _ ∨ _ ≤ (c.checkIndex : ℤ) + c.contentLength
      then _ else if (c.readIndex : ℤ) ≥ c.checkIndex + c.contentLength then _ else _) = _
    rw [h.contentLength, if_neg (by omega), if_neg (by omega)]
  rw [readPass_of_content h.checkState, hparse]
  rfl

/-- The parser `c'` is `c` with `m_check_index` elsewhere and some bytes overwritten by
NULs. -/
structure Scanned (c c' : Parser) : Prop where
  frame : c' = { c with readBuf := c'.readBuf, checkIndex := c'.checkIndex }
  bytes : ∀ i, c'.readBuf i = c.readBuf i ∨ c'.readBuf i = 0

theorem Scanned.refl (c : Parser) :
  Scanned c c
  := ⟨rfl, fun _ => .inl rfl⟩

theorem Scanned.closed (c : Parser) (i j k : ℕ) :
  Scanned c { (c.put i 0).put j 0 with checkIndex := k }
  where
  frame := rfl
  bytes := by
    intro n
    change Function.update (Function.update _ i 0) j 0 n = _ ∨ Function.update _ j 0 n = 0
    by_cases hj : n = j
    · right
      rw [hj, Function.update_self]
    · rw [Function.update_of_ne hj, Function.update_of_ne hj]
      by_cases hi : n = i
      · right
        subst hi
        apply Function.update_self
      · left
        apply Function.update_of_ne hi

/-- `parse_line` moves `m_check_index` and stores NULs, and does nothing else. -/
theorem parseLine_scanned {c c' : Parser} {status : LineStatus}
    (hread : c.readIndex ≤ readBuffSize) (h : c.parseLine = .ok (status, c')) :
  Scanned c c'
  := by
  revert hread h
  apply parseLine_rule (P := fun c r => c.readIndex ≤ readBuffSize →
    r = .ok (status, c') → Scanned c c')
  · intro c r _ _ ih hread h
    obtain ⟨hframe, hbytes⟩ := ih hread h
    exact ⟨hframe, hbytes⟩
  · intro c _ hread h
    rcases endLine_cases c with ⟨hlt, hcr, hlf⟩ | ⟨hlt, hcr, hlf⟩ | ⟨status', -, hs⟩
    · rw [endLine_crlf hread hlt hcr hlf] at h
      cases h
      apply Scanned.closed
    · rw [endLine_lf hread hlt hcr hlf] at h
      cases h
      apply Scanned.closed
    · rw [hs] at h
      cases h
      apply Scanned.refl

/-- `parse_line` does not move `m_check_index` past what was read. -/
theorem parseLine_le {c c' : Parser} {status : LineStatus}
    (hread : c.readIndex ≤ readBuffSize) (hle : c.checkIndex ≤ c.readIndex)
    (h : c.parseLine = .ok (status, c')) :
  c'.checkIndex ≤ c'.readIndex
  := by
  revert hread hle h
  apply parseLine_rule (P := fun c r => c.readIndex ≤ readBuffSize → c.checkIndex ≤ c.readIndex →
    r = .ok (status, c') → c'.checkIndex ≤ c'.readIndex)
  · intro c r hlt _ ih hread _ h
    apply ih hread hlt h
  · intro c _ hread hle h
    rcases endLine_cases c with ⟨hlt, hcr, hlf⟩ | ⟨hlt, hcr, hlf⟩ | ⟨status', -, hs⟩
    · rw [endLine_crlf hread hlt hcr hlf] at h
      cases h
      exact hlt
    · rw [endLine_lf hread hlt hcr hlf] at h
      cases h
      exact hlt
    · rw [hs] at h
      cases h
      exact hle

/-- After `parse_line` the parser waits as before, at the same place or further on. -/
theorem Waiting.parseLine {c c' : Parser} {n : ℕ} {status : LineStatus} (h : Waiting c n)
    (hl : c.parseLine = .ok (status, c')) :
  Waiting c' n ∧ c.checkIndex ≤ c'.checkIndex ∧ c'.readIndex = c.readIndex
  := by
  obtain ⟨hread, -, hle, -⟩ := parseLine_indices c hl
  have hscanned := parseLine_scanned (Nat.le_of_lt h.room) hl
  have hstate : c'.checkState = c.checkState := by rw [hscanned.frame]
  have hlength : c'.contentLength = c.contentLength := by rw [hscanned.frame]
  have hshort := h.short
  have hroom := h.room
  have hle' := parseLine_le (Nat.le_of_lt h.room) h.check_le hl
  exact ⟨⟨hstate.trans h.checkState, hlength.trans h.contentLength, hle', by omega, by omega,
    h.length_lt⟩, hle, hread⟩

theorem Waiting.nextLine {c : Parser} {n : ℕ} (h : Waiting c n) :
  Waiting c.nextLine n
  := { h with }

/-- A round of `process_read` at a body that is not complete leaves the function, or
goes on at the same place or further on. -/
theorem Waiting.readLine_cases {c : Parser} {n : ℕ} (h : Waiting c n) (status : LineStatus) :
  ∃ c', Waiting c' n ∧ c.checkIndex ≤ c'.checkIndex ∧ c'.readIndex = c.readIndex ∧
    (readLine (c, status) = .inl (c', .lineOpen) ∨
      readLine (c, status) = .inr (.ok (.returned .noRequest, c')))
  := by
  by_cases hstatus : status = .lineOk
  · use c.nextLine, h.nextLine, le_rfl, rfl
    left
    rw [hstatus, readLine_content h.checkState, h.readPass]
    rfl
  · obtain ⟨status', d, hd⟩ := parseLine_ok c (Nat.le_of_lt h.room)
    obtain ⟨hwait, hle, hread⟩ := h.parseLine hd
    by_cases hok : status' = .lineOk
    · use d.nextLine, hwait.nextLine, hle, hread
      left
      rw [hok] at hd
      rw [readLine_line (fun hh => hstatus hh.2) hd, hwait.readPass]
      rfl
    · use d, hwait, hle, hread
      right
      apply readLine_wait (fun hh => hstatus hh.2) hd hok

/-- While a body is not complete the loop of `process_read` is left with `NO_REQUEST`. -/
theorem Waiting.rounds {c : Parser} {n : ℕ} (h : Waiting c n) (status : LineStatus) :
  ∃ c', Loop.whileLoop readLine_decreases (c, status) = .ok (.returned .noRequest, c') ∧
    Waiting c' n ∧ c.checkIndex ≤ c'.checkIndex ∧ c'.readIndex = c.readIndex
  := by
  refine Loop.whileLoop_invariant readLine_decreases (I := fun s => Waiting s.1 n)
    (P := fun s r => ∃ c', r = .ok (.returned .noRequest, c') ∧ Waiting c' n ∧
      s.1.checkIndex ≤ c'.checkIndex ∧ c'.readIndex = s.1.readIndex) ?_ ?_ ?_ h
  · rintro ⟨c, status⟩ ⟨c', status'⟩ h hr
    obtain ⟨d, hd, -, -, hround | hround⟩ := h.readLine_cases status
    · cases hround.symm.trans hr
      exact hd
    · cases hround.symm.trans hr
  · rintro ⟨c, status⟩ ⟨c', status'⟩ r h hr ⟨d, hrd, hd, hle, hread⟩
    use d, hrd, hd
    obtain ⟨d', -, hle', hread', hround | hround⟩ := h.readLine_cases status
    · cases hround.symm.trans hr
      exact ⟨hle'.trans hle, hread.trans hread'⟩
    · cases hround.symm.trans hr
  · rintro ⟨c, status⟩ r h hr
    obtain ⟨d, hd, hle, hread, hround | hround⟩ := h.readLine_cases status
    · cases hround.symm.trans hr
    · cases hround.symm.trans hr
      exact ⟨d, rfl, hd, hle, hread⟩

theorem parked_cons (b : UInt8) (s : List UInt8) :
  parked (b :: s) = (!isPlain b && !(b == 13 && s.head? == some 10))
  := rfl

/-- On a parked part of a body `parse_line` does nothing. -/
theorem InBody.parseLine_parked {c : Parser} {k n : ℕ} {got : List UInt8}
    (h : InBody c k n got) (hgot : parked got = true) :
  ∃ status, status ≠ .lineOk ∧ c.parseLine = .ok (status, c)
  := by
  have hend : c.parseLine = c.endLine := by
    apply parseLine_stop
    rw [h.checkIndex, h.readIndex]
    rintro ⟨hlt, hplain⟩
    cases got with
    | nil => exact absurd hlt (Nat.lt_irrefl _)
    | cons b s =>
        rw [h.spells.1] at hplain
        rw [parked_cons, hplain] at hgot
        cases hgot
  rw [hend]
  rcases endLine_cases c with ⟨hlt, hcr, hlf⟩ | ⟨hlt, hcr, h1, hlf⟩ | hstop
  · exfalso
    rw [h.checkIndex] at hlt hcr hlf
    rw [h.readIndex] at hlt
    cases got with
    | nil => exact absurd hlt (by simp)
    | cons b s =>
        cases s with
        | nil => exact absurd hlt (Nat.lt_irrefl _)
        | cons b' s =>
            rw [parked_cons, ← h.spells.1, hcr, List.head?_cons, ← h.spells.2.1, hlf] at hgot
            cases hgot
  · exfalso
    rw [h.checkIndex] at h1 hlf
    rw [h.nul (k - 1) (by omega)] at hlf
    cases hlf
  · exact hstop

/-- On a part of a body that is not parked `parse_line` moves on. -/
theorem InBody.parseLine_moves {c c' : Parser} {k n : ℕ} {got : List UInt8}
    {status : LineStatus} (h : InBody c k n got) (hgot : parked got = false)
    (hl : c.parseLine = .ok (status, c')) (hread : c.readIndex ≤ readBuffSize) :
  k < c'.checkIndex
  := by
  cases got with
  | nil => cases hgot
  | cons b s =>
      have hlt : c.checkIndex < c.readIndex := by
        rw [h.checkIndex, h.readIndex, List.length_cons]
        omega
      have hb : c.readBuf c.checkIndex = b := h.checkIndex ▸ h.spells.1
      cases hplain : isPlain b with
      | true =>
          rw [parseLine_plain hlt (by rw [hb, hplain])] at hl
          have hle := (parseLine_indices _ hl).2.2.1
          dsimp only at hle
          rw [h.checkIndex] at hle
          exact hle
      | false =>
          rw [parked_cons, hplain, Bool.not_false, Bool.true_and, Bool.not_eq_false',
            Bool.and_eq_true] at hgot
          obtain ⟨h13, h10⟩ := hgot
          obtain ⟨s, rfl⟩ := List.head?_eq_some_iff.mp (eq_of_beq h10)
          have hcr : c.readBuf c.checkIndex = 13 := hb.trans (eq_of_beq h13)
          have hlf : c.readBuf (c.checkIndex + 1) = 10 := by
            rw [h.checkIndex]
            apply h.spells.2.1
          have hlt' : c.checkIndex + 1 < c.readIndex := by
            rw [h.checkIndex, h.readIndex, List.length_cons, List.length_cons]
            omega
          rw [parseLine_stop, endLine_crlf hread hlt' hcr hlf] at hl
          · cases hl
            change k < c.checkIndex + 2
            rw [h.checkIndex]
            omega
          · rw [hcr]
            rintro ⟨-, ⟨⟩⟩

/-- A call with a parked part of a body leaves the parser as it is. -/
theorem InBody.processRead_parked {c : Parser} {k n : ℕ} {got : List UInt8}
    (h : InBody c k n got) (hlen : got.length < n) (hgot : parked got = true) :
  c.processRead = .ok (.returned .noRequest, c)
  := by
  have hfirst : readLine (c, .lineOk) = .inl (c, .lineOpen) := by
    rw [readLine_content h.checkState, (h.waiting hlen).readPass, h.nextLine]
    rfl
  obtain ⟨status, hstatus, hl⟩ := h.parseLine_parked hgot
  rw [processRead, Loop.whileLoop_inl _ hfirst]
  apply Loop.whileLoop_inr
  rw [readLine, if_neg (fun hh => by cases hh.2)]
  dsimp only
  rw [hl]
  cases status with
  | lineOk => exact absurd rfl hstatus
  | lineBad => rfl
  | lineOpen => rfl

/-- A call with any other part of a body moves `m_check_index` into the body. -/
theorem InBody.processRead_moves {c : Parser} {k n : ℕ} {got : List UInt8}
    (h : InBody c k n got) (hlen : got.length < n) (hgot : parked got = false) :
  ∃ c', c.processRead = .ok (.returned .noRequest, c') ∧ Waiting c' n ∧ k < c'.checkIndex ∧
    c'.readIndex = c.readIndex
  := by
  have hwait := h.waiting hlen
  have hfirst : readLine (c, .lineOk) = .inl (c, .lineOpen) := by
    rw [readLine_content h.checkState, hwait.readPass, h.nextLine]
    rfl
  obtain ⟨status, d, hl⟩ := parseLine_ok c (Nat.le_of_lt hwait.room)
  have hmoves := h.parseLine_moves hgot hl (Nat.le_of_lt hwait.room)
  obtain ⟨hd, -, hread⟩ := hwait.parseLine hl
  rw [processRead, Loop.whileLoop_inl _ hfirst]
  by_cases hok : status = .lineOk
  · have hs : readLine (c, .lineOpen) = .inl (d.nextLine, .lineOpen) := by
      rw [hok] at hl
      rw [readLine_line (fun hh => by cases hh.2) hl, hd.readPass]
      rfl
    rw [Loop.whileLoop_inl _ hs]
    obtain ⟨c', hc', hwait', hle, hread'⟩ := hd.nextLine.rounds .lineOpen
    exact ⟨c', hc', hwait', Nat.lt_of_lt_of_le hmoves hle, hread'.trans hread⟩
  · have hs : readLine (c, .lineOpen) = .inr (.ok (.returned .noRequest, d)) :=
      readLine_wait (fun hh => by cases hh.2) hl hok
    exact ⟨d, Loop.whileLoop_inr _ hs, hd, hmoves, hread⟩

/-! ### The calls of `process_read` -/

/-- The results of `process_read`, which runs after each of the chunks. -/
def calls (c : Parser) : List (List UInt8) → Except Fault (List ReadExit × Parser)
  | [] => .ok ([], c)
  | chunk :: chunks => do
    let (e, c) ← (c.receive chunk).processRead
    let (es, c) ← c.calls chunks
    .ok (e :: es, c)

theorem calls_cons {c d : Parser} {chunk : List UInt8} {e : ReadExit}
    (h : (c.receive chunk).processRead = .ok (e, d)) {chunks : List (List UInt8)}
    {es : List ReadExit} {c' : Parser} (hs : d.calls chunks = .ok (es, c')) :
  c.calls (chunk :: chunks) = .ok (e :: es, c')
  := by
  rw [calls, h, ok_bind]
  dsimp only
  rw [hs]
  rfl

/-- Calls that wait. -/
theorem Waits.calls {c d c' : Parser} {pre post : List (List UInt8)} {es : List ReadExit}
    (h : Waits c pre d) (hs : d.calls post = .ok (es, c')) :
  c.calls (pre ++ post)
    = .ok (List.replicate pre.length (.returned .noRequest) ++ es, c')
  := by
  induction pre generalizing c with
  | nil =>
      obtain rfl : d = c := h
      exact hs
  | cons chunk pre ih =>
      obtain ⟨d', -, hcall, hrest⟩ := h
      apply calls_cons hcall (ih hrest)

/-- Once `m_check_index` has moved into a body of `n` bytes, the body is never
delivered. -/
theorem Waiting.calls {c : Parser} {k n : ℕ} (h : Waiting c n) (hmoved : k < c.checkIndex)
    {post : List (List UInt8)} (hread : c.readIndex + post.flatten.length = k + n)
    (hroom : k + n < readBuffSize) :
  ∃ c', c.calls post = .ok (List.replicate post.length (.returned .noRequest), c')
  := by
  induction post generalizing c with
  | nil => exact ⟨c, rfl⟩
  | cons chunk post ih =>
      rw [List.flatten_cons, List.length_append] at hread
      have hcheck := h.check_le
      have hwait : Waiting (c.receive chunk) n := by
        refine ⟨h.checkState, h.contentLength, ?_, ?_, ?_, h.length_lt⟩
        · apply Nat.le_add_right_of_le hcheck
        · change c.readIndex + chunk.length < c.checkIndex + n
          omega
        · change c.readIndex + chunk.length < readBuffSize
          omega
      obtain ⟨d, hcall, hd, hle, hread'⟩ := hwait.rounds .lineOk
      rw [receive_readIndex] at hread'
      obtain ⟨c', hc'⟩ := ih hd (Nat.lt_of_lt_of_le hmoved hle) (by omega)
      exact ⟨c', calls_cons hcall hc'⟩

/-- Every call made while the body is not complete finds what was read of it parked. -/
def StaysParked (got : List UInt8) : List (List UInt8) → Prop
  | [] => True
  | chunk :: post => parked got = true ∧ StaysParked (got ++ chunk) post

/-- The first call at a body and those that follow it. -/
theorem InBody.calls {c : Parser} {k n : ℕ} {got : List UInt8} (h : InBody c k n got)
    {post : List (List UInt8)} (hne : ∀ chunk ∈ post, chunk ≠ [])
    (hlen : got.length + post.flatten.length = n) :
  ∃ e d es c', c.processRead = .ok (e, d) ∧ d.calls post = .ok (es, c') ∧
    (StaysParked got post →
      e :: es = List.replicate post.length (.returned .noRequest) ++ [.doRequest] ∧
        c'.string = some k ∧ Spells c'.readBuf k (got ++ post.flatten) ∧ c'.readBuf (k + n) = 0) ∧
    (¬ StaysParked got post →
      e :: es = List.replicate (post.length + 1) (.returned .noRequest))
  := by
  induction post generalizing c got with
  | nil =>
      rw [List.flatten_nil, List.length_nil, Nat.add_zero] at hlen
      obtain ⟨hd, hspells, hnul⟩ := h.complete hlen.ge
      rw [List.take_of_length_le hlen.le] at hspells
      refine ⟨_, _, [], _, hd, rfl, ?_, fun hpark => absurd trivial hpark⟩
      intro _
      rw [List.flatten_nil, List.append_nil]
      exact ⟨rfl, rfl, hspells, hnul⟩
  | cons chunk post ih =>
      rw [List.forall_mem_cons] at hne
      rw [List.flatten_cons, List.length_append] at hlen
      have hpos := List.length_pos_of_ne_nil hne.1
      have hshort : got.length < n := by omega
      cases hgot : parked got with
      | true =>
          have hcall := h.processRead_parked hshort hgot
          obtain ⟨e, d, es, c', hcall', hcalls, hparked, hmoved⟩ :=
            ih (h.receive chunk) hne.2 (by rw [List.length_append]; omega)
          refine ⟨_, c, e :: es, c', hcall, calls_cons hcall' hcalls, ?_, ?_⟩
          · rintro ⟨-, hpark⟩
            obtain ⟨hes, hrest⟩ := hparked hpark
            rw [List.flatten_cons, ← List.append_assoc, hes]
            exact ⟨rfl, hrest⟩
          · intro hpark
            rw [hmoved (fun hpark' => hpark ⟨hgot, hpark'⟩)]
            rfl
      | false =>
          obtain ⟨d, hcall, hd, hlt, hread⟩ := h.processRead_moves hshort hgot
          have hread' : d.readIndex + (chunk :: post).flatten.length = k + n := by
            rw [hread, h.readIndex, List.flatten_cons, List.length_append]
            omega
          obtain ⟨c', hc'⟩ := hd.calls hlt hread' h.room
          refine ⟨_, d, _, c', hcall, hc', ?_, fun _ => rfl⟩
          rintro ⟨hpark, -⟩
          rw [hgot] at hpark
          cases hpark

/-! ### Delivery -/

/-- The calls of `process_read` after the chunks deliver a request with the body `body`:
every call but the last returns `NO_REQUEST`, the last one hands the request to
`do_request`, and `m_string` then points to the body and the NUL that ends it. -/
def Delivers (chunks : List (List UInt8)) (body : List UInt8) : Prop :=
  ∃ c p, init.calls chunks
      = .ok (List.replicate (chunks.length - 1) (.returned .noRequest) ++ [.doRequest], c) ∧
    c.string = some p ∧ Spells c.readBuf p body ∧ c.readBuf (p + body.length) = 0

/-- No call is made with a part of the body that is not parked. -/
def Undisturbed (q : Request) (chunks : List (List UInt8)) : Prop :=
  ∀ pre post, chunks = pre ++ post → post ≠ [] →
    parked (pre.flatten.drop q.head.length) = true

theorem staysParked_iff {got : List UInt8} {post : List (List UInt8)} :
  StaysParked got post ↔
    ∀ mid rest, post = mid ++ rest → rest ≠ [] → parked (got ++ mid.flatten) = true
  := by
  induction post generalizing got with
  | nil =>
      refine ⟨fun _ mid rest h hne => ?_, fun _ => trivial⟩
      apply absurd (List.append_eq_nil_iff.mp h.symm).2 hne
  | cons chunk post ih =>
      rw [StaysParked, ih]
      constructor
      · rintro ⟨hgot, hpost⟩ mid rest h hne
        cases mid with
        | nil => rwa [List.flatten_nil, List.append_nil]
        | cons chunk' mid =>
            obtain ⟨rfl, h'⟩ := List.cons.inj h
            rw [List.flatten_cons, ← List.append_assoc]
            apply hpost mid rest h' hne
      · intro h
        constructor
        · have := h [] (chunk :: post) rfl (List.cons_ne_nil _ _)
          rwa [List.flatten_nil, List.append_nil] at this
        · rintro mid rest rfl hne
          have := h (chunk :: mid) rest rfl hne
          rwa [List.flatten_cons, ← List.append_assoc] at this

/-- The calls before the head is complete are made without a part of the body. -/
theorem undisturbed_iff {q : Request} {pre post : List (List UInt8)} {chunk got : List UInt8}
    (hpre : pre.flatten.length ≤ q.head.length)
    (hgot : pre.flatten ++ chunk = q.head ++ got) :
  Undisturbed q (pre ++ chunk :: post) ↔ StaysParked got post
  := by
  rw [staysParked_iff]
  have hdrop (mid : List (List UInt8)) :
      (pre ++ chunk :: mid).flatten.drop q.head.length = got ++ mid.flatten := by
    rw [List.flatten_append, List.flatten_cons, ← List.append_assoc, hgot, List.append_assoc,
      List.drop_left]
  constructor
  · rintro h mid rest rfl hne
    rw [← hdrop]
    apply h (pre ++ chunk :: mid) rest (by simp) hne
  · intro h pre' post' heq hne
    have head {chunks : List (List UInt8)} (hle : chunks.flatten.length ≤ q.head.length) :
        parked (chunks.flatten.drop q.head.length) = true := by
      rw [List.drop_eq_nil_of_le hle]
      rfl
    rcases List.append_eq_append_iff.mp heq with ⟨as, rfl, has⟩ | ⟨as, rfl, -⟩
    · cases as with
      | nil =>
          rw [List.append_nil]
          apply head hpre
      | cons chunk' mid =>
          obtain ⟨rfl, hpost⟩ := List.cons.inj has
          rw [hdrop]
          apply h mid post' hpost hne
    · apply head
      rw [List.flatten_append, List.length_append] at hpre
      omega

/-- Calls that wait are made with a part of the head only. -/
theorem Waits.length_le {q : Request} {w d : Parser}
    (hw : (init.receive q.head).firstPoint = .ok (some .content, w))
    {pre : List (List UInt8)} (h : Waits init pre d) {rest : List UInt8}
    (hbytes : pre.flatten ++ rest = q.bytes) (hsize : q.bytes.length < readBuffSize) :
  pre.flatten.length ≤ q.head.length
  := by
  rcases List.append_eq_append_iff.mp hbytes with ⟨l, hl, -⟩ | ⟨l, hl, -⟩
  · rw [hl, List.length_append]
    omega
  · have hroom : q.head.length + l.length ≤ readBuffSize := by
      rw [← List.length_append, ← hl]
      rw [← hbytes, List.length_append] at hsize
      omega
    have hpre : (init.receive pre.flatten).readIndex ≤ readBuffSize := by
      rw [receive_readIndex, hl, List.length_append, show init.readIndex = 0 from rfl, Nat.zero_add]
      exact hroom
    have hnone := init_drained.firstPoint_of_waits h hpre
    rw [hl, init_atLine.firstPoint_of_point hw (by omega)] at hnone
    cases hnone

/-- A call that comes to the body was made with the whole head. -/
theorem AtBody.length_le {w c : Parser} {k : ℕ} {n : ℤ} {l rest : List UInt8} (hw : AtBody w k n)
    (hc : Between c) (h : w.receive l = c.receive rest) :
  rest.length ≤ l.length
  := by
  have hcheck : w.checkIndex = c.checkIndex := by
    simpa only [receive_checkIndex] using congrArg Parser.checkIndex h
  have hread : w.readIndex + l.length = c.readIndex + rest.length := by
    simpa only [receive_readIndex] using congrArg Parser.readIndex h
  have hle := hc.le_read
  rw [← hcheck, hw.checkIndex] at hle
  rw [hw.readIndex] at hread
  omega

/-- The head and the body of a request, when what is missing is a part of the body. -/
theorem exists_append_of_length_le {l rest head body : List UInt8}
    (h : l ++ rest = head ++ body) (hle : rest.length ≤ body.length) :
  ∃ got, l = head ++ got ∧ body = got ++ rest
  := by
  rcases List.append_eq_append_iff.mp h with ⟨as, has, has'⟩ | ⟨as, has, has'⟩
  · have hnil : as = [] := by
      rw [has', List.length_append] at hle
      apply List.length_eq_zero_iff.mp
      omega
    refine ⟨[], ?_, ?_⟩
    · rw [has, hnil, List.append_nil, List.append_nil]
    · rw [has', hnil]
      rfl
  · exact ⟨as, has, has'⟩

/-- The parser of a call that comes to the body, of which `rest` was not read yet. -/
theorem AtBody.inBody {w c : Parser} {k : ℕ} {got rest : List UInt8}
    (hw : AtBody w k (got ++ rest).length) (hc : Between c)
    (h : w.receive (got ++ rest) = c.receive rest)
    (hroom : k + (got ++ rest).length < readBuffSize) :
  InBody c k (got ++ rest).length got
  := by
  have hcheck : w.checkIndex = c.checkIndex := by
    simpa only [receive_checkIndex] using congrArg Parser.checkIndex h
  have hread : w.readIndex + (got ++ rest).length = c.readIndex + rest.length := by
    simpa only [receive_readIndex] using congrArg Parser.readIndex h
  have hstart := congrArg Parser.startLine h
  change w.startLine = c.startLine at hstart
  have hle := hc.le_read
  rw [← hcheck, hw.checkIndex] at hle
  rw [hw.readIndex, List.length_append] at hread
  have hspells := spells_receive w (got ++ rest)
  rw [hw.readIndex, h, spells_append] at hspells
  refine ⟨(congrArg Parser.checkState h).symm.trans hw.checkState, hstart.symm.trans hw.startLine,
    hcheck.symm.trans hw.checkIndex, by omega,
    (congrArg Parser.contentLength h).symm.trans hw.contentLength, ?_, ?_, hroom⟩
  · apply hspells.1.congr
    intro i _ hi
    apply Eq.symm (readBuf_receive _ _ _)
    omega
  · intro i hi
    apply hc.closed.nul i
    rw [hi, ← hstart, hw.startLine]

/-- When the head of a request arrives in chunks, one call turns the parser to the body,
with what was read of the body behind it. -/
theorem head_of_chunks (q : Request) {chunks : List (List UInt8)}
    (hbytes : chunks.flatten = q.bytes) (hsize : q.bytes.length < readBuffSize) :
  ∃ pre chunk post got d c, chunks = pre ++ chunk :: post ∧
    pre.flatten.length ≤ q.head.length ∧ pre.flatten ++ chunk = q.head ++ got ∧
    q.body = got ++ post.flatten ∧ Waits init pre d ∧
    (d.receive chunk).processRead = c.processRead ∧
    InBody c q.head.length q.body.length got
  := by
  have hlen : q.bytes.length = q.head.length + q.body.length := List.length_append
  have hroom : (init.receive chunks.flatten).readIndex ≤ readBuffSize := by
    rw [receive_readIndex, hbytes, show init.readIndex = 0 from rfl]
    omega
  obtain ⟨w, hw, hbody⟩ := init_receive_head q (by omega)
  have hall : (init.receive chunks.flatten).firstPoint = .ok (some .content, w.receive q.body) := by
    rw [hbytes]
    apply init_atLine.firstPoint_of_point hw (by omega)
  obtain ⟨v, hv, -⟩ | ⟨pre, chunk, post, d, r, rfl, hfirst, hr⟩ := init_drained.chunks chunks hroom
  · cases hv.symm.trans hall
  · rw [List.flatten_append, List.flatten_cons] at hbytes
    rw [hall] at hr
    cases r with
    | error f => cases hr
    | ok r =>
        obtain ⟨k, c⟩ := r
        obtain ⟨hk, hstate⟩ := Prod.mk.inj (Except.ok.inj hr)
        obtain rfl := hk
        have hheader : (d.receive chunk).checkState ≠ .content := hfirst.drained.header
        have hd := hfirst.drained.between.receive _ hfirst.room
        have hcall := hd.processRead_eq hheader
        rw [hfirst.result] at hcall
        have hc := (Between.firstPoint_between ⟨hd, hheader⟩ hfirst.result).1
        have hpre := hfirst.waits.length_le hw hbytes hsize
        rw [← List.append_assoc] at hbytes
        obtain ⟨got, hgot, hpost⟩ :=
          exists_append_of_length_le hbytes (hbody.length_le hc hstate)
        rw [hpost] at hbody hstate hlen ⊢
        exact ⟨pre, chunk, post, got, d, c, rfl, hpre, hgot, rfl, hfirst.waits, hcall,
          hbody.inBody hc hstate (by omega)⟩

/-- A request is delivered, whatever its chunks are, exactly when no call is made with a
part of the body that is not parked. -/
theorem delivers_iff (q : Request) (chunks : List (List UInt8))
    (hne : ∀ chunk ∈ chunks, chunk ≠ []) (hbytes : chunks.flatten = q.bytes)
    (hsize : q.bytes.length < readBuffSize) :
  Delivers chunks q.body ↔ Undisturbed q chunks
  := by
  obtain ⟨pre, chunk, post, got, d, c, rfl, hpre, hgot, hbody, hwaits, hcall, hc⟩ :=
    head_of_chunks q hbytes hsize
  rw [undisturbed_iff hpre hgot]
  have hpost : ∀ chunk ∈ post, chunk ≠ [] := fun x hx => hne x (by simp [hx])
  obtain ⟨e, d', es, c', he, hes, hdelivered, hlost⟩ :=
    hc.calls hpost (by rw [hbody, List.length_append])
  have hcalls := hwaits.calls (calls_cons (hcall.trans he) hes)
  have hlen : (pre ++ chunk :: post).length - 1 = pre.length + post.length := by
    rw [List.length_append, List.length_cons]
    rfl
  constructor
  · rintro ⟨w, p, hw, -⟩
    by_contra hpark
    rw [hcalls, hlost hpark] at hw
    have hlast : ReadExit.doRequest ∈
        List.replicate ((pre ++ chunk :: post).length - 1) (.returned .noRequest) ++ [.doRequest] :=
      List.mem_append_right _ (List.mem_singleton_self _)
    rw [← (Prod.mk.inj (Except.ok.inj hw)).1, List.mem_append, List.mem_replicate,
      List.mem_replicate] at hlast
    rcases hlast with ⟨-, ⟨⟩⟩ | ⟨-, ⟨⟩⟩
  · intro hpark
    obtain ⟨hes', hstring, hspells, hnul⟩ := hdelivered hpark
    refine ⟨c', _, ?_, hstring, ?_, hnul⟩
    · rw [hcalls, hes', hlen, List.replicate_add, List.append_assoc]
    · rw [hbody]
      exact hspells

/-- `POST / HTTP/1.1` with a body of two bytes. -/
def postRequest : Request where
  method := ascii "POST"
  blank := 32
  url := ascii "/"
  blank' := 32
  version := ascii "HTTP/1.1"
  headers := [ascii "Content-Length:2"]
  body := ascii "ab"
  method_implemented := by decide
  blank_isBlank := by decide
  url_word := List.all_eq_true.mp (by decide)
  url_path := by decide
  blank'_isBlank := by decide
  version_http := by decide
  headers_ne_nil := by decide
  headers_line := List.forall_mem_singleton.mpr (List.all_eq_true.mp (by decide))
  body_declared := by decide
  body_ne_nil := by decide

theorem delivers_iff_postRequest :
  Delivers [postRequest.head, ascii "ab"] postRequest.body ↔
    Undisturbed postRequest [postRequest.head, ascii "ab"]
  := delivers_iff postRequest [postRequest.head, ascii "ab"] (by decide) (by decide) (by decide)

set_option maxRecDepth 10000 in
/-- A body cut behind its first byte is not delivered. -/
theorem not_delivers :
  ¬ ∀ (q : Request) (chunks : List (List UInt8)), (∀ chunk ∈ chunks, chunk ≠ []) →
    chunks.flatten = q.bytes → q.bytes.length < readBuffSize → Delivers chunks q.body
  := by
  intro h
  have hcalls : (init.calls [postRequest.head ++ ascii "a", ascii "b"]).map Prod.fst
      = .ok [.returned .noRequest, .returned .noRequest] := by decide
  obtain ⟨c, p, hc, -⟩ := h postRequest [postRequest.head ++ ascii "a", ascii "b"] (by decide)
    (by decide) (by decide)
  rw [hc] at hcalls
  cases hcalls

end Parser

end WebServer
