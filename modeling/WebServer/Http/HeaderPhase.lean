import WebServer.Http.Receive

/-!
# The header phase of `process_read`

`firstPoint` is the loop of `process_read` up to the first point at which it rejects the
request, calls `do_request` or turns to the body; `process_read` goes on from there
(`processRead_eq`).  The header phase does not depend on how the bytes are cut into
chunks: a chunk that ends before that point leaves the parser as if the next one had
come with it (`firstPoint_receive`), and what follows the point does not matter
(`header_chunks`).
-/

open CString Fallible

namespace WebServer

namespace Parser

/-! ### The lines of the header phase -/

/-- The parser stands in a line that is not complete: what it scanned of the line has
neither a carriage return nor a line feed. -/
structure Between (c : Parser) : Prop where
  le_check : c.startLine ≤ c.checkIndex
  le_read : c.checkIndex ≤ c.readIndex
  le_size : c.readIndex ≤ readBuffSize
  plain : ∀ i, c.startLine ≤ i → i < c.checkIndex → isPlain (c.readBuf i) = true
  closed : Sealed c c.startLine

/-- The parser stands behind a line that is complete, which two NULs end. -/
structure LineEnds (c : Parser) : Prop where
  ends : Ends c c.startLine (c.checkIndex - 2)
  room : c.startLine + 2 ≤ c.checkIndex
  le_read : c.checkIndex ≤ c.readIndex
  le_size : c.readIndex ≤ readBuffSize
  closed : Sealed c c.checkIndex

/-- The parser with `m_check_index` at `k`. -/
def scannedTo (c : Parser) (k : ℕ) : Parser := { c with checkIndex := k }

/-- The parser with the carriage return it stands at and the line feed behind it
overwritten by NULs. -/
def closeLine (c : Parser) : Parser :=
  { (c.put c.checkIndex 0).put (c.checkIndex + 1) 0 with checkIndex := c.checkIndex + 2 }

theorem init_between :
  Between init
  where
  le_check := le_rfl
  le_read := le_rfl
  le_size := Nat.zero_le _
  plain := by
    intro i _ hi
    apply absurd hi (Nat.not_lt_zero i)
  closed := by
    constructor
    · rintro i ⟨⟩
    · rintro p ⟨⟩
    · rintro p ⟨⟩

/-- `parse_line` passes over plain bytes and stops where there is none.  When it does not start
behind a carriage return, it ends the line at a carriage return and a line feed, and only
there. -/
theorem parseLine_cases {c : Parser} (hread : c.checkIndex ≤ c.readIndex)
    (hsize : c.readIndex ≤ readBuffSize)
    (hbefore : ∀ i, i + 1 = c.checkIndex → c.readBuf i ≠ 13) :
  ∃ k, c.checkIndex ≤ k ∧ k ≤ c.readIndex ∧
    (∀ i, c.checkIndex ≤ i → i < k → isPlain (c.readBuf i) = true) ∧
    ((∃ status, status ≠ .lineOk ∧ c.parseLine = .ok (status, c.scannedTo k)) ∨
      (k + 1 < c.readIndex ∧ c.readBuf k = 13 ∧ c.readBuf (k + 1) = 10 ∧
        c.parseLine = .ok (.lineOk, (c.scannedTo k).closeLine)))
  := by
  revert hread hsize hbefore
  apply parseLine_rule (P := fun c r => c.checkIndex ≤ c.readIndex → c.readIndex ≤ readBuffSize →
    (∀ i, i + 1 = c.checkIndex → c.readBuf i ≠ 13) →
    ∃ k, c.checkIndex ≤ k ∧ k ≤ c.readIndex ∧
      (∀ i, c.checkIndex ≤ i → i < k → isPlain (c.readBuf i) = true) ∧
      ((∃ status, status ≠ .lineOk ∧ r = .ok (status, c.scannedTo k)) ∨
        (k + 1 < c.readIndex ∧ c.readBuf k = 13 ∧ c.readBuf (k + 1) = 10 ∧
          r = .ok (.lineOk, (c.scannedTo k).closeLine))))
  · intro c r hlt hplain ih _ hsize _
    have hbefore : ∀ i, i + 1 = c.checkIndex + 1 → c.readBuf i ≠ 13 := by
      rintro i hi hcr
      obtain rfl := Nat.succ.inj hi
      rw [hcr] at hplain
      cases hplain
    obtain ⟨k, hk, hkread, hplain', hr⟩ := ih hlt hsize hbefore
    refine ⟨k, Nat.le_of_succ_le hk, hkread, ?_, hr⟩
    intro i hi hik
    rcases Nat.eq_or_lt_of_le hi with rfl | hi
    · exact hplain
    · apply hplain' i hi hik
  · intro c hstop hread hsize hbefore
    refine ⟨c.checkIndex, le_rfl, hread, fun i hi hik => absurd hik (Nat.not_lt.mpr hi), ?_⟩
    rcases endLine_cases c with ⟨hlt, hcr, hlf⟩ | ⟨-, -, h1, hcr⟩ | ⟨status, hne, hs⟩
    · right
      exact ⟨hlt, hcr, hlf, endLine_crlf hsize hlt hcr hlf⟩
    · apply absurd hcr (hbefore (c.checkIndex - 1) (by omega))
    · left
      exact ⟨status, hne, hs⟩

/-- The byte before is plain, or the NUL that ends the line before. -/
theorem Between.before {c : Parser} (h : Between c) :
  ∀ i, i + 1 = c.checkIndex → c.readBuf i ≠ 13
  := by
  intro i hi hcr
  rcases Nat.eq_or_lt_of_le h.le_check with heq | hlt
  · rw [h.closed.nul i (by omega)] at hcr
    cases hcr
  · have hplain := h.plain i (by omega) (by omega)
    rw [hcr] at hplain
    cases hplain

/-- A scan that passes over plain bytes stays within the line. -/
theorem Between.scannedTo {c : Parser} (h : Between c) {k : ℕ} (hk : c.checkIndex ≤ k)
    (hread : k ≤ c.readIndex)
    (hplain : ∀ i, c.checkIndex ≤ i → i < k → isPlain (c.readBuf i) = true) :
  Between (c.scannedTo k)
  := by
  refine ⟨h.le_check.trans hk, hread, h.le_size, ?_, { h.closed with }⟩
  intro i hi hik
  rcases Nat.lt_or_ge i c.checkIndex with hlt | hge
  · apply h.plain i hi hlt
  · apply hplain i hge hik

/-- Within a line `parse_line` stays in it, or ends it at a carriage return and a line feed. -/
theorem Between.parseLine_cases {c : Parser} (h : Between c) :
  ∃ k, c.checkIndex ≤ k ∧ Between (c.scannedTo k) ∧
    ((∃ status, status ≠ .lineOk ∧ c.parseLine = .ok (status, (c.scannedTo k))) ∨
      (k + 1 < c.readIndex ∧ c.readBuf k = 13 ∧ c.readBuf (k + 1) = 10 ∧
        c.parseLine = .ok (.lineOk, (c.scannedTo k).closeLine)))
  := by
  obtain ⟨k, hk, hread, hplain, hl⟩ := Parser.parseLine_cases h.le_read h.le_size h.before
  exact ⟨k, hk, h.scannedTo hk hread hplain, hl⟩

/-- A line that was closed is complete. -/
theorem Between.closeLine {c : Parser} (h : Between c) (hlt : c.checkIndex + 1 < c.readIndex) :
  LineEnds c.closeLine
  where
  ends := by
    refine ⟨h.le_check, Nat.lt_of_succ_lt hlt, ?_, ?_⟩
    · have := h.le_size
      change c.checkIndex < readBuffSize
      omega
    · change Function.update _ (c.checkIndex + 1) 0 c.checkIndex = 0
      rw [Function.update_of_ne (Nat.ne_of_lt (Nat.lt_succ_self _))]
      apply Function.update_self
  room := Nat.add_le_add_right h.le_check 2
  le_read := hlt
  le_size := h.le_size
  closed := by
    have hle := h.le_check
    refine ⟨?_, ?_, ?_⟩
    · intro i hi
      obtain rfl : i = c.checkIndex + 1 := Nat.succ.inj hi
      apply Function.update_self
    · intro p hp
      have := h.closed.url p hp
      change p < c.checkIndex + 2
      omega
    · intro p hp
      have := h.closed.host p hp
      change p < c.checkIndex + 2
      omega

/-! ### A pass over a line -/

/-- Outside the body, the parser of a complete line does not depend on what follows the
line. -/
theorem LineEnds.parseText_receive {c : Parser} (h : LineEnds c) (hc : c.checkState ≠ .content)
    (bs : List UInt8) :
  (c.nextLine.receive bs).parseText c.startLine
    = receiveAfter bs (c.nextLine.parseText c.startLine)
  := by
  have hd : Ends c.nextLine c.startLine (c.checkIndex - 2) := { h.ends with }
  have hroom := h.room
  have hread := h.le_read
  cases hs : c.checkState with
  | requestLine =>
      have hs₁ : c.nextLine.checkState = .requestLine := hs
      have hs₂ : (c.nextLine.receive bs).checkState = .requestLine := hs
      rw [parseText_requestLine hs₁, parseText_requestLine hs₂]
      apply hd.parseRequestLine_receive bs _ h.le_size
      change _ ≤ c.readIndex
      omega
  | header =>
      have hs₁ : c.nextLine.checkState = .header := hs
      have hs₂ : (c.nextLine.receive bs).checkState = .header := hs
      rw [parseText_header hs₁, parseText_header hs₂, hd.parseHeaders_receive bs, receiveAfter_ok]
  | content => exact absurd hs hc

/-- A pass over a complete line outside the body does not depend on what follows it. -/
theorem LineEnds.readPass_receive {c : Parser} (h : LineEnds c) (hc : c.checkState ≠ .content)
    (bs : List UInt8) :
  (c.receive bs).readPass = receiveAfter bs c.readPass
  := by
  unfold readPass
  change (c.nextLine.receive bs).parseText c.startLine >>= _ = _
  rw [h.parseText_receive hc]
  cases c.nextLine.parseText c.startLine with
  | error f => rfl
  | ok r => rfl

/-- Behind a pass outside the body the parser stands at the beginning of a line. -/
theorem LineEnds.readPass_between {c c' : Parser} {pass : Pass} (h : LineEnds c)
    (hc : c.checkState ≠ .content) (hpass : c.readPass = .ok (pass, c')) :
  Between c' ∧ c'.startLine = c'.checkIndex
  := by
  have hi := readPass_sameIndices hpass
  have hroom := h.room
  have hread := h.le_read
  have hsize := h.le_size
  have hstart : c'.startLine = c'.checkIndex := hi.startLine.trans hi.checkIndex.symm
  have hclosed : Sealed c' c.checkIndex := by
    obtain ⟨⟨ret, c₁⟩, hp, hpass⟩ := bind_eq_ok.mp hpass
    cases hpass
    have hd : Ends c.nextLine c.startLine (c.checkIndex - 2) := { h.ends with }
    have hclosed : Sealed c.nextLine c.checkIndex := { h.closed with }
    cases hs : c.checkState with
    | requestLine =>
        have hs' : c.nextLine.checkState = .requestLine := hs
        rw [parseText_requestLine hs'] at hp
        apply hclosed.parseRequestLine hd (by omega) (by omega) hp
    | header =>
        have hs' : c.nextLine.checkState = .header := hs
        rw [parseText_header hs'] at hp
        have hline := hclosed.parseHeaders hd (by omega)
        rw [Except.ok.inj hp] at hline
        apply hline
    | content => exact absurd hs hc
  refine ⟨⟨?_, ?_, ?_, ?_, ?_⟩, hstart⟩
  · rw [hstart]
  · rw [hi.checkIndex, hi.readIndex]
    apply h.le_read
  · rw [hi.readIndex]
    apply h.le_size
  · intro i hi' hi''
    omega
  · rw [hi.startLine]
    apply hclosed

/-! ### The first point -/

/-- Where the header phase ends: `process_read` returns, or turns to the body. -/
inductive Point where
  | stopped (e : ReadExit)
  | content
  deriving DecidableEq

/-- What follows a pass of the header phase. -/
def afterHeader : Except Fault (Pass × Parser) →
    Parser ⊕ Except Fault (Option Point × Parser)
  | .error f => .inr (.error f)
  | .ok (.exit e, c) => .inr (.ok (some (.stopped e), c))
  | .ok (.again _, c) =>
    if c.checkState = .content then .inr (.ok (some .content, c)) else .inl c

/-- The loop of `process_read` outside the body. -/
def headerLine (c : Parser) : Parser ⊕ Except Fault (Option Point × Parser) :=
  match c.parseLine with
  | .error f => .inr (.error f)
  | .ok (.lineOk, c) => afterHeader c.readPass
  | .ok (_, c) => .inr (.ok (none, c))

theorem afterHeader_inl {r : Except Fault (Pass × Parser)} {c : Parser}
    (h : afterHeader r = .inl c) :
  (∃ status, r = .ok (.again status, c)) ∧ c.checkState ≠ .content
  := by
  unfold afterHeader at h
  split at h
  · cases h
  · cases h
  · next status c' =>
      split at h
      · cases h
      · next hc =>
          cases h
          exact ⟨⟨status, rfl⟩, hc⟩

theorem headerLine_decreases :
  Loop.Decreases headerLine fun c => c.readIndex - c.checkIndex
  := by
  intro c c' h
  rw [headerLine] at h
  split at h
  · cases h
  · next c₁ hl =>
      obtain ⟨hread, -, -, hlt⟩ := parseLine_indices c hl
      have := hlt rfl
      obtain ⟨⟨status, hp⟩, -⟩ := afterHeader_inl h
      have hi := readPass_sameIndices hp
      have hread' : c'.readIndex = c₁.readIndex := hi.readIndex
      have hcheck' : c'.checkIndex = c₁.checkIndex := hi.checkIndex
      dsimp only
      omega
  · cases h

/-- The first point at which `process_read` rejects the request, calls `do_request` or
turns to the body; `none` when what was read holds no such point. -/
def firstPoint (c : Parser) : Except Fault (Option Point × Parser) :=
  Loop.whileLoop headerLine_decreases c

/-- `process_read` behind the first point. -/
def resume : Option Point × Parser → Except Fault (ReadExit × Parser)
  | (none, c) => .ok (.returned .noRequest, c)
  | (some (.stopped e), c) => .ok (e, c)
  | (some .content, c) => c.processRead

/-- The rounds of the header phase from within a line. -/
theorem Between.headerLine_cases {c : Parser} (h : Between c) (hc : c.checkState ≠ .content) :
  (∃ status c', status ≠ .lineOk ∧ c.parseLine = .ok (status, c') ∧ Between c' ∧
      c'.checkState ≠ .content ∧ c.headerLine = .inr (.ok (none, c'))) ∨
    ∃ c', c.parseLine = .ok (.lineOk, c') ∧ LineEnds c' ∧ c'.checkState ≠ .content ∧
      c'.readIndex = c.readIndex ∧ c.headerLine = afterHeader c'.readPass
  := by
  obtain ⟨k, -, hk, ⟨status, hne, hl⟩ | ⟨hlt, hcr, hlf, hl⟩⟩ := h.parseLine_cases
  · left
    refine ⟨status, _, hne, hl, hk, hc, ?_⟩
    rw [headerLine]
    rw [hl]
    cases status with
    | lineOk => exact absurd rfl hne
    | lineBad => rfl
    | lineOpen => rfl
  · right
    refine ⟨_, hl, hk.closeLine hlt, hc, rfl, ?_⟩
    rw [headerLine]
    rw [hl]

/-- Every round of the header phase leaves the parser within a line. -/
theorem Between.headerLine_inl {c c' : Parser} (h : Between c ∧ c.checkState ≠ .content)
    (hl : c.headerLine = .inl c') :
  Between c' ∧ c'.checkState ≠ .content
  := by
  rcases h.1.headerLine_cases h.2 with ⟨status, d, -, -, -, -, hd⟩ | ⟨d, -, hends, hd, -, hl'⟩
  · cases hd.symm.trans hl
  · obtain ⟨⟨status, hp⟩, hc'⟩ := afterHeader_inl (hl'.symm.trans hl)
    exact ⟨(hends.readPass_between hd hp).1, hc'⟩

theorem Between.headerLine_readIndex {c c' : Parser} (h : Between c ∧ c.checkState ≠ .content)
    (hl : c.headerLine = .inl c') :
  c'.readIndex = c.readIndex
  := by
  rcases h.1.headerLine_cases h.2 with ⟨status, d, -, -, -, -, hd⟩ | ⟨d, -, -, -, hread, hl'⟩
  · cases hd.symm.trans hl
  · obtain ⟨⟨status, hp⟩, -⟩ := afterHeader_inl (hl'.symm.trans hl)
    apply (readPass_sameIndices hp).readIndex.trans hread

/-- Where the header phase ends the parser stands at the beginning of a line. -/
theorem Between.firstPoint_between {c : Parser} (h : Between c ∧ c.checkState ≠ .content)
    {k : Option Point} {w : Parser} (hw : c.firstPoint = .ok (k, w)) :
  Between w ∧ w.readIndex = c.readIndex ∧ (k = none → w.checkState ≠ .content) ∧
    (k ≠ none → w.startLine = w.checkIndex)
  := by
  refine Loop.whileLoop_invariant headerLine_decreases
    (P := fun c r => ∀ k w, r = .ok (k, w) → Between w ∧ w.readIndex = c.readIndex ∧
      (k = none → w.checkState ≠ .content) ∧ (k ≠ none → w.startLine = w.checkIndex))
    (fun c c' => Between.headerLine_inl) ?_ ?_ h k w hw
  · intro c c' r h hl hP k w hr
    rw [← Between.headerLine_readIndex h hl]
    apply hP k w hr
  · intro c r h hl k w hr
    subst hr
    rcases h.1.headerLine_cases h.2
      with ⟨status, d, -, hd, hbetween, hheader, hl'⟩ | ⟨d, -, hends, hd, hread, hl'⟩
    · cases hl'.symm.trans hl
      exact ⟨hbetween, (parseLine_indices c hd).1, fun _ => hheader, fun hk => absurd rfl hk⟩
    · rw [hl'] at hl
      cases hp : d.readPass with
      | error f =>
          rw [hp] at hl
          cases hl
      | ok r =>
          obtain ⟨pass, d'⟩ := r
          have hd' := hends.readPass_between hd hp
          have hread' := (readPass_sameIndices hp).readIndex.trans hread
          rw [hp] at hl
          unfold afterHeader at hl
          cases pass with
          | exit e =>
              cases hl
              exact ⟨hd'.1, hread', nofun, fun _ => hd'.2⟩
          | again status =>
              dsimp only at hl
              split at hl
              · cases hl
                exact ⟨hd'.1, hread', nofun, fun _ => hd'.2⟩
              · cases hl

/-- A pass outside the body asks for the next line. -/
theorem readPass_header {c c' : Parser} {status : LineStatus} (hc : c.checkState ≠ .content)
    (h : c.readPass = .ok (.again status, c')) :
  status = .lineOk
  := by
  obtain ⟨r, -, h⟩ := bind_eq_ok.mp h
  have hpass := congrArg Prod.fst (Except.ok.inj h)
  dsimp only at hpass
  unfold passOf at hpass
  split at hpass
  · split at hpass
    · cases hpass
    · cases hpass
      rfl
  · split at hpass
    · cases hpass
    · split at hpass
      · cases hpass
      · cases hpass
        rfl
  · next hs => exact absurd hs hc

/-- `process_read` goes through the header phase first. -/
theorem Between.processRead_eq {c : Parser} (h : Between c) (hc : c.checkState ≠ .content) :
  c.processRead = c.firstPoint >>= resume
  := by
  refine Loop.whileLoop_invariant headerLine_decreases
    (P := fun c r => c.processRead = r >>= resume) (fun c c' => Between.headerLine_inl)
    ?_ ?_ ⟨h, hc⟩
  · intro c c' r h hl hP
    rcases h.1.headerLine_cases h.2 with ⟨status, d, -, -, -, -, hd⟩ | ⟨d, hd, -, hc, -, hl'⟩
    · cases hd.symm.trans hl
    · obtain ⟨⟨status, hp⟩, -⟩ := afterHeader_inl (hl'.symm.trans hl)
      obtain rfl := readPass_header hc hp
      rw [← hP]
      apply Loop.whileLoop_inl
      rw [readLine_line (fun hh => h.2 hh.1) hd, hp]
      rfl
  · intro c r h hl
    rcases h.1.headerLine_cases h.2 with ⟨status, d, hne, hd, -, -, hl'⟩ | ⟨d, hd, -, hc, -, hl'⟩
    · cases hl'.symm.trans hl
      apply Loop.whileLoop_inr _ (readLine_wait (fun hh => h.2 hh.1) hd hne)
    · have hround : readLine (c, .lineOk) = afterPass d.readPass :=
        readLine_line (fun hh => h.2 hh.1) hd
      rw [hl'] at hl
      cases hp : d.readPass with
      | error f =>
          rw [hp] at hl hround
          cases hl
          apply Loop.whileLoop_inr _ hround
      | ok p =>
          obtain ⟨pass, d'⟩ := p
          rw [hp] at hl hround
          cases pass with
          | exit e =>
              cases hl
              apply Loop.whileLoop_inr _ hround
          | again status =>
              obtain rfl := readPass_header hc hp
              unfold afterHeader at hl
              dsimp only at hl
              split at hl
              · cases hl
                apply Loop.whileLoop_inl _ hround
              · cases hl

/-! ### The header phase and the bytes that arrive later -/

/-- The header phase with `bs` received when it has ended or waits. -/
def receiveMore (bs : List UInt8) :
    Except Fault (Option Point × Parser) → Except Fault (Option Point × Parser)
  | .ok (none, c) => (c.receive bs).firstPoint
  | r => receiveAfter bs r

@[simp]
theorem receiveMore_none (bs : List UInt8) (c : Parser) :
  receiveMore bs (.ok (none, c)) = (c.receive bs).firstPoint
  := rfl

theorem receiveMore_of_ne (bs : List UInt8) {r : Except Fault (Option Point × Parser)}
    (hr : ∀ c, r ≠ .ok (none, c)) :
  receiveMore bs r = receiveAfter bs r
  := by
  unfold receiveMore
  split
  · next c => exact absurd rfl (hr c)
  · rfl

theorem afterHeader_receive (bs : List UInt8) (r : Except Fault (Pass × Parser)) :
  afterHeader (receiveAfter bs r) =
    Sum.map (fun c => c.receive bs) (receiveMore bs) (afterHeader r)
  := by
  cases r with
  | error f => rfl
  | ok p =>
      obtain ⟨pass, c⟩ := p
      cases pass with
      | exit e => rfl
      | again status =>
          rw [receiveAfter_ok, afterHeader, afterHeader]
          change (if c.checkState = .content then _ else _) = _
          split
          · rfl
          · rfl

/-- What arrives later either follows the first point or lets the header phase go on. -/
theorem Between.firstPoint_receive {c : Parser} (h : Between c) (hc : c.checkState ≠ .content)
    (bs : List UInt8) (hsize : (c.receive bs).readIndex ≤ readBuffSize) :
  (c.receive bs).firstPoint = receiveMore bs c.firstPoint
  := by
  have key := Loop.whileLoop_invariant headerLine_decreases
    (I := fun c => (Between c ∧ c.checkState ≠ .content) ∧
      (c.receive bs).readIndex ≤ readBuffSize)
    (P := fun c r => (c.receive bs).firstPoint = receiveMore bs r)
  apply key _ _ _ ⟨⟨h, hc⟩, hsize⟩
  · intro c c' h hl
    refine ⟨Between.headerLine_inl h.1 hl, ?_⟩
    rw [receive_readIndex, Between.headerLine_readIndex h.1 hl]
    apply h.2
  · intro c c' r h hl hP
    rcases h.1.1.headerLine_cases h.1.2
      with ⟨status, d, -, -, -, -, hd⟩ | ⟨d, hd, hends, hd', -, hl'⟩
    · cases hd.symm.trans hl
    · rw [← hP]
      apply Loop.whileLoop_inl
      unfold headerLine
      rw [parseLine_receive_ok bs h.2 hd]
      dsimp only
      rw [hends.readPass_receive hd', afterHeader_receive, ← hl', hl]
      rfl
  · intro c r h hl
    rcases h.1.1.headerLine_cases h.1.2
      with ⟨status, d, hne, hd, -, -, hl'⟩ | ⟨d, hd, hends, hd', -, hl'⟩
    · cases hl'.symm.trans hl
      apply Loop.whileLoop_congr
      unfold headerLine
      rw [parseLine_receive_stop bs hne hd]
    · have hround : (c.receive bs).headerLine = .inr (receiveMore bs r) := by
        unfold headerLine
        rw [parseLine_receive_ok bs h.2 hd]
        dsimp only
        rw [hends.readPass_receive hd', afterHeader_receive, ← hl', hl]
        rfl
      apply Loop.whileLoop_inr _ hround

/-! ### Chunks -/

/-- `process_read` runs after each of the chunks and returns `NO_REQUEST` every time
without having come to the first point. -/
def Waits : Parser → List (List UInt8) → Parser → Prop
  | c, [], c' => c' = c
  | c, chunk :: chunks, c' =>
    ∃ d, (c.receive chunk).firstPoint = .ok (none, d) ∧
      (c.receive chunk).processRead = .ok (.returned .noRequest, d) ∧ Waits d chunks c'

/-- The parsers `c` and `c'` agree in what the header phase has found out. -/
structure SameHeader (c c' : Parser) : Prop where
  method : c.method = c'.method
  cgi : c.cgi = c'.cgi
  contentLength : c.contentLength = c'.contentLength
  linger : c.linger = c'.linger
  urlText : c.urlText = c'.urlText
  hostText : c.hostText = c'.hostText
  checkIndex : c.checkIndex = c'.checkIndex
  startLine : c.startLine = c'.startLine

/-- What arrives behind a line does not change what the header phase has found out. -/
theorem Between.sameHeader_receive {c : Parser} (h : Between c) (bs : List UInt8) :
  SameHeader c (c.receive bs)
  := by
  have hstart := h.le_check.trans h.le_read
  obtain ⟨hurl, hhost⟩ := h.closed.texts_eq (hstart.trans h.le_size)
    fun i hi => readBuf_receive c bs (Nat.lt_of_lt_of_le hi hstart)
  exact ⟨rfl, rfl, rfl, rfl, hurl.symm, hhost.symm, rfl, rfl⟩

/-- A parser that has gone through what was read and waits for more. -/
structure Drained (c : Parser) : Prop where
  between : Between c
  header : c.checkState ≠ .content
  waits : c.firstPoint = .ok (none, c)

theorem init_drained :
  Drained init
  where
  between := init_between
  header := by decide
  waits := rfl

theorem Between.receive {c : Parser} (h : Between c) (bs : List UInt8)
    (hsize : (c.receive bs).readIndex ≤ readBuffSize) :
  Between (c.receive bs)
  where
  le_check := h.le_check
  le_read := Nat.le_add_right_of_le h.le_read
  le_size := hsize
  plain := by
    intro i hi hi'
    rw [readBuf_receive _ _ (Nat.lt_of_lt_of_le hi' h.le_read)]
    apply h.plain i hi hi'
  closed := by
    refine ⟨?_, h.closed.url, h.closed.host⟩
    intro i hi
    change i + 1 = c.startLine at hi
    have hcheck := h.le_check
    have hread := h.le_read
    rw [readBuf_receive _ _ (by omega)]
    apply h.closed.nul i hi

/-- What arrives next is looked at together with what follows it. -/
theorem Drained.receiveMore {c : Parser} (h : Drained c) {bs bs' : List UInt8}
    (hsize : (c.receive (bs ++ bs')).readIndex ≤ readBuffSize) :
  Between (c.receive bs) ∧ (c.receive bs).readIndex ≤ readBuffSize ∧
    (c.receive (bs ++ bs')).firstPoint = receiveMore bs' (c.receive bs).firstPoint
  := by
  rw [← receive_append] at hsize ⊢
  have hsize' : (c.receive bs).readIndex ≤ readBuffSize := by
    rw [receive_readIndex] at hsize
    omega
  have hbetween := h.between.receive _ hsize'
  exact ⟨hbetween, hsize', hbetween.firstPoint_receive h.header _ hsize⟩

/-- A call that does not come to the first point returns `NO_REQUEST` and leaves the parser
waiting. -/
theorem Drained.wait {c d : Parser} (h : Drained c) {bs : List UInt8}
    (hsize : (c.receive bs).readIndex ≤ readBuffSize)
    (hd : (c.receive bs).firstPoint = .ok (none, d)) :
  Drained d ∧ d.readIndex = (c.receive bs).readIndex ∧
    (c.receive bs).processRead = .ok (.returned .noRequest, d)
  := by
  have hbetween := h.between.receive _ hsize
  have hheader : (c.receive bs).checkState ≠ .content := h.header
  obtain ⟨hbetween', hread, hheader', -⟩ := Between.firstPoint_between ⟨hbetween, hheader⟩ hd
  refine ⟨⟨hbetween', hheader' rfl, ?_⟩, hread, ?_⟩
  · have hmore := hbetween.firstPoint_receive hheader [] hsize
    rw [receive_nil, hd, receiveMore_none, receive_nil] at hmore
    apply hmore.symm
  · rw [hbetween.processRead_eq hheader, hd]
    rfl

/-- Chunks the calls after which wait hold no first point. -/
theorem Drained.firstPoint_of_waits {c : Parser} (h : Drained c) {pre : List (List UInt8)}
    {d : Parser} (hpre : Waits c pre d) (hsize : (c.receive pre.flatten).readIndex ≤ readBuffSize) :
  (c.receive pre.flatten).firstPoint = .ok (none, d)
  := by
  induction pre generalizing c with
  | nil =>
      obtain rfl : d = c := hpre
      rw [List.flatten_nil, receive_nil]
      apply h.waits
  | cons chunk pre ih =>
      obtain ⟨c', hc', -, hpre⟩ := hpre
      rw [List.flatten_cons] at hsize ⊢
      obtain ⟨-, hsize', hmore⟩ := h.receiveMore hsize
      obtain ⟨hd, hread, -⟩ := h.wait hsize' hc'
      rw [hmore, hc', receiveMore_none]
      apply ih hd hpre
      rw [receive_readIndex, hread, ← receive_readIndex, receive_append]
      exact hsize

/-- The call of `process_read` after `chunk` is the first one that comes to a result `r`
other than to wait for more: from `c` the calls after the chunks `pre` wait, and lead to
`d`. -/
structure FirstCall (c : Parser) (pre : List (List UInt8)) (chunk : List UInt8) (d : Parser)
    (r : Except Fault (Option Point × Parser)) : Prop where
  waits : Waits c pre d
  drained : Drained d
  room : (d.receive chunk).readIndex ≤ readBuffSize
  result : (d.receive chunk).firstPoint = r
  ends : ∀ c', r ≠ .ok (none, c')

theorem Drained.firstCall {c : Parser} (h : Drained c) {chunk : List UInt8}
    {r : Except Fault (Option Point × Parser)} (hsize : (c.receive chunk).readIndex ≤ readBuffSize)
    (hr : (c.receive chunk).firstPoint = r) (hends : ∀ c', r ≠ .ok (none, c')) :
  FirstCall c [] chunk c r
  where
  waits := rfl
  drained := h
  room := hsize
  result := hr
  ends := hends

/-- The chunks one by one and all of them at once, from a parser that waits. -/
theorem Drained.chunks {c : Parser} (h : Drained c) (chunks : List (List UInt8))
    (hsize : (c.receive chunks.flatten).readIndex ≤ readBuffSize) :
  (∃ w, (c.receive chunks.flatten).firstPoint = .ok (none, w) ∧ Waits c chunks w) ∨
    ∃ pre chunk post d r, chunks = pre ++ chunk :: post ∧ FirstCall c pre chunk d r ∧
      (c.receive chunks.flatten).firstPoint = receiveAfter post.flatten r
  := by
  induction chunks generalizing c with
  | nil =>
      left
      use c
      rw [List.flatten_nil, receive_nil]
      exact ⟨h.waits, rfl⟩
  | cons chunk chunks ih =>
      rw [List.flatten_cons] at hsize ⊢
      obtain ⟨-, hsize', hmore⟩ := h.receiveMore hsize
      rw [hmore]
      by_cases hends : ∀ d, (c.receive chunk).firstPoint ≠ .ok (none, d)
      · right
        exact ⟨[], chunk, chunks, c, _, rfl, h.firstCall hsize' rfl hends,
          receiveMore_of_ne _ hends⟩
      · obtain ⟨d, hr⟩ := not_forall_not.mp hends
        obtain ⟨hd, hread, hcall⟩ := h.wait hsize' hr
        have hrest : (d.receive chunks.flatten).readIndex ≤ readBuffSize := by
          rw [receive_readIndex, hread, ← receive_readIndex, receive_append]
          exact hsize
        rw [hr, receiveMore_none]
        rcases ih hd hrest with ⟨w, hw, hwaits⟩ | ⟨pre, chunk', post, d', r, rfl, hfirst, hr'⟩
        · left
          exact ⟨w, hw, d, hr, hcall, hwaits⟩
        · right
          refine ⟨chunk :: pre, chunk', post, d', r, rfl, ?_, hr'⟩
          exact { hfirst with waits := ⟨d, hr, hcall, hfirst.waits⟩ }

/-- The chunks one by one lead the header phase to the same end as all of them at once.
When they hold no first point, every call of `process_read` returns `NO_REQUEST`.  When
they do, the calls before it return `NO_REQUEST`, and the call that comes to it finds the
same point, with the same result and the same header.  When the program loses its defined
behaviour, by the use of the null pointer that a URL with a scheme and no path leaves, it
does so either way. -/
theorem header_chunks (chunks : List (List UInt8))
    (hlen : chunks.flatten.length < readBuffSize) :
  (∀ w, (init.receive chunks.flatten).firstPoint = .ok (none, w) → Waits init chunks w) ∧
  (∀ k w, (init.receive chunks.flatten).firstPoint = .ok (some k, w) →
    ∃ pre chunk post c c', chunks = pre ++ chunk :: post ∧ Waits init pre c ∧
      (c.receive chunk).firstPoint = .ok (some k, c') ∧ SameHeader c' w ∧
      ∀ e, k = .stopped e →
        (init.receive chunks.flatten).processRead = .ok (e, w) ∧
          (c.receive chunk).processRead = .ok (e, c')) ∧
  (∀ f, (init.receive chunks.flatten).firstPoint = .error f →
    ∃ pre chunk post c, chunks = pre ++ chunk :: post ∧ Waits init pre c ∧
      (c.receive chunk).firstPoint = .error f)
  := by
  have hsize : (init.receive chunks.flatten).readIndex ≤ readBuffSize := by
    rw [receive_readIndex, show init.readIndex = 0 from rfl]
    omega
  have hwhole := (init_between.receive _ hsize).processRead_eq init_drained.header
  rcases init_drained.chunks chunks hsize
    with ⟨w, hw, hwaits⟩ | ⟨pre, chunk, post, c, r, hchunks, hfirst, hr⟩
  · rw [hw]
    refine ⟨?_, ?_, ?_⟩
    · rintro w ⟨⟩
      apply hwaits
    · rintro k w ⟨⟩
    · rintro f ⟨⟩
  · rw [hr] at hwhole ⊢
    have hbetween := hfirst.drained.between.receive _ hfirst.room
    have hheader : (c.receive chunk).checkState ≠ .content := hfirst.drained.header
    have hcall := hbetween.processRead_eq hheader
    rw [hfirst.result] at hcall
    cases r with
    | error f =>
        refine ⟨?_, ?_, ?_⟩
        · rintro w ⟨⟩
        · rintro k w ⟨⟩
        · rintro f ⟨⟩
          exact ⟨pre, chunk, post, c, hchunks, hfirst.waits, hfirst.result⟩
    | ok r =>
        obtain ⟨k, c'⟩ := r
        have hc' := Between.firstPoint_between ⟨hbetween, hheader⟩ hfirst.result
        refine ⟨?_, ?_, ?_⟩
        · rintro w hw
          apply absurd _ (hfirst.ends c')
          rw [(Prod.mk.inj (Except.ok.inj hw)).1]
        · rintro k w ⟨⟩
          refine ⟨pre, chunk, post, c, c', hchunks, hfirst.waits, hfirst.result,
            hc'.1.sameHeader_receive _, ?_⟩
          rintro e rfl
          exact ⟨hwhole, hcall⟩
        · rintro f ⟨⟩

/-- A request cut in the request line, between a carriage return and its line feed and
in the empty line. -/
theorem header_chunks_of_request :
  ∃ pre chunk post c c', [ascii "GET / HT", ascii "TP/1.1\r\nHost: a\r", ascii "\n\r", ascii "\n"]
      = pre ++ chunk :: post ∧ Waits init pre c ∧
    (c.receive chunk).processRead = .ok (.doRequest, c')
  := by
  have hpoint : (init.receive (ascii "GET / HTTP/1.1\r\nHost: a\r\n\r\n")).firstPoint.map Prod.fst
      = .ok (some (.stopped .doRequest)) := by decide
  obtain ⟨w, hw⟩ := exists_of_map_fst hpoint
  obtain ⟨pre, chunk, post, c, c', hchunks, hwaits, -, -, he⟩ :=
    (header_chunks [ascii "GET / HT", ascii "TP/1.1\r\nHost: a\r", ascii "\n\r", ascii "\n"]
      (by decide)).2.1 _ w hw
  exact ⟨pre, chunk, post, c, c', hchunks, hwaits, (he _ rfl).2⟩

end Parser

end WebServer
