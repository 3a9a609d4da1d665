import WebServer.Http.Hopeless

/-!
# Bodies that can be completed

What `do_request` takes out of a body that is complete fits, when what was received of it
before fits: the rest ends the name of the form, and leaves the password empty (`bodyEnd`).
Then `process_read` hands the request over, and `do_request` comes to its call of `stat`
(`BodyAhead.answers`, `Short.repairable`).
-/

open CString Fallible WebServer.HttpTask

namespace WebServer

/-- A call that does not wait does not answer `NO_REQUEST` with `do_request` either. -/
theorem HttpTask.processRead_ne_noRequest {c d : HttpTask} {query : List UInt8 → ℤ}
    {stat : List UInt8 → Answer} {e : ReadExit} {p : Parser} {ret : HttpCode}
    (he : c.toParser.processRead = .ok (e, p)) (hne : e ≠ .returned .noRequest)
    (h : c.processRead query stat = .ok (ret, d)) :
  ret ≠ .noRequest
  := by
  rw [processRead, he, ok_bind] at h
  cases e with
  | returned code =>
      cases h
      rintro rfl
      apply hne rfl
  | doRequest =>
      obtain ⟨c', -, h⟩ := bind_eq_ok.mp h
      have hret := congrArg Prod.fst (Except.ok.inj h)
      dsimp only at hret
      rw [← hret]
      cases stat c'.path with
      | missing => rintro ⟨⟩
      | unreadable size => rintro ⟨⟩
      | directory size => rintro ⟨⟩
      | file size content => rintro ⟨⟩

namespace Parser

/-! ### Requests at which `do_request` comes to its end -/

/-- `do_request` comes to its call of `stat`. -/
def Passes (c : Parser) : Prop :=
  ∀ (t : HttpTask) (query : List UInt8 → ℤ), ∃ d, { t with toParser := c }.makePath query = .ok d

/-- A URL that starts with a slash has a last one. -/
theorem exists_lastSlash {m : Memory} {u : ℕ} (hslash : m u = 47) (hu : u < readBuffSize) :
  ∃ p, strrchr m readBuffSize u 47 = some p
  := by
  have hmem : 47 ∈ (stringAt m readBuffSize u).reverse := by
    rw [List.mem_reverse, stringAt_cons hu (by rw [hslash]; decide), hslash]
    apply List.mem_cons_self
  rw [strrchr]
  cases hi : (stringAt m readBuffSize u).reverse.findIdx? (· == 47) with
  | none =>
      rw [List.findIdx?_eq_none_iff] at hi
      cases hi 47 hmem
  | some i => exact ⟨_, rfl⟩

/-- The URL starts with a slash, and for a request with credentials there is a form that fits. -/
theorem UrlEnds.passes {c : Parser} {u e q : ℕ} {l : List UInt8} (he : UrlEnds c u e)
    (hslash : c.readBuf u = 47) (h : ∀ p, Credentialed c u p → Sent c u q l ∧ Fits c u p l) :
  Passes c
  := by
  intro t query
  obtain ⟨p, hp⟩ := exists_lastSlash hslash (he.le.trans_lt he.lt_size)
  exact makePath_of_fits (c := { t with toParser := c }) he.url hp (h p) query

section Answers

variable {t : HttpTask} {query : List UInt8 → ℤ} {stat : List UInt8 → Answer}

theorem Answers.of_returned {c p : Parser} {chunk : List UInt8} {ret : HttpCode}
    (hsize : (c.receive chunk).readIndex ≤ readBuffSize)
    (hcall : (c.receive chunk).processRead = .ok (.returned ret, p)) (hne : ret ≠ .noRequest) :
  c.Answers t query stat chunk
  := by
  refine ⟨hsize, ret, { t with toParser := p }, ?_, hne⟩
  rw [HttpTask.processRead]
  dsimp only
  rw [hcall]
  rfl

theorem Answers.of_doRequest {c p : Parser} {chunk : List UInt8}
    (hsize : (c.receive chunk).readIndex ≤ readBuffSize)
    (hcall : (c.receive chunk).processRead = .ok (.doRequest, p)) (h : Passes p) :
  c.Answers t query stat chunk
  := by
  obtain ⟨d, hd⟩ := h t query
  obtain ⟨ret, d', hd', -⟩ := doRequest_of_makePath hd stat
  have hread : { t with toParser := c.receive chunk }.processRead query stat = .ok (ret, d') := by
    rw [HttpTask.processRead]
    dsimp only
    rw [hcall]
    apply hd'
  exact ⟨hsize, ret, d', hread,
    processRead_ne_noRequest (c := { t with toParser := c.receive chunk }) hcall (by rintro ⟨⟩)
      hread⟩

theorem Answers.repairable {c : Parser} {chunk : List UInt8} (h : c.Answers t query stat chunk) :
  Repairable t query stat c
  := ⟨[], chunk, c, rfl, h⟩

/-- What a continuation repairs behind a call is repaired before it. -/
theorem Repairable.of_call {c d : Parser} {chunk : List UInt8}
    (hsize : (c.receive chunk).readIndex ≤ readBuffSize)
    (hcall : (c.receive chunk).processRead = .ok (.returned .noRequest, d))
    (h : Repairable t query stat d) :
  Repairable t query stat c
  := by
  obtain ⟨chunks, chunk', d', hd, hanswers⟩ := h
  exact ⟨chunk :: chunks, chunk', d', ⟨d, hsize, hcall, hd⟩, hanswers⟩

end Answers

/-! ### The end of a body -/

/-- The most bytes that the end of a form takes, with the NUL behind it. -/
def formRoom : ℕ := 18

/-- The bytes that complete the body. -/
def formTail (c : Parser) : List UInt8 :=
  formEnd (c.received c.startLine) c.contentLength.toNat
    ((c.checkIndex + c.contentLength - c.readIndex).toNat + 10)

/-- They have a NUL behind them. -/
def bodyEnd (c : Parser) : List UInt8 := c.formTail ++ [0]

theorem length_bodyEnd (c : Parser) :
  (c.checkIndex + c.contentLength - c.readIndex).toNat + 10 < c.bodyEnd.length ∧
    c.bodyEnd.length ≤ (c.checkIndex + c.contentLength - c.readIndex).toNat + formRoom ∧
    c.bodyEnd.length = c.formTail.length + 1
  := by
  have hlen : c.bodyEnd.length = c.formTail.length + 1 := by
    rw [bodyEnd, List.length_append, List.length_singleton]
  obtain ⟨hle, hlt⟩ := length_formEnd (c.received c.startLine) c.contentLength.toNat
    ((c.checkIndex + c.contentLength - c.readIndex).toNat + 10)
  change _ ≤ c.formTail.length at hle
  change c.formTail.length ≤ _ at hlt
  have hroom : formRoom = 18 := rfl
  omega

/-- The parser is at a body that is not complete, or that ends before it begins, and there is
room for its end. -/
structure BodyAhead (c : Parser) : Prop extends Reading.InBuffer c where
  checkState : c.checkState = .content
  ends : (c.readIndex : ℤ) < c.startLine + c.contentLength ∨
    c.startLine = c.readIndex ∧ c.contentLength < 0 ∧ 0 ≤ c.startLine + c.contentLength
  room : c.readIndex + formRoom ≤ readBuffSize
  room_body : c.checkIndex + c.contentLength + formRoom ≤ readBuffSize

theorem BodyAhead.receive_bodyEnd {c : Parser} (h : BodyAhead c) :
  (c.checkIndex : ℤ) + c.contentLength ≤ (c.receive c.bodyEnd).readIndex ∧
    (c.receive c.bodyEnd).readIndex ≤ readBuffSize
  := by
  have hroom := h.room
  have hbody := h.room_body
  obtain ⟨hle, hlen, -⟩ := c.length_bodyEnd
  rw [receive_readIndex]
  omega

/-- The body is complete, and the request is handed over. -/
theorem BodyAhead.processRead_bodyEnd {c : Parser} (h : BodyAhead c) :
  (c.receive c.bodyEnd).processRead = .ok (.doRequest, (c.receive c.bodyEnd).bodyTaken)
  := by
  obtain ⟨hle, hsize⟩ := h.receive_bodyEnd
  have hroom := h.room
  have hbody := h.room_body
  have hcheck := h.le_check
  have hread := h.le_read
  have hin : Reading.InBuffer (c.receive c.bodyEnd) :=
    ⟨hcheck, Nat.le_add_right_of_le hread, hsize⟩
  apply processRead_bodyTaken hin h.checkState hle
  change 0 ≤ (c.startLine : ℤ) + c.contentLength ∧
    (c.startLine : ℤ) + c.contentLength < readBuffSize
  have hends := h.ends
  have hpos : 0 < formRoom := by decide
  omega

/-- A NUL that is put where there is one. -/
theorem spells_update {m : Memory} {q z : ℕ} {l : List UInt8} (h : Spells m q l)
    (hz : ∀ i (hi : i < l.length), z = q + i → l[i] = 0) :
  Spells (Function.update m z 0) q l
  := by
  apply h.congr
  intro i hi hlt
  by_cases hiz : i = z
  · obtain ⟨j, rfl⟩ := Nat.exists_eq_add_of_le hi
    have hj : j < l.length := by omega
    rw [← hiz, Function.update_self, h.getElem hj, hz j hj hiz.symm]
  · rw [Function.update_of_ne hiz]

/-- The NUL that `parse_content` stores is one of the bytes that complete the body, or lies in
front of it. -/
theorem BodyAhead.spells {c : Parser} (h : BodyAhead c) :
  Spells (c.receive c.bodyEnd).bodyTaken.readBuf c.startLine
    (c.received c.startLine ++ c.bodyEnd)
  := by
  have hcheck := h.le_check
  have hread := h.le_read
  have hlen : (c.received c.startLine).length = c.readIndex - c.startLine := length_bytes ..
  have hspells := spells_bytes (c.receive c.bodyEnd).readBuf c.startLine
    ((c.receive c.bodyEnd).readIndex - c.startLine)
  change Spells _ _ ((c.receive c.bodyEnd).received c.startLine) at hspells
  rw [received_receive c _ (hcheck.trans hread)] at hspells
  apply spells_update hspells
  intro i hi hz
  change (c.startLine + c.contentLength).toNat = c.startLine + i at hz
  rcases h.ends with hshort | ⟨-, hneg, hpos⟩
  · obtain ⟨j, rfl⟩ := Nat.exists_eq_add_of_le
      (show (c.received c.startLine).length ≤ i by omega)
    have hn : c.contentLength.toNat = (c.received c.startLine).length + j := by omega
    have hj : j < c.formTail.length := by
      obtain ⟨hle, -, hlen⟩ := c.length_bodyEnd
      omega
    rw [List.getElem_eq_iff, List.getElem?_append_right (Nat.le_add_right _ _),
      Nat.add_sub_cancel_left, bodyEnd, List.getElem?_append_left hj]
    rw [formTail, hn] at hj ⊢
    rw [List.getElem?_eq_getElem hj, getElem_formEnd (by omega) hj]
  · omega

/-- What `do_request` finds in `m_string`. -/
theorem BodyAhead.sent {c : Parser} (h : BodyAhead c) {u : ℕ} (hu : u + 11 ≤ c.startLine)
    (hrest : 5 + (nameOf (c.received c.startLine ++ c.formTail)).length + 10
      ≤ (c.received c.startLine ++ c.formTail).length) :
  Sent (c.receive c.bodyEnd).bodyTaken u c.startLine (c.received c.startLine ++ c.formTail)
  := by
  have hcheck := h.le_check
  have hread := h.le_read
  have hsize := h.receive_bodyEnd.2
  have hspells := h.spells
  have hlen : (c.received c.startLine).length = c.readIndex - c.startLine := length_bytes ..
  rw [receive_readIndex, c.length_bodyEnd.2.2] at hsize
  rw [bodyEnd, ← List.append_assoc, spells_append] at hspells
  refine ⟨hu, rfl, hspells.1, hspells.2.1, ?_, hrest⟩
  rw [List.length_append]
  omega

/-! ### Bodies that are waited for -/

section Waiting

variable {t : HttpTask} {query : List UInt8 → ℤ} {stat : List UInt8 → Answer}

/-- `do_request` comes to its end, when what was received of the form fits.  The URL is kept
from `b`. -/
theorem BodyAhead.answers {b c : Parser} (h : BodyAhead c) {u e : ℕ} (hu : u + 11 ≤ c.startLine)
    (he : UrlEnds b u e) (hslash : b.readBuf u = 47)
    (hkeeps : Keeps b (c.receive c.bodyEnd).bodyTaken)
    (hfits : ∀ p, Credentialed b u p → Fits b u p (c.received c.startLine)) :
  c.Answers t query stat c.bodyEnd
  := by
  have hslash' := (hkeeps.readBuf u (he.le.trans_lt he.lt)).trans hslash
  apply Answers.of_doRequest h.receive_bodyEnd.2 h.processRead_bodyEnd
  apply (he.keeps hkeeps).passes hslash'
  intro p hp
  have hcredentials := (he.credentialed_iff hkeeps).mp hp
  obtain ⟨hfits', hrest⟩ := fits_completed (hfits p hcredentials) c.contentLength.toNat
    (m := (c.checkIndex + c.contentLength - c.readIndex).toNat + 10) (Nat.le_add_left _ _)
  exact ⟨h.sent hu hrest, (he.fits_iff hkeeps hcredentials.slash _).mpr hfits'⟩

theorem Short.bodyAhead {c : Parser} (h : Short c)
    (hroom : c.checkIndex + c.contentLength + formRoom ≤ readBuffSize) :
  BodyAhead c
  := by
  have hshort := h.short
  have hcheck := h.le_check
  exact { h.toInBuffer with
    checkState := h.checkState, ends := .inl hshort, room := by omega, room_body := hroom }

/-- The end of a body whose first bytes fit. -/
theorem Short.answers {c : Parser} (h : Short c) (hs : Stands c)
    (hroom : c.checkIndex + c.contentLength + formRoom ≤ readBuffSize)
    (hfits : ∀ u p, Credentialed c u p → Fits c u p (c.received c.startLine)) :
  c.Answers t query stat c.bodyEnd
  := by
  obtain ⟨u, e, he, hslash, hu⟩ := hs.url (by rw [h.checkState]; decide)
  apply (h.bodyAhead hroom).answers hu he hslash (h.keeps_bodyTaken _).1 (hfits u)

/-- A call without new bytes turns to the bytes at which the scanner stands. -/
theorem Short.processRead_nil {c : Parser} (h : Short c)
    (hroom : (c.checkIndex : ℤ) + c.contentLength ≤ readBuffSize) :
  c.processRead = .ok (.returned .noRequest, c.nextLine) ∧ Short c.nextLine
  := by
  have hc := h.checkState
  have hshort := h.short
  have hcheck := h.le_check
  have hbuf : readBuffSize = 2048 := rfl
  have hnext : Short c.nextLine :=
    { le_check := le_rfl, le_read := h.le_read, le_size := h.le_size, checkState := hc
      short := by
        change (c.readIndex : ℤ) < c.checkIndex + c.contentLength
        omega
      before := h.before
      rests := rests_of_stops h.le_read h.le_size h.before (h.rests.cases h.le_read h.le_size) }
  refine ⟨?_, hnext⟩
  obtain ⟨status, hstatus, hl⟩ := hnext.rests
  rcases readPass_content_cases hc with ⟨hover, -⟩ | ⟨-, hp⟩ | ⟨hle, -⟩ | ⟨hle, -⟩
  · omega
  · have hfirst : readLine (c, .lineOk) = .inl (c.nextLine, .lineOpen) := by
      rw [readLine_content hc, hp]
      rfl
    rw [processRead, Loop.whileLoop_inl _ hfirst]
    apply Loop.whileLoop_inr
    apply readLine_wait (by rintro ⟨-, ⟨⟩⟩) hl hstatus
  · omega
  · omega

/-- A body that is waited for can be completed, when its first bytes fit, or those at which the
scanner stands. -/
theorem Short.repairable {c : Parser} (h : Short c) {chunks : List (List UInt8)}
    (hc : Unfinished init chunks c)
    (hroom : c.checkIndex + c.contentLength + formRoom ≤ readBuffSize) (hhope : ¬ Hopeless c) :
  Repairable t query stat c
  := by
  have hs := hc.stands
  by_cases hfits : ∀ u p, Credentialed c u p → Fits c u p (c.received c.startLine)
  · apply (h.answers hs hroom hfits).repairable
  · -- the bytes at the beginning of the body do not fit, but those further on do
    simp only [not_forall] at hfits
    obtain ⟨u, p, hcredentials, hstart⟩ := hfits
    have hcheck : Fits c u p (c.received c.checkIndex) :=
      not_not.mp fun hcheck => hhope (.body h.checkState hcredentials hstart hcheck)
    have hsize : (c.receive []).readIndex ≤ readBuffSize := h.le_size
    obtain ⟨hnil, hnext⟩ := h.processRead_nil (by omega)
    have hcall : (c.receive []).processRead = .ok (.returned .noRequest, c.nextLine) := by
      rw [receive_nil]
      apply hnil
    have hanswers : c.nextLine.Answers t query stat c.nextLine.bodyEnd := by
      apply hnext.answers (hc.append hsize hcall).stands hroom
      intro u' p' h'
      obtain ⟨v, e, he, -, -⟩ := hs.url (by rw [h.checkState]; decide)
      cases he.url.symm.trans hcredentials.url
      cases he.url.symm.trans h'.url
      cases hcredentials.slash.symm.trans h'.slash
      apply (he.fits_iff (keeps_nextLine h.le_check) hcredentials.slash _).mpr hcheck
    exact .of_call hsize hcall hanswers.repairable

end Waiting

end Parser

end WebServer
