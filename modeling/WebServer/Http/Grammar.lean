import WebServer.Http.Request

/-!
# The grammar of request lines

`parse_request_line` moves `m_url` behind the method, cuts the line into its words by NULs,
and moves `m_url` on to the path of the target, behind a scheme.  On a line of three words,
the method and the version being served ones, what it comes to depends on the target
(`Ends.parseRequestLine_words`); every other line is rejected
(`Ends.parseRequestLine_rejects`).

A target that begins with `http://` and has no slash behind it leaves a null pointer, which
the next comparison reads.  On the other lines `parse_request_line` accepts what has the form
of a request line, and nothing else (`Ends.meetsGrammar_iff`).
-/

open CString Fallible

namespace WebServer

/-- The words of a request line: a method and a version that are served, and a target
without blanks between them. -/
structure Words where
  method : List UInt8
  blank : UInt8
  target : List UInt8
  blank' : UInt8
  version : List UInt8
  method_implemented : (Parser.methodOf method).isSome = true
  blank_isBlank : isBlank blank = true
  target_word : ∀ b ∈ target, isBlank b = false
  blank'_isBlank : isBlank blank' = true
  version_http : eqIgnoreCase version (ascii "HTTP/1.1") = true

/-- The words with the blanks between them. -/
def Words.line (w : Words) : List UInt8 :=
  w.method ++ w.blank :: (w.target ++ w.blank' :: w.version)

/-- A request line: its target is a path, or has one behind the scheme. -/
def IsRequestLine (line : List UInt8) : Prop :=
  ∃ w : Words, line = w.line ∧ hasPath w.target = true

/-- A target that begins with `http://` and has no slash behind it. -/
def pathless (target : List UInt8) : Bool :=
  hasPrefixIgnoreCase target (ascii "http://") && !(target.drop 7).contains 47

theorem hasPath_of_pathless {target : List UInt8} (h : pathless target = true) :
  hasPath target = false
  := by
  rw [pathless, Bool.and_eq_true, Bool.not_eq_true'] at h
  rw [hasPath, if_pos h.1, h.2]

/-! ### The first word of a line -/

section Split

variable {accept : UInt8 → Bool} {w w' r r' : List UInt8} {b b' : UInt8}

/-- A string has no byte of a set, or is a word without one and what follows its end. -/
theorem split_cases (accept : UInt8 → Bool) (l : List UInt8) :
  (∀ b ∈ l, accept b = false) ∨
    ∃ w b r, l = w ++ b :: r ∧ (∀ x ∈ w, accept x = false) ∧ accept b = true
  := by
  induction l with
  | nil => exact .inl fun b hb => absurd hb List.not_mem_nil
  | cons a l ih =>
      cases ha : accept a with
      | true => exact .inr ⟨[], a, l, rfl, fun x hx => absurd hx List.not_mem_nil, ha⟩
      | false =>
          rcases ih with hnone | ⟨w, b, r, rfl, hw, hb⟩
          · exact .inl (List.forall_mem_cons.mpr ⟨ha, hnone⟩)
          · exact .inr ⟨a :: w, b, r, rfl, List.forall_mem_cons.mpr ⟨ha, hw⟩, hb⟩

/-- The word and what follows it are determined. -/
theorem split_unique (h : w ++ b :: r = w' ++ b' :: r') (hw : ∀ x ∈ w, accept x = false)
    (hb : accept b = true) (hw' : ∀ x ∈ w', accept x = false) (hb' : accept b' = true) :
  w = w' ∧ r = r'
  := by
  induction w generalizing w' with
  | nil =>
      cases w' with
      | nil => exact ⟨rfl, (List.cons.inj h).2⟩
      | cons a w' =>
          obtain ⟨rfl, -⟩ := List.cons.inj h
          cases hb.symm.trans (hw' b List.mem_cons_self)
  | cons a w ih =>
      cases w' with
      | nil =>
          obtain ⟨rfl, -⟩ := List.cons.inj h
          cases hb'.symm.trans (hw a List.mem_cons_self)
      | cons a' w' =>
          obtain ⟨rfl, htail⟩ := List.cons.inj h
          obtain ⟨rfl, rfl⟩ :=
            ih htail (fun x hx => hw x (List.mem_cons_of_mem a hx))
              (fun x hx => hw' x (List.mem_cons_of_mem a hx))
          exact ⟨rfl, rfl⟩

end Split

namespace Words

theorem method_word (w : Words) :
  ∀ b ∈ w.method, isBlank b = false
  := fun b hb => isBlank_of_isWordByte (isWordByte_method w.method_implemented b hb)

/-- The first word of a line of words is the method. -/
theorem rest_eq (w : Words) {method rest : List UInt8} {blank : UInt8}
    (h : method ++ blank :: rest = w.line) (hmethod : ∀ b ∈ method, isBlank b = false)
    (hblank : isBlank blank = true) :
  method = w.method ∧ rest = w.target ++ w.blank' :: w.version
  := split_unique h hmethod hblank w.method_word w.blank_isBlank

/-- A line has one target at most. -/
theorem target_eq {w w' : Words} (h : w.line = w'.line) :
  w.target = w'.target
  := by
  have hrest := (w'.rest_eq h w.method_word w.blank_isBlank).2
  exact (split_unique hrest w.target_word w.blank'_isBlank w'.target_word w'.blank'_isBlank).1

end Words

namespace Parser

/-- A request line is rejected, and the state is left as it is. -/
def Rejects (c : Parser) (r : Except Fault (HttpCode × Parser)) : Prop :=
  ∃ c', r = .ok (.badRequest, c') ∧ c'.checkState = c.checkState

/-! ### The target -/

/-- Where there is no slash behind a scheme, skipping the scheme leaves a null pointer. -/
theorem skipScheme_none {c : Parser} {u : ℕ} {scheme : List UInt8}
    (hscheme : hasPrefixIgnoreCase (c.text u) scheme = true)
    (hslash : ((c.text u).drop scheme.length).contains 47 = false) :
  c.skipScheme scheme (some u) = .ok none
  := by
  have hdrop : c.text (u + scheme.length) = (c.text u).drop scheme.length :=
    stringAt_drop (length_of_hasPrefixIgnoreCase hscheme)
  have hnone : strpbrk c.readBuf readBuffSize (u + scheme.length) (· == 47) = none := by
    apply strpbrk_eq_none
    intro b hb
    change b ∈ c.text (u + scheme.length) at hb
    rw [hdrop] at hb
    rw [beq_eq_false_iff_ne]
    rintro rfl
    rw [List.contains_iff_mem.mpr hb] at hslash
    cases hslash
  rw [skipScheme, if_pos hscheme, hnone]

theorem skipScheme_other {c : Parser} {u : ℕ} {scheme : List UInt8}
    (h : ¬ hasPrefixIgnoreCase (c.text u) scheme = true) :
  c.skipScheme scheme (some u) = .ok (some u)
  := by
  rw [skipScheme, if_neg h]

/-- A null pointer is read. -/
theorem parseUrl_pathless {c : Parser} {u : ℕ} (h : pathless (c.text u) = true) :
  c.parseUrl u = .error .nullPointer
  := by
  rw [pathless, Bool.and_eq_true, Bool.not_eq_true'] at h
  rw [parseUrl, skipScheme_none h.1 h.2, ok_bind]
  rfl

/-- Any other target without a path is rejected. -/
theorem Ends.parseUrl_rejects {c : Parser} {u e : ℕ} (h : Ends c u e)
    (hpath : hasPath (c.text u) = false) (hless : pathless (c.text u) = false) :
  Rejects c (c.parseUrl u)
  := by
  have hhttp : ¬ hasPrefixIgnoreCase (c.text u) (ascii "http://") = true := by
    intro hhttp
    rw [hasPath, if_pos hhttp] at hpath
    rw [pathless, hhttp, hpath] at hless
    cases hless
  rw [hasPath, if_neg hhttp] at hpath
  rw [parseUrl, skipScheme_other hhttp, ok_bind]
  split at hpath
  · next hhttps =>
      rw [skipScheme_none hhttps hpath, ok_bind]
      exact ⟨_, rfl, rfl⟩
  · next hhttps =>
      have hslash : c.readBuf u ≠ 47 := by
        intro hslash
        have ht : c.text u = 47 :: c.text (u + 1) := by
          rw [← hslash]
          apply stringAt_cons (Nat.lt_of_le_of_lt h.le h.lt_size) (by rw [hslash]; decide)
        rw [ht] at hpath
        cases hpath
      rw [skipScheme_other hhttps, ok_bind]
      exact ⟨_, if_pos hslash, rfl⟩

/-! ### The line -/

/-- What becomes of a line of words. -/
theorem Ends.parseRequestLine_words {c : Parser} {p e : ℕ} (h : Ends c p e)
    (hroom : e + 2 ≤ readBuffSize) {w : Words} (ht : c.text p = w.line) :
  (hasPath w.target = true → ∃ c', c.parseRequestLine p = .ok (.noRequest, c') ∧
      c'.checkState = .header ∧ c'.urlText = some (pageOf (pathOf w.target))) ∧
    (pathless w.target = true → c.parseRequestLine p = .error .nullPointer) ∧
    (hasPath w.target = false → pathless w.target = false → Rejects c (c.parseRequestLine p))
  := by
  obtain ⟨m, hm⟩ := Option.isSome_iff_exists.mp w.method_implemented
  obtain ⟨d, u, hd, hrest⟩ := h.parseRequestLine_method ht hm w.blank_isBlank
  obtain ⟨d', e', hd', hurl, hend⟩ :=
    hrest.parseVersion_url w.target_word w.blank'_isBlank w.version_http
  rw [hd, hd', ← hurl.text]
  refine ⟨?_, parseUrl_pathless, ?_⟩
  · intro hpath
    obtain ⟨c', hc', hstate, -, -, hpage⟩ := hurl.parseUrl_header (by omega) hpath
    exact ⟨c', hc', hstate, hpage⟩
  · intro hpath hless
    obtain ⟨c', hc', hstate⟩ := hurl.parseUrl_rejects hpath hless
    exact ⟨c', hc', hstate.trans hurl.checkState⟩

/-- A line that is not cut into a method, a target and a version is rejected. -/
theorem Ends.parseRequestLine_rejects {c : Parser} {p e : ℕ} (h : Ends c p e)
    (hline : ∀ w : Words, c.text p ≠ w.line) :
  Rejects c (c.parseRequestLine p)
  := by
  rcases split_cases isBlank (c.text p) with hnone | ⟨method, blank, rest, ht, hmethod, hblank⟩
  · refine ⟨{ c with url := none }, ?_, rfl⟩
    rw [parseRequestLine, cutWord, strpbrk_eq_none hnone, ok_bind]
  cases hm : methodOf method with
  | none =>
      obtain ⟨hw, hlt⟩ := h.cutWord_eq ht hmethod hblank
      have hword := text_put_word (hlt.trans h.lt_size) ht
      let u := p + method.length + 1
      let d := { c.put (p + method.length) 0 with url := some u }
      refine ⟨d, ?_, rfl⟩
      rw [parseRequestLine, hw, ok_bind]
      change d.parseMethod p u = _
      rw [parseMethod, show d.text p = method from hword, hm]
  | some m =>
      obtain ⟨d, u, hd, hrest⟩ := h.parseRequestLine_method ht hm hblank
      rw [hd]
      rcases split_cases isBlank rest with hnone' | ⟨target, blank', version, rfl, htarget, hblank'⟩
      · refine ⟨{ d with version := none }, ?_, hrest.checkState⟩
        rw [← hrest.text] at hnone'
        rw [parseVersion, cutWord, strpbrk_eq_none hnone', ok_bind]
      · obtain ⟨hw, hlt⟩ := hrest.cutWord_eq hrest.text htarget hblank'
        have hversion := hrest.text_put_rest hrest.text
        let v := u + target.length + 1
        let d' := { d.put (u + target.length) 0 with version := some v }
        have hhttp : ¬ eqIgnoreCase (d'.text v) (ascii "HTTP/1.1") = true := by
          rw [show d'.text v = version from hversion]
          intro hhttp
          exact hline ⟨method, blank, target, blank', version, Option.isSome_of_eq_some hm, hblank,
            htarget, hblank', hhttp⟩ ht
        refine ⟨d', ?_, hrest.checkState⟩
        rw [parseVersion, hw, ok_bind]
        apply if_neg hhttp

/-- A null pointer is all that can go wrong. -/
theorem Ends.parseRequestLine_ok {c : Parser} {p e : ℕ} (h : Ends c p e)
    (hroom : e + 2 ≤ readBuffSize)
    (hline : ¬ ∃ w : Words, c.text p = w.line ∧ pathless w.target = true) :
  ∃ r, c.parseRequestLine p = .ok r
  := by
  by_cases hw : ∃ w : Words, c.text p = w.line
  · obtain ⟨w, ht⟩ := hw
    obtain ⟨haccepts, -, hrejects⟩ := h.parseRequestLine_words hroom ht
    cases hpath : hasPath w.target with
    | true =>
        obtain ⟨c', hc', -⟩ := haccepts hpath
        exact ⟨_, hc'⟩
    | false =>
        obtain ⟨c', hc', -⟩ := hrejects hpath
          (Bool.eq_false_of_not_eq_true fun hless => hline ⟨w, ht, hless⟩)
        exact ⟨_, hc'⟩
  · obtain ⟨c', hc', -⟩ := h.parseRequestLine_rejects (not_exists.mp hw)
    exact ⟨_, hc'⟩

/-- What `parse_request_line` is to do with the line at `p`: it returns `NO_REQUEST` for the
request lines only, behind which it waits for the headers and `m_url` is the path of the
target; any other line it rejects. -/
structure MeetsGrammar (c : Parser) (p : ℕ) : Prop where
  accepts_iff : (∃ c', c.parseRequestLine p = .ok (.noRequest, c')) ↔ IsRequestLine (c.text p)
  accepts : ∀ w : Words, c.text p = w.line → hasPath w.target = true →
    ∃ c', c.parseRequestLine p = .ok (.noRequest, c') ∧ c'.checkState = .header ∧
      c'.urlText = some (pageOf (pathOf w.target))
  rejects : ¬ IsRequestLine (c.text p) → Rejects c (c.parseRequestLine p)

/-- `parse_request_line` does so unless the target begins with `http://` and has no slash
behind it. -/
theorem Ends.meetsGrammar_iff {c : Parser} {p e : ℕ} (h : Ends c p e)
    (hroom : e + 2 ≤ readBuffSize) :
  MeetsGrammar c p ↔ ¬ ∃ w : Words, c.text p = w.line ∧ pathless w.target = true
  := by
  constructor
  · rintro hmeets ⟨w, ht, hless⟩
    have hno : ¬ IsRequestLine (c.text p) := by
      rintro ⟨w', ht', hpath⟩
      rw [← Words.target_eq (ht.symm.trans ht'), hasPath_of_pathless hless] at hpath
      cases hpath
    obtain ⟨c', hc', -⟩ := hmeets.rejects hno
    cases hc'.symm.trans ((h.parseRequestLine_words hroom ht).2.1 hless)
  · intro hno
    have accepts (w : Words) (ht : c.text p = w.line) := (h.parseRequestLine_words hroom ht).1
    have rejects (hline : ¬ IsRequestLine (c.text p)) : Rejects c (c.parseRequestLine p) := by
      by_cases hw : ∃ w : Words, c.text p = w.line
      · obtain ⟨w, ht⟩ := hw
        apply (h.parseRequestLine_words hroom ht).2.2
        · exact Bool.eq_false_of_not_eq_true fun hpath => hline ⟨w, ht, hpath⟩
        · exact Bool.eq_false_of_not_eq_true fun hless => hno ⟨w, ht, hless⟩
      · apply h.parseRequestLine_rejects (not_exists.mp hw)
    refine ⟨⟨?_, ?_⟩, accepts, rejects⟩
    · rintro ⟨c', hc'⟩
      by_contra hline
      obtain ⟨d, hd, -⟩ := rejects hline
      cases hd.symm.trans hc'
    · rintro ⟨w, ht, hpath⟩
      obtain ⟨c', hc', -⟩ := accepts w ht hpath
      exact ⟨c', hc'⟩

/-- A line in the buffer, with the two NULs that end it. -/
def holding (line : String) : Parser := init.receive (ascii line ++ [0, 0])

theorem meetsGrammar_iff_scheme :
  MeetsGrammar (holding "get http://a/b http/1.1") 0 ↔
    ¬ ∃ w : Words, (holding "get http://a/b http/1.1").text 0 = w.line ∧ pathless w.target = true
  := Ends.meetsGrammar_iff (e := 23) ⟨by decide, by decide, by decide, by decide⟩ (by decide)

set_option maxRecDepth 10000 in
/-- A target with the scheme `http` and no path is not rejected. -/
theorem not_meetsGrammar :
  ¬ ∀ (c : Parser) (p e : ℕ), Ends c p e → e + 2 ≤ readBuffSize → MeetsGrammar c p
  := by
  intro h
  have hmeets := h (holding "GET http://a HTTP/1.1") 0 21
    ⟨by decide, by decide, by decide, by decide⟩ (by decide)
  have hfault : ((holding "GET http://a HTTP/1.1").parseRequestLine 0).map Prod.fst
      = .error .nullPointer := by
    decide +kernel
  by_cases hline : IsRequestLine ((holding "GET http://a HTTP/1.1").text 0)
  · obtain ⟨c', hc'⟩ := hmeets.accepts_iff.mpr hline
    rw [hc'] at hfault
    cases hfault
  · obtain ⟨c', hc', -⟩ := hmeets.rejects hline
    rw [hc'] at hfault
    cases hfault

end Parser

end WebServer
