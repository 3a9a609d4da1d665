import WebServer.Http.Credentials

/-!
# Parts of a form

For a request with credentials `do_request` copies the name and the password out of
`m_string`, and comes to its end when the copies fit.  Then they fit already in every part of
the bytes that `m_string` points to (`fits_of_makePath`), and a part in which they fit can
be completed (`fits_completed`).
-/

open CString Fallible WebServer.Parser

namespace WebServer

namespace Parser

/-- The request is one with credentials: `m_url` is `u`, the last slash is at `p`, and the digit
of a login or a registration is behind it. -/
structure Credentialed (c : Parser) (u p : ℕ) : Prop where
  url : c.url = some u
  slash : strrchr c.readBuf readBuffSize u 47 = some p
  cgi : c.cgi = 1
  digit : c.readBuf (p + 1) = 50 ∨ c.readBuf (p + 1) = 51

end Parser

namespace HttpTask

theorem hasCredentials_iff {c : HttpTask} {u p : ℕ} (hu : c.url = some u)
    (hp : strrchr c.readBuf readBuffSize u 47 = some p) :
  c.hasCredentials p = true ↔ Credentialed c.toParser u p
  := by
  rw [hasCredentials, Bool.and_eq_true, Bool.or_eq_true, beq_iff_eq, beq_iff_eq, beq_iff_eq]
  exact ⟨fun h => ⟨hu, hp, h.1, h.2⟩, fun h => ⟨h.cgi, h.digit⟩⟩

/-! ### Parts -/

theorem upTo_isPrefix_append (stop : UInt8) (l l' : List UInt8) :
  upTo stop l <+: upTo stop (l ++ l')
  := by
  rw [upTo, upTo, List.takeWhile_append]
  split
  · next hall =>
      rw [(List.takeWhile_prefix _).eq_of_length hall]
      apply List.prefix_append
  · apply List.prefix_refl

theorem upTo_append_of_mem {stop : UInt8} {l : List UInt8} (h : stop ∈ l) (l' : List UInt8) :
  upTo stop (l ++ l') = upTo stop l
  := by
  obtain ⟨v, w, rfl, hv⟩ := List.eq_append_cons_of_mem h
  rw [List.append_assoc, List.cons_append, upTo_append hv, upTo_append hv]

theorem length_upTo_lt {stop : UInt8} {l : List UInt8} (h : stop ∈ l) :
  (upTo stop l).length < l.length
  := by
  obtain ⟨v, w, rfl, hv⟩ := List.eq_append_cons_of_mem h
  rw [upTo_append hv, List.length_append, List.length_cons]
  omega

theorem nameOf_isPrefix_append (l l' : List UInt8) :
  nameOf l <+: nameOf (l ++ l')
  := by
  rw [nameOf, nameOf, List.drop_append]
  apply upTo_isPrefix_append

theorem nameOf_append_of_mem {l : List UInt8} (h : 38 ∈ l.drop 5) (l' : List UInt8) :
  nameOf (l ++ l') = nameOf l
  := by
  rw [nameOf, nameOf, List.drop_append, upTo_append_of_mem h]

/-- Without an `&` all is name. -/
theorem passwordOf_of_not_mem {l : List UInt8} (h : 38 ∉ l.drop 5) :
  passwordOf l = []
  := by
  have hname : nameOf l = l.drop 5 := upTo_eq_self h
  rw [passwordOf, hname, List.length_drop, List.drop_eq_nil_of_le (by omega)]
  rfl

theorem length_passwordOf_append (l l' : List UInt8) :
  (passwordOf l).length ≤ (passwordOf (l ++ l')).length
  := by
  by_cases h : 38 ∈ l.drop 5
  · rw [passwordOf, passwordOf, nameOf_append_of_mem h, List.drop_append]
    apply (upTo_isPrefix_append ..).length_le
  · rw [passwordOf_of_not_mem h]
    apply Nat.zero_le

/-- What fits, fits in every part. -/
theorem Fits.of_append {c : Parser} {u p : ℕ} {l l' : List UInt8} (h : Fits c u p (l ++ l')) :
  Fits c u p l
  := by
  have hname := (nameOf_isPrefix_append l l').length_le
  have hpassword := length_passwordOf_append l l'
  refine ⟨h.url, hname.trans h.name, hpassword.trans h.password, fun hflag => ?_⟩
  obtain ⟨t, ht⟩ := nameOf_isPrefix_append l l'
  have hstring := (upTo_isPrefix_append 0 (nameOf l) t).length_le
  rw [ht] at hstring
  apply (Nat.add_le_add hstring hpassword).trans (h.statement hflag)

/-! ### What comes out -/

/-- What is copied are the bytes up to the first `stop`, and the array has room for them. -/
theorem upTo_bytes_of_copyUntil {m : Memory} {stop : UInt8} {room p n : ℕ} {w : List UInt8}
    (hn : p + n = readBuffSize) (h : copyUntil m stop room p = .ok w) :
  upTo stop (bytes m p n) = w ∧ w.length < room
  := by
  induction room generalizing p n w with
  | zero => cases h
  | succ room ih =>
      rw [copyUntil] at h
      split at h
      · cases h
      · next hlt =>
          obtain ⟨n, rfl⟩ : ∃ k, n = k + 1 := ⟨n - 1, by omega⟩
          rw [bytes_succ, upTo, List.takeWhile_cons]
          split at h
          · next hstop =>
              cases h
              rw [if_neg (by rw [hstop, bne_self_eq_false]; decide)]
              exact ⟨rfl, Nat.succ_pos room⟩
          · next hne =>
              obtain ⟨rest, hrest, h⟩ := bind_eq_ok.mp h
              cases h
              obtain ⟨htake, hlen⟩ := ih (n := n) (by omega) hrest
              rw [if_pos (bne_iff_ne.mpr hne)]
              exact ⟨congrArg (m p :: ·) htake, Nat.succ_lt_succ hlen⟩

/-- The name and the password that come out are those of the bytes that `m_string` points to. -/
theorem form_eq_ok {c : HttpTask} {r : List UInt8 × List UInt8} (h : c.form = .ok r) :
  ∃ q, c.string = some q ∧ ∃ body, body = bytes c.readBuf q (readBuffSize - q) ∧
    (nameOf body).length ≤ 99 ∧ (passwordOf body).length ≤ 99 ∧
    r = (upTo 0 (nameOf body), passwordOf body)
  := by
  rw [form] at h
  split at h
  · cases h
  · next q hq =>
      obtain ⟨name, hname, h⟩ := bind_eq_ok.mp h
      obtain ⟨password, hpassword, h⟩ := bind_eq_ok.mp h
      cases h
      have hlt {p room : ℕ} {stop : UInt8} {w : List UInt8}
          (h : copyUntil c.readBuf stop room p = .ok w) : p ≤ readBuffSize := by
        cases room with
        | zero => cases h
        | succ room =>
            rw [copyUntil] at h
            split at h
            · cases h
            · omega
      have hpassword_le := hlt hpassword
      obtain ⟨hupto, hshort⟩ := upTo_bytes_of_copyUntil
        (n := readBuffSize - (q + 5)) (by omega) hname
      obtain ⟨hupto', hshort'⟩ := upTo_bytes_of_copyUntil
        (n := readBuffSize - (q + 5 + name.length + 10)) (by omega) hpassword
      have hdrop {k : ℕ} (hk : q + k ≤ readBuffSize) :
          (bytes c.readBuf q (readBuffSize - q)).drop k
            = bytes c.readBuf (q + k) (readBuffSize - (q + k)) := by
        rw [show readBuffSize - q = k + (readBuffSize - (q + k)) by omega, bytes_add]
        apply List.drop_left' (length_bytes ..)
      have hnameOf : nameOf (bytes c.readBuf q (readBuffSize - q)) = name := by
        rw [nameOf, hdrop (by omega), hupto]
      have hpasswordOf : passwordOf (bytes c.readBuf q (readBuffSize - q)) = password := by
        rw [passwordOf, hnameOf, hdrop (by omega), ← hupto']
        congr 2
        · omega
        · omega
      refine ⟨q, hq, _, rfl, ?_, ?_, ?_⟩
      · rw [hnameOf]
        omega
      · rw [hpasswordOf]
        omega
      · rw [hnameOf, hpasswordOf]
        rfl

/-- When `do_request` comes to its call of `stat`, the copies fit in all that `m_string` points
to. -/
theorem fits_of_makePath {c d : HttpTask} {query : List UInt8 → ℤ} {u p e : ℕ}
    (h : Credentialed c.toParser u p) (hue : u ≤ e) (he : e < readBuffSize) (hnul : c.readBuf e = 0)
    (hd : c.makePath query = .ok d) :
  ∃ q, c.string = some q ∧ Fits c.toParser u p (bytes c.readBuf q (readBuffSize - q))
  := by
  have hcredentials := (hasCredentials_iff h.url h.slash).mpr h
  have htext := length_text_of_hasCredentials hue he hnul h.slash hcredentials
  have hslash : (ascii "/").length = 1 := by decide
  rw [makePath_of_hasCredentials h.url h.slash hcredentials] at hd
  obtain ⟨d', hd', -⟩ := bind_eq_ok.mp hd
  rw [credentials] at hd'
  dsimp only at hd'
  split at hd'
  · cases hd'
  · next hreal =>
    rw [List.length_append, hslash] at hreal
    change ¬ 200 < 1 + (c.text (u + 2)).length + 1 at hreal
    obtain ⟨⟨name, password⟩, hform, hd'⟩ := bind_eq_ok.mp hd'
    obtain ⟨q, hq, body, rfl, hname, hpassword, heq⟩ := form_eq_ok hform
    obtain ⟨rfl, rfl⟩ := Prod.mk.inj heq
    refine ⟨q, hq, by omega, hname, hpassword, fun hflag => ?_⟩
    change c.rooted.readBuf (p + 1) = 51 at hflag
    dsimp only at hd'
    rw [if_pos hflag, register] at hd'
    dsimp only at hd'
    split at hd'
    · cases hd'
    · next hstatement =>
        rw [length_sqlInsert] at hstatement
        change ¬ 200 < (upTo 0 (nameOf (bytes c.readBuf q (readBuffSize - q)))).length
          + (passwordOf (bytes c.readBuf q (readBuffSize - q))).length + 47 + 1 at hstatement
        omega

/-- They fit in the first bytes, too. -/
theorem fits_bytes_of_makePath {c d : HttpTask} {query : List UInt8 → ℤ} {u p e : ℕ}
    (h : Credentialed c.toParser u p) (hue : u ≤ e) (he : e < readBuffSize) (hnul : c.readBuf e = 0)
    (hd : c.makePath query = .ok d) :
  ∃ q, c.string = some q ∧ ∀ n, q + n ≤ readBuffSize →
    Fits c.toParser u p (bytes c.readBuf q n)
  := by
  obtain ⟨q, hq, hfits⟩ := fits_of_makePath h hue he hnul hd
  refine ⟨q, hq, fun n hn => ?_⟩
  rw [show readBuffSize - q = n + (readBuffSize - (q + n)) by omega, bytes_add] at hfits
  apply hfits.of_append

/-- `do_request` comes to its call of `stat` when the copies of a request with credentials
fit. -/
theorem makePath_of_fits {c : HttpTask} {u p q : ℕ} {body : List UInt8} (hu : c.url = some u)
    (hp : strrchr c.readBuf readBuffSize u 47 = some p)
    (h : Credentialed c.toParser u p → Sent c.toParser u q body ∧ Fits c.toParser u p body)
    (query : List UInt8 → ℤ) :
  ∃ d, c.makePath query = .ok d
  := by
  by_cases hcredentials : c.hasCredentials p = true
  · obtain ⟨hsent, hfits⟩ := h ((hasCredentials_iff hu hp).mp hcredentials)
    obtain ⟨d, -, hd⟩ := hsent.makePath_of_fits hu hp hcredentials hfits query
    exact ⟨_, hd⟩
  · refine ⟨c.rooted.route u p, ?_⟩
    rw [makePath]
    dsimp only
    rw [hu]
    dsimp only
    rw [hp]
    dsimp only
    change (if c.rooted.hasCredentials p = true then
      c.rooted.credentials query u p >>= fun d => .ok (d.route u p) else _) = _
    apply if_neg hcredentials

/-! ### Completions -/

/-- The bytes that end the name in a form of which `l` was received, with its `&` at the offset
`a`. -/
def nameEnd (l : List UInt8) (a m : ℕ) : List UInt8 :=
  List.replicate (a - l.length) 0 ++ 38 :: List.replicate m 0

/-- The bytes that complete a form of which `l` was received, with a NUL where `n` bytes of the
form end. -/
def formEnd (l : List UInt8) (n m : ℕ) : List UInt8 :=
  if 38 ∈ l.drop 5 then
    List.replicate m 0
  else
    nameEnd l (max l.length (if n = 5 then 6 else 5)) m

theorem length_nameEnd (l : List UInt8) (a m : ℕ) :
  (nameEnd l a m).length = a - l.length + (m + 1)
  := by
  rw [nameEnd, List.length_append, List.length_cons, List.length_replicate, List.length_replicate]

theorem length_formEnd (l : List UInt8) (n m : ℕ) :
  m ≤ (formEnd l n m).length ∧ (formEnd l n m).length ≤ m + 7
  := by
  rw [formEnd]
  split
  · rw [List.length_replicate]
    omega
  · rw [length_nameEnd]
    split
    · omega
    · omega

theorem upTo_zero_replicate (l : List UInt8) (m : ℕ) :
  upTo 0 (l ++ List.replicate m 0) = upTo 0 l
  := by
  cases m with
  | zero => rw [List.replicate_zero, List.append_nil]
  | succ m =>
      by_cases h : 0 ∈ l
      · rw [upTo_append_of_mem h]
      · rw [List.replicate_succ, upTo_append h, upTo_eq_self h]

/-- NULs behind a form with a name leave the name and the password. -/
theorem form_append_replicate {l : List UInt8} (h : 38 ∈ l.drop 5) (m : ℕ) :
  nameOf (l ++ List.replicate m 0) = nameOf l ∧
    passwordOf (l ++ List.replicate m 0) = passwordOf l
  := by
  have hname := nameOf_append_of_mem h (List.replicate m 0)
  refine ⟨hname, ?_⟩
  rw [passwordOf, hname, List.drop_append, List.drop_replicate, upTo_zero_replicate, passwordOf]

/-- An `&` behind a part of a name ends it, and the password is empty. -/
theorem form_append_nameEnd {l : List UInt8} (h : 38 ∉ l.drop 5) {a : ℕ} (ha : 5 ≤ a)
    (hl : l.length ≤ a) (m : ℕ) :
  (nameOf (l ++ nameEnd l a m)).length = a - 5 ∧ passwordOf (l ++ nameEnd l a m) = []
  := by
  have hlen : (l ++ List.replicate (a - l.length) 0).length = a := by
    rw [List.length_append, List.length_replicate]
    omega
  have hname : nameOf (l ++ nameEnd l a m) = (l ++ List.replicate (a - l.length) 0).drop 5 := by
    rw [nameOf, nameEnd, ← List.append_assoc, List.drop_append_of_le_length (by omega), upTo_append]
    rw [List.drop_append, List.drop_replicate, List.mem_append, not_or]
    refine ⟨h, fun hmem => ?_⟩
    cases List.eq_of_mem_replicate hmem
  have hlength : (nameOf (l ++ nameEnd l a m)).length = a - 5 := by
    rw [hname, List.length_drop, hlen]
  refine ⟨hlength, ?_⟩
  rw [passwordOf, hlength, nameEnd, ← List.append_assoc, List.drop_append, hlen,
    List.drop_eq_nil_of_le (by omega), show 5 + (a - 5) + 10 - a = 9 + 1 by omega,
    List.drop_succ_cons, List.drop_replicate]
  apply upTo_zero_replicate [] _

/-- What fits in a part fits when it is completed, and enough bytes follow the name. -/
theorem fits_completed {c : Parser} {u p : ℕ} {l : List UInt8} (h : Fits c u p l) (n : ℕ) {m : ℕ}
    (hm : 10 ≤ m) :
  Fits c u p (l ++ formEnd l n m) ∧
    5 + (nameOf (l ++ formEnd l n m)).length + 10 ≤ (l ++ formEnd l n m).length
  := by
  rw [formEnd]
  split
  · next hmem =>
      obtain ⟨hname, hpassword⟩ := form_append_replicate hmem m
      have hlt : (nameOf l).length < (l.drop 5).length := length_upTo_lt hmem
      rw [List.length_drop] at hlt
      constructor
      · refine ⟨h.url, ?_, ?_, ?_⟩
        · rw [hname]
          apply h.name
        · rw [hpassword]
          apply h.password
        · rw [hname, hpassword]
          apply h.statement
      · rw [List.length_append, List.length_replicate, hname]
        omega
  · next hmem =>
      generalize ha : max l.length (if n = 5 then 6 else 5) = a
      have hshort := h.name
      rw [nameOf, upTo_eq_self hmem, List.length_drop] at hshort
      have hplace : 5 ≤ a ∧ l.length ≤ a ∧ a - 5 ≤ 99 := by
        split at ha
        · omega
        · omega
      obtain ⟨hname, hpassword⟩ := form_append_nameEnd hmem hplace.1 hplace.2.1 m
      have hstring : (upTo 0 (nameOf (l ++ nameEnd l a m))).length ≤ _ :=
        (List.takeWhile_prefix _).length_le
      rw [hname] at hstring
      constructor
      · refine ⟨h.url, ?_, ?_, fun _ => ?_⟩
        · rw [hname]
          apply hplace.2.2
        · rw [hpassword]
          apply Nat.zero_le
        · rw [hpassword, List.length_nil]
          omega
      · rw [hname, List.length_append, length_nameEnd]
        omega

/-- Where `n` bytes end, a completion has a NUL. -/
theorem getElem_formEnd {l : List UInt8} {i m : ℕ} (hi : 0 < i)
    (hlt : i < (formEnd l (l.length + i) m).length) :
  (formEnd l (l.length + i) m)[i] = 0
  := by
  have hmem : ∀ b ∈ (formEnd l (l.length + i) m)[i]?, b = 0 := by
    rw [formEnd]
    split
    · intro b hb
      apply List.eq_of_mem_replicate (List.mem_of_getElem? hb)
    · intro b hb
      generalize ha : max l.length (if l.length + i = 5 then 6 else 5) = a at hb
      have hne : i ≠ a - l.length := by
        split at ha
        · omega
        · omega
      rw [nameEnd, List.getElem?_append] at hb
      split at hb
      · apply List.eq_of_mem_replicate (List.mem_of_getElem? hb)
      · next hge =>
          rw [List.length_replicate] at hge hb
          obtain ⟨j, hj⟩ : ∃ j, i - (a - l.length) = j + 1 := ⟨i - (a - l.length) - 1, by omega⟩
          rw [hj, List.getElem?_cons_succ] at hb
          apply List.eq_of_mem_replicate (List.mem_of_getElem? hb)
  apply hmem
  rw [List.getElem?_eq_getElem hlt]
  rfl

end HttpTask

end WebServer
