import Mathlib.Data.List.TakeWhile
import WebServer.Http.DoRequest
import WebServer.Http.Handed

/-!
# The form in the body

For a request with credentials `do_request` copies the name and the password out of
`m_string`, byte by byte: the name from `m_string[5]` up to an `&`, the password from ten
bytes behind the `&` up to a NUL.  The copies are those of a body of the form
`user=N&password=P` when the arrays have room for them (`form_eq`).

The loops do not look at the length of the body.  They stay in it exactly when there is an
`&` in the body that is not among its first five bytes, nor among its last ten
(`scansBody_iff`).
-/

open CString Fallible WebServer.Parser

namespace WebServer

namespace HttpTask

/-! ### Strings up to a byte -/

/-- The bytes before the first `stop`. -/
def upTo (stop : UInt8) (l : List UInt8) : List UInt8 := l.takeWhile (· != stop)

theorem upTo_append {stop : UInt8} {w l : List UInt8} (hw : stop ∉ w) :
  upTo stop (w ++ stop :: l) = w
  := takeWhile_ne_cons hw l

theorem upTo_eq_self {stop : UInt8} {w : List UInt8} (hw : stop ∉ w) :
  upTo stop w = w
  := by
  have htake := takeWhile_ne_append hw []
  rwa [List.append_nil, List.takeWhile_nil, List.append_nil] at htake

theorem not_mem_upTo (stop : UInt8) (l : List UInt8) :
  stop ∉ upTo stop l
  := by
  intro h
  have hne := List.mem_takeWhile_imp h
  rw [bne_iff_ne] at hne
  apply hne rfl

/-- The first `stop` follows the bytes before it. -/
theorem spells_upTo {m : Memory} {p : ℕ} {stop : UInt8} {l : List UInt8} (h : Spells m p l)
    (hmem : stop ∈ l) :
  Spells m p (upTo stop l ++ [stop])
  := by
  induction l generalizing p with
  | nil => cases hmem
  | cons b l ih =>
      by_cases hb : b = stop
      · subst hb
        rw [show upTo b (b :: l) = [] from by simp [upTo]]
        exact ⟨h.1, trivial⟩
      · have hcons : upTo stop (b :: l) = b :: upTo stop l := by
          rw [upTo, List.takeWhile_cons, if_pos (by simpa using hb)]
          rfl
        rw [hcons]
        exact ⟨h.1, ih h.2 (List.mem_of_ne_of_mem (Ne.symm hb) hmem)⟩

/-! ### The copies -/

/-- A copy of the bytes before the first `stop`: it faults when the array has no room for
them and one more. -/
theorem copyUntil_eq {m : Memory} {stop : UInt8} {w : List UInt8} {room p : ℕ}
    (h : Spells m p (w ++ [stop])) (hw : stop ∉ w) (hsize : p + w.length < readBuffSize) :
  copyUntil m stop room p = if w.length < room then .ok w else .error .outOfBounds
  := by
  induction w generalizing room p with
  | nil =>
      rw [List.length_nil, Nat.add_zero] at hsize
      rw [List.length_nil]
      cases room with
      | zero => rfl
      | succ room =>
          rw [copyUntil, if_neg (Nat.not_le.mpr hsize), if_pos h.1, if_pos (Nat.succ_pos room)]
  | cons b w ih =>
      rw [List.mem_cons, not_or] at hw
      rw [List.length_cons] at hsize ⊢
      cases room with
      | zero => rw [if_neg (Nat.not_lt_zero _), copyUntil]
      | succ room =>
          have hb : m p = b := h.1
          rw [copyUntil, if_neg (by omega), hb, if_neg (Ne.symm hw.1), ih h.2 hw.2 (by omega)]
          by_cases hlt : w.length < room
          · rw [if_pos hlt, if_pos (Nat.succ_lt_succ hlt)]
            rfl
          · rw [if_neg hlt, if_neg (fun h => hlt (Nat.lt_of_succ_lt_succ h))]
            rfl

/-- The name in a body. -/
def nameOf (body : List UInt8) : List UInt8 := upTo 38 (body.drop 5)

/-- The password in a body. -/
def passwordOf (body : List UInt8) : List UInt8 :=
  upTo 0 (body.drop (5 + (nameOf body).length + 10))

/-- The name ends before the body when an `&` follows it. -/
theorem mem_of_nameOf_lt {body : List UInt8} (h : 5 + (nameOf body).length < body.length) :
  38 ∈ body.drop 5
  := by
  by_contra hmem
  rw [nameOf, upTo_eq_self hmem, List.length_drop] at h
  omega

/-- An `&` follows the name. -/
theorem spells_nameOf {m : Memory} {q : ℕ} {body : List UInt8} (hbody : Spells m q body)
    (hrest : 5 + (nameOf body).length < body.length) :
  Spells m (q + 5) (nameOf body ++ [38])
  := by
  have hdrop := hbody
  rw [← List.take_append_drop 5 body, spells_append, List.length_take,
    Nat.min_eq_left (by omega)] at hdrop
  apply spells_upTo hdrop.2 (mem_of_nameOf_lt hrest)

/-- A NUL follows the password: the one behind the body, or an earlier one. -/
theorem spells_passwordOf {m : Memory} {q : ℕ} {body : List UInt8} (hbody : Spells m q body)
    (hnul : m (q + body.length) = 0) (hrest : 5 + (nameOf body).length + 10 ≤ body.length) :
  Spells m (q + 5 + (nameOf body).length + 10) (passwordOf body ++ [0])
  := by
  have hwhole : Spells m q (body ++ [0]) := (spells_append _ _ _ _).mpr ⟨hbody, hnul, trivial⟩
  rw [← List.take_append_drop (5 + (nameOf body).length + 10) body, List.append_assoc,
    spells_append, List.length_take, Nat.min_eq_left hrest, ← Nat.add_assoc,
    ← Nat.add_assoc] at hwhole
  have hspells : Spells m _ (upTo 0 _ ++ [0]) := spells_upTo hwhole.2 (by simp)
  have happ : upTo 0 (body.drop (5 + (nameOf body).length + 10) ++ [0]) = passwordOf body := by
    by_cases hmem : 0 ∈ body.drop (5 + (nameOf body).length + 10)
    · obtain ⟨w, l, hl, hw⟩ := List.eq_append_cons_of_mem hmem
      rw [passwordOf, hl, List.append_assoc, List.cons_append, upTo_append hw, upTo_append hw]
    · rw [upTo_append hmem, passwordOf, upTo_eq_self hmem]
  rwa [happ] at hspells

/-- The name and the password of a body in which ten bytes or more are left behind the
name. -/
theorem form_eq {c : HttpTask} {q : ℕ} {body : List UInt8} (hq : c.string = some q)
    (hbody : Spells c.readBuf q body) (hnul : c.readBuf (q + body.length) = 0)
    (hsize : q + body.length < readBuffSize)
    (hrest : 5 + (nameOf body).length + 10 ≤ body.length) :
  c.form = if (nameOf body).length < 100 ∧ (passwordOf body).length < 100 then
      .ok (upTo 0 (nameOf body), passwordOf body)
    else .error .outOfBounds
  := by
  have hlen : (passwordOf body).length ≤ body.length - (5 + (nameOf body).length + 10) := by
    rw [← List.length_drop]
    exact (List.takeWhile_sublist _).length_le
  have hcopy : copyUntil c.readBuf 38 100 (q + 5)
      = if (nameOf body).length < 100 then .ok (nameOf body) else .error .outOfBounds :=
    copyUntil_eq (spells_nameOf hbody (by omega)) (not_mem_upTo 38 _) (by omega)
  have hcopy' : copyUntil c.readBuf 0 100 (q + 5 + (nameOf body).length + 10)
      = if (passwordOf body).length < 100 then .ok (passwordOf body) else .error .outOfBounds :=
    copyUntil_eq (spells_passwordOf hbody hnul hrest) (not_mem_upTo 0 _) (by omega)
  rw [form, hq]
  dsimp only
  rw [hcopy]
  by_cases hfits : (nameOf body).length < 100
  · rw [if_pos hfits, ok_bind, hcopy']
    by_cases hfits' : (passwordOf body).length < 100
    · rw [if_pos hfits', if_pos ⟨hfits, hfits'⟩]
      rfl
    · rw [if_neg hfits', if_neg (fun h => hfits' h.2)]
      rfl
  · rw [if_neg hfits, if_neg (fun h => hfits h.1)]
    rfl

/-! ### The bytes that are read -/

/-- A loop that looks at `m_string[i]` from `i = start` on, up to the first byte that is
`stop`, looks at `m_string[i]`; here `m_string` is `q`. -/
def LoopReads (m : Memory) (q start : ℕ) (stop : UInt8) (i : ℕ) : Prop :=
  start ≤ i ∧ ∀ j, start ≤ j → j < i → m (q + j) ≠ stop

/-- The loops for the name and the password look at `m_string[i]`. -/
inductive FormReads (m : Memory) (q i : ℕ) : Prop where
  | name (h : LoopReads m q 5 38 i)
  | password (a : ℕ) (ha : LoopReads m q 5 38 a) (hstop : m (q + a) = 38)
      (h : LoopReads m q (a + 10) 0 i)

/-- A loop looks at no byte behind a `stop` that it comes to. -/
theorem LoopReads.le {m : Memory} {q start i a : ℕ} {stop : UInt8}
    (h : LoopReads m q start stop i) (ha : start ≤ a) (hstop : m (q + a) = stop) :
  i ≤ a
  := by
  by_contra hlt
  apply h.2 a ha (Nat.not_le.mp hlt) hstop

/-- What is copied ends with a `stop`. -/
theorem copyUntil_eq_ok {m : Memory} {stop : UInt8} {room p : ℕ} {w : List UInt8}
    (h : copyUntil m stop room p = .ok w) :
  Spells m p (w ++ [stop]) ∧ stop ∉ w
  := by
  induction room generalizing p w with
  | zero => cases h
  | succ room ih =>
      rw [copyUntil] at h
      split at h
      · cases h
      · split at h
        · next hstop =>
            cases h
            exact ⟨⟨hstop, trivial⟩, List.not_mem_nil⟩
        · next hne =>
            obtain ⟨rest, hrest, h⟩ := bind_eq_ok.mp h
            cases h
            obtain ⟨hspells, hmem⟩ := ih hrest
            refine ⟨⟨rfl, hspells⟩, ?_⟩
            rw [List.mem_cons, not_or]
            exact ⟨Ne.symm hne, hmem⟩

/-- A copy looks at the bytes it copies, and at the one that stops it. -/
theorem copyUntil_reads {m : Memory} {q start room : ℕ} {stop : UInt8} {w : List UInt8}
    (h : copyUntil m stop room (q + start) = .ok w) (i : ℕ) :
  LoopReads m q start stop i ↔ start ≤ i ∧ i ≤ start + w.length
  := by
  obtain ⟨hspells, hw⟩ := copyUntil_eq_ok h
  rw [spells_append] at hspells
  constructor
  · intro hi
    refine ⟨hi.1, hi.le (Nat.le_add_right _ _) ?_⟩
    rw [← Nat.add_assoc]
    apply hspells.2.1
  · rintro ⟨hi, hle⟩
    refine ⟨hi, ?_⟩
    intro j hj hlt hstop
    obtain ⟨k, rfl⟩ := Nat.exists_eq_add_of_le hj
    have hk : k < w.length := by omega
    apply hw
    rw [← Nat.add_assoc, hspells.1.getElem hk] at hstop
    rw [← hstop]
    apply List.getElem_mem hk

/-- A request with credentials has a body, and the loops look at no byte behind the NUL that
ends it. -/
def ScansBody (c : HttpTask) : Prop :=
  ∀ u p, c.url = some u → strrchr c.readBuf readBuffSize u 47 = some p →
    c.hasCredentials p = true →
    ∃ q, c.string = some q ∧ ∀ i, FormReads c.readBuf q i → (i : ℤ) ≤ c.contentLength

/-- There is an `&` in the body, behind the first five bytes and before the last ten. -/
def Separated (c : HttpTask) : Prop :=
  ∃ q a : ℕ, c.string = some q ∧ 5 ≤ a ∧ (a : ℤ) + 10 ≤ c.contentLength ∧ c.readBuf (q + a) = 38

/-- An `&` keeps the loops in the body. -/
theorem formReads_le {m : Memory} {q n a i : ℕ} (hnul : m (q + n) = 0) (ha : 5 ≤ a)
    (hle : a + 10 ≤ n) (hstop : m (q + a) = 38) (h : FormReads m q i) :
  i ≤ n
  := by
  cases h with
  | name h =>
      have hia := h.le ha hstop
      omega
  | password b hb _ h =>
      have hba := hb.le ha hstop
      apply h.le (by omega) hnul

/-- Loops that stay in the body find an `&`. -/
theorem exists_separator {m : Memory} {q : ℕ} {n : ℤ}
    (h : ∀ i, FormReads m q i → (i : ℤ) ≤ n) :
  ∃ a : ℕ, 5 ≤ a ∧ (a : ℤ) + 10 ≤ n ∧ m (q + a) = 38
  := by
  have hfive := h 5 (.name ⟨le_rfl, fun j hj hlt => absurd hj (Nat.not_le.mpr hlt)⟩)
  obtain ⟨n, rfl⟩ := Int.eq_ofNat_of_zero_le (show 0 ≤ n by omega)
  have hex : ∃ a : ℕ, 5 ≤ a ∧ m (q + a) = 38 := by
    by_contra hnone
    have hpast := h (n + 1) (.name ⟨by omega, fun j hj _ hstop => hnone ⟨j, hj, hstop⟩⟩)
    omega
  -- the loop for the name stops at the first one
  obtain ⟨hfirst, hstop⟩ := Nat.find_spec hex
  have hread : LoopReads m q 5 38 (Nat.find hex) :=
    ⟨hfirst, fun j hj hlt hj' => Nat.find_min hex hlt ⟨hj, hj'⟩⟩
  have hle := h (Nat.find hex + 10) (.password _ hread hstop
    ⟨le_rfl, fun j hj hlt => absurd hj (Nat.not_le.mpr hlt)⟩)
  exact ⟨_, hfirst, by omega, hstop⟩

/-- For a `POST` request it is the last segment of the URL that decides. -/
theorem hasCredentials_of_exec (c : HttpTask) {es : List ReadingEvent} {s : Reading}
    (h : Run.exec Reading.step Reading.start es = some s) (hleft : s.place = .left .doRequest)
    (hpost : s.parser.method = .post) {p : ℕ}
    (hflag : s.parser.readBuf (p + 1) = 50 ∨ s.parser.readBuf (p + 1) = 51) :
  (c.handed s.parser).hasCredentials p = true
  := by
  obtain ⟨hinv, hplaced⟩ := Reading.exec_placed h
  have hcgi : s.parser.cgi = 1 := hplaced.cgi (hinv.accepted hleft) hpost
  rw [hasCredentials]
  change (s.parser.cgi == 1 && (s.parser.readBuf (p + 1) == 50 || s.parser.readBuf (p + 1) == 51))
    = true
  rw [hcgi]
  simpa using hflag

/-- Whatever was received, the loops of a request with credentials stay in its body exactly
when the `&` they look for is there, and early enough. -/
theorem scansBody_iff (c : HttpTask) {es : List ReadingEvent} {s : Reading}
    (h : Run.exec Reading.step Reading.start es = some s) (hleft : s.place = .left .doRequest)
    (hpost : s.parser.method = .post) {u p : ℕ} (hu : s.parser.url = some u)
    (hp : strrchr s.parser.readBuf readBuffSize u 47 = some p)
    (hflag : s.parser.readBuf (p + 1) = 50 ∨ s.parser.readBuf (p + 1) = 51) :
  (c.handed s.parser).ScansBody ↔ (c.handed s.parser).Separated
  := by
  obtain ⟨-, hplaced⟩ := Reading.exec_placed h
  have hcredentials := hasCredentials_of_exec c h hleft hpost hflag
  constructor
  · intro hscans
    obtain ⟨q, hq, hreads⟩ := hscans u p hu hp hcredentials
    obtain ⟨a, ha, hle, hstop⟩ := exists_separator hreads
    exact ⟨q, a, hq, ha, hle, hstop⟩
  · rintro ⟨q, a, hq, ha, hle, hstop⟩ u' p' - - -
    refine ⟨q, hq, ?_⟩
    intro i hi
    have hbody := (hplaced.string q hq).2
    change (a : ℤ) + 10 ≤ s.parser.contentLength at hle
    obtain ⟨n, hn⟩ := Int.eq_ofNat_of_zero_le (show 0 ≤ s.parser.contentLength by omega)
    have hnul := hbody.nul
    rw [hn, show ((q : ℤ) + (n : ℤ)).toNat = q + n by omega] at hnul
    have hin := formReads_le hnul ha (by omega) hstop hi
    change (i : ℤ) ≤ s.parser.contentLength
    omega

/-- A request is received at once, and `process_read` makes `passes` passes over it. -/
def arriving (request : List UInt8) (passes : ℕ) : List ReadingEvent :=
  .receive request :: .call :: (List.replicate passes [.condition, .body]).flatten

/-- What can be computed of a request that arrived. -/
theorem exists_of_arriving (request : List UInt8) (passes : ℕ) (F : Reading → Prop)
    [DecidablePred F] (h : (Run.exec Reading.step Reading.start (arriving request passes)).map
      (fun s => decide (F s)) = some true) :
  ∃ s, Run.exec Reading.step Reading.start (arriving request passes) = some s ∧ F s
  := by
  obtain ⟨s, hs, hF⟩ := Option.map_eq_some_iff.mp h
  exact ⟨s, hs, of_decide_eq_true hF⟩

/-- A request for the page of a login or a registration was handed over. -/
def Requests (flag : UInt8) (s : Reading) : Prop :=
  s.place = .left .doRequest ∧ s.parser.method = .post ∧ s.parser.url = some 5 ∧
    strrchr s.parser.readBuf readBuffSize 5 47 = some 5 ∧ s.parser.readBuf 6 = flag

instance (flag : UInt8) : DecidablePred (Requests flag) :=
  fun _ => inferInstanceAs (Decidable (_ ∧ _))

set_option maxRecDepth 10000 in
theorem scansBody_iff_login :
  ∃ s, Run.exec Reading.step Reading.start (arriving
      (ascii "POST /2 HTTP/1.1\r\nContent-Length:17\r\n\r\nuser=a&password=b") 4) = some s ∧
    ((idle.handed s.parser).ScansBody ↔ (idle.handed s.parser).Separated)
  := by
  obtain ⟨s, hs, hleft, hpost, hu, hp, hflag⟩ := exists_of_arriving
    (ascii "POST /2 HTTP/1.1\r\nContent-Length:17\r\n\r\nuser=a&password=b") 4 (Requests 50)
    (by decide +kernel)
  exact ⟨s, hs, scansBody_iff idle hs hleft hpost hu hp (.inl hflag)⟩

set_option maxRecDepth 10000 in
/-- A registration without a body leaves `m_string` null. -/
theorem not_scansBody :
  ¬ ∀ (c : HttpTask) (es : List ReadingEvent) (s : Reading) (u p : ℕ),
    Run.exec Reading.step Reading.start es = some s → s.place = .left .doRequest →
      s.parser.method = .post → s.parser.url = some u →
      strrchr s.parser.readBuf readBuffSize u 47 = some p →
      (s.parser.readBuf (p + 1) = 50 ∨ s.parser.readBuf (p + 1) = 51) →
      (c.handed s.parser).ScansBody
  := by
  intro h
  obtain ⟨s, hs, ⟨hleft, hpost, hu, hp, hflag⟩, hnone⟩ := exists_of_arriving
    (ascii "POST /3 HTTP/1.1\r\n\r\n") 2
    (fun s => Requests 51 s ∧ s.parser.string = none) (by decide +kernel)
  have hcredentials := hasCredentials_of_exec idle hs hleft hpost (.inr hflag)
  obtain ⟨q, hq, -⟩ := h idle _ s 5 5 hs hleft hpost hu hp (.inr hflag) 5 5 hu hp hcredentials
  cases hnone.symm.trans hq

end HttpTask

end WebServer
