import WebServer.Http.DoRequest
import WebServer.Http.Spinning

/-!
# The mapped files

The object of a connection over its whole life, from `init(fd, address)` on, with the
calls of `mmap` and `munmap`: `do_request` maps the file, and `write` is to drop it with
`unmap`.  The machine keeps the mappings that are in place and the calls of `munmap` that
were for none.

`unmap` calls `munmap` only when `m_file_address` is null, so no mapping is ever dropped.
All mappings are released as long as the object is not closed or cleared while it has one,
and `write` does not come to `unmap` without one (`released_iff`).
-/

open CString Fallible

namespace WebServer

open HttpConn

/-- A mapping of a file. -/
structure Mapping where
  address : ℕ
  length : ℕ
  deriving DecidableEq

/-- `MAP_FAILED`. -/
def mapFailed : ℕ := 2 ^ 64 - 1

/-- Where the object of a connection is. -/
inductive Stage where
  /-- It has no connection. -/
  | closed
  /-- It reads a request. -/
  | reading
  /-- Its response is prepared, and `write` is called next. -/
  | sending
  /-- It is in the loop of `write`. -/
  | writing
  /-- `read` or `write` returned false, and `close_conn` is called next. -/
  | failed
  deriving DecidableEq

/-- The object of a connection, the value of `m_file_address`, the mappings in place, and
the calls of `munmap` that were for none of them. -/
structure Lifetime where
  task : HttpTask
  stage : Stage
  fileAddress : ℕ
  mappings : List Mapping
  strays : List Mapping

/-- What happens to the object of a connection. -/
inductive LifetimeEvent where
  /-- `init(fd, address)`. -/
  | accept (fd : ℕ)
  /-- `read`, for what `recv` returns. -/
  | read (rs : List Recv)
  /-- `process`, when `mmap` returns `mapped`. -/
  | process (query : List UInt8 → ℤ) (stat : List UInt8 → Answer) (mapped : ℕ)
  /-- A call of `write`. -/
  | write
  /-- An outcome of `writev`. -/
  | writev (o : Outcome)
  /-- `close_conn`, by the timer or after `read` or `write` returned false. -/
  | close

namespace Lifetime

/-- An object without a connection. -/
def unused (task : HttpTask) (fileAddress : ℕ) : Lifetime where
  task := task
  stage := .closed
  fileAddress := fileAddress
  mappings := []
  strays := []

/-- The mapping that `m_file_address` points to. -/
def held (s : Lifetime) : Option Mapping :=
  if s.fileAddress = 0 ∨ s.fileAddress = mapFailed then none
  else some ⟨s.fileAddress, s.task.fileSize⟩

/-- `munmap`. -/
def munmap (s : Lifetime) (m : Mapping) : Lifetime :=
  if m ∈ s.mappings then { s with mappings := s.mappings.erase m }
  else { s with strays := m :: s.strays }

/-- `http_conn::unmap`. -/
def unmap (s : Lifetime) : Lifetime :=
  if s.fileAddress = 0 then
    { s.munmap ⟨s.fileAddress, s.task.fileSize⟩ with fileAddress := 0 }
  else s

/-- What `mmap` may return: it fails, or it makes a mapping, which is not empty. -/
def mmapReturns (s : Lifetime) (mapped : ℕ) : Prop :=
  mapped = mapFailed ∨ mapped ≠ 0 ∧ s.task.fileSize ≠ 0 ∧ ∀ m ∈ s.mappings, m.address ≠ mapped

instance (s : Lifetime) (mapped : ℕ) : Decidable (s.mmapReturns mapped) :=
  inferInstanceAs (Decidable (_ ∨ _))

/-- `m_file_address = mmap(0, st_size, …)`. -/
def mmap (s : Lifetime) (mapped : ℕ) : Lifetime :=
  { s with
    fileAddress := mapped
    mappings :=
      if mapped = mapFailed then s.mappings else ⟨mapped, s.task.fileSize⟩ :: s.mappings }

/-- `init()`. -/
def init (s : Lifetime) : Lifetime :=
  { s with task := s.task.init, stage := .reading, fileAddress := 0 }

/-- The stage behind `process`. -/
def stageOf : ProcessEnd → Stage
  | .rearm .epollIn => .reading
  | .rearm .epollOut => .sending
  | .close => .closed

/-- Sets the connection of the object, and where it is. -/
def setConn (s : Lifetime) (conn : HttpConn) (stage : Stage) : Lifetime :=
  { s with task := { s.task with toHttpConn := conn }, stage := stage }

/-- The end of `do_request`: `FILE_REQUEST` is returned behind the call of `mmap`. -/
def mapFile (s : Lifetime) (ret : HttpCode) (mapped : ℕ) : Option Lifetime :=
  if ret = .fileRequest then
    if s.mmapReturns mapped then some (s.mmap mapped) else none
  else some s

/-- `process`, from the result of `process_read` on. -/
def respond (s : Lifetime) (ret : HttpCode) (mapped : ℕ) : Option Lifetime := do
  let s ← s.mapFile ret mapped
  let (e, conn) ← (s.task.toHttpConn.respond ret).toOption
  some (s.setConn conn (stageOf e))

/-- What follows a round of the loop of `write`. -/
def after (s : Lifetime) : HttpConn × Option WriteEnd → Lifetime
  | (conn, none) => s.setConn conn .writing
  | (conn, some .again) => s.setConn conn .sending
  | (conn, some .idle) | (conn, some .kept) => (s.unmap.setConn conn .reading).init
  | (conn, some .failed) | (conn, some .closing) => s.unmap.setConn conn .failed

/-- A step of the object. -/
def step (s : Lifetime) : LifetimeEvent → Option Lifetime
  | .accept fd =>
    if s.stage = .closed then
      some { s.init with task := { s.task.init with sockfd := some fd } }
    else none
  | .read rs =>
    if s.stage = .reading then do
      let (ok, conn) ← s.task.toHttpConn.read rs
      some (s.setConn conn (if ok then .reading else .failed))
    else none
  | .process query stat mapped =>
    if s.stage = .reading then do
      let (ret, task) ← (s.task.processRead query stat).toOption
      { s with task := task }.respond ret mapped
    else none
  | .write =>
    if s.stage = .sending then
      some (if s.task.bytesToSend = 0 then s.init else { s with stage := .writing })
    else none
  | .writev o =>
    if s.stage = .writing ∧ legit s.task.offered.length o then
      some (s.after (s.task.toHttpConn.writeRound o))
    else none
  | .close =>
    if s.stage = .closed ∨ s.stage = .writing then none
    else some (s.setConn { s.task.toHttpConn with sockfd := none } .closed)

/-- Every mapping is the one that `m_file_address` points to, on a connection that is
open, and `munmap` was called for no other than a mapping. -/
def Released (s : Lifetime) : Prop :=
  s.strays = [] ∧ s.mappings = if s.stage = .closed then [] else s.held.toList

instance (s : Lifetime) : Decidable s.Released := inferInstanceAs (Decidable (_ ∧ _))

/-- The connection is not closed and the object not cleared while it has a mapping, and
`write` does not come to `unmap` while `m_file_address` is null. -/
def Releases (s : Lifetime) : LifetimeEvent → Prop
  | .write => s.task.bytesToSend = 0 → s.held = none
  | .writev .error => s.fileAddress ≠ 0
  | .writev (.accepted k) =>
    s.task.bytesToSend ≤ k → s.fileAddress ≠ 0 ∧ (s.task.linger = true → s.held = none)
  | .close => s.held = none
  | .accept _ | .read _ | .process _ _ _ | .writev .again => True

/-- What a step does, by the branch that it takes. -/
inductive Steps (s : Lifetime) : LifetimeEvent → Lifetime → Prop where
  | accept {fd : ℕ} (hclosed : s.stage = .closed) :
      Steps s (.accept fd) { s.init with task := { s.task.init with sockfd := some fd } }
  | read {rs : List Recv} {ok : Bool} {conn : HttpConn} (hreading : s.stage = .reading)
      (hread : s.task.toHttpConn.read rs = some (ok, conn)) :
      Steps s (.read rs) (s.setConn conn (if ok then .reading else .failed))
  | process {query : List UInt8 → ℤ} {stat : List UInt8 → Answer} {mapped : ℕ} {ret : HttpCode}
      {task : HttpTask} {s' : Lifetime} (hreading : s.stage = .reading)
      (hread : s.task.processRead query stat = .ok (ret, task))
      (hrespond : { s with task := task }.respond ret mapped = some s') :
      Steps s (.process query stat mapped) s'
  | writeIdle (hsending : s.stage = .sending) (hidle : s.task.bytesToSend = 0) :
      Steps s .write s.init
  | write (hsending : s.stage = .sending) (hbytes : s.task.bytesToSend ≠ 0) :
      Steps s .write { s with stage := .writing }
  | writev {o : Outcome} (hwriting : s.stage = .writing)
      (hlegit : legit s.task.offered.length o) :
      Steps s (.writev o) (s.after (s.task.toHttpConn.writeRound o))
  | close (hopen : s.stage ≠ .closed) (hidle : s.stage ≠ .writing) :
      Steps s .close (s.setConn { s.task.toHttpConn with sockfd := none } .closed)

/-- A step takes one of its branches. -/
theorem steps_of_step {s s' : Lifetime} {e : LifetimeEvent} (h : s.step e = some s') :
  s.Steps e s'
  := by
  cases e with
  | accept fd =>
      rw [step] at h
      split at h
      next hclosed =>
        obtain rfl := Option.some.inj h
        exact .accept hclosed
      next => cases h
  | read rs =>
      rw [step] at h
      split at h
      next hreading =>
        obtain ⟨⟨ok, conn⟩, hread, h⟩ := Option.bind_eq_some_iff.mp h
        obtain rfl := Option.some.inj h
        exact .read hreading hread
      next => cases h
  | process query stat mapped =>
      rw [step] at h
      split at h
      next hreading =>
        obtain ⟨⟨ret, task⟩, hread, hrespond⟩ := Option.bind_eq_some_iff.mp h
        exact .process hreading (toOption_eq_some.mp hread) hrespond
      next => cases h
  | write =>
      rw [step] at h
      split at h
      next hsending =>
        obtain rfl := Option.some.inj h
        split
        next hidle => exact .writeIdle hsending hidle
        next hbytes => exact .write hsending hbytes
      next => cases h
  | writev o =>
      rw [step] at h
      split at h
      next hwriting =>
        obtain rfl := Option.some.inj h
        exact .writev hwriting.1 hwriting.2
      next => cases h
  | close =>
      rw [step] at h
      split at h
      next => cases h
      next hopen =>
        obtain rfl := Option.some.inj h
        rw [not_or] at hopen
        exact .close hopen.1 hopen.2

/-! ### What the steps do to the mappings -/

theorem held_of_zero {s : Lifetime} (h : s.fileAddress = 0) :
  s.held = none
  := if_pos (.inl h)

/-- What is kept along a run: the mappings are released so far, and there is none while a
request is read. -/
structure Kept (s : Lifetime) : Prop where
  released : s.Released
  reading : s.stage = .reading → s.fileAddress = 0

theorem Released.mappings {s : Lifetime} (h : s.Released) (hheld : s.held = none) :
  s.mappings = []
  := by
  rw [h.2, hheld]
  split
  · rfl
  · rfl

/-- The object is cleared while it has no mapping. -/
theorem Released.init {s : Lifetime} (h : s.Released) (hnil : s.mappings = []) :
  s.init.Kept
  := by
  refine ⟨⟨h.1, ?_⟩, fun _ => rfl⟩
  exact hnil

theorem Released.mappings_ne {s : Lifetime} (h : s.Released) (hopen : s.stage ≠ .closed)
    (hheld : s.held ≠ none) :
  s.mappings ≠ []
  := by
  obtain ⟨m, hm⟩ := Option.ne_none_iff_exists'.mp hheld
  rw [h.2, if_neg hopen, hm]
  apply List.cons_ne_nil

/-- The object is cleared while it has a mapping. -/
theorem Released.not_init {s : Lifetime} (h : s.Released) (hopen : s.stage ≠ .closed)
    (hheld : s.held ≠ none) :
  ¬ s.init.Released
  := by
  rintro ⟨-, hnil⟩
  apply h.mappings_ne hopen hheld hnil

/-- The object goes on with the same mapping. -/
theorem Released.setConn {s : Lifetime} (h : s.Released) (hopen : s.stage ≠ .closed)
    {conn : HttpConn} (hsize : conn.fileSize = s.task.fileSize) {stage : Stage}
    (hstage : stage = .closed → s.held = none) :
  (s.setConn conn stage).Released
  := by
  refine ⟨h.1, ?_⟩
  have hheld : (s.setConn conn stage).held = s.held := by
    change (if _ then none else some (⟨_, conn.fileSize⟩ : Mapping)) = _
    rw [hsize]
    rfl
  rw [hheld]
  change s.mappings = if stage = .closed then [] else _
  split
  next hclosed => exact h.mappings (hstage hclosed)
  next =>
    rw [h.2]
    apply if_neg hopen

/-- The object goes on without a mapping. -/
theorem Released.setConn_zero {s : Lifetime} (h : s.Released) (hzero : s.fileAddress = 0)
    (conn : HttpConn) (stage : Stage) :
  (s.setConn conn stage).Kept
  := by
  refine ⟨⟨h.1, ?_⟩, fun _ => hzero⟩
  rw [held_of_zero (s := s.setConn conn stage) hzero]
  change s.mappings = _
  rw [h.mappings (held_of_zero hzero)]
  split
  · rfl
  · rfl

/-- `unmap` does nothing when `m_file_address` is not null. -/
theorem unmap_of_ne {s : Lifetime} (h : s.fileAddress ≠ 0) :
  s.unmap = s
  := if_neg h

/-- `unmap` calls `munmap` for no mapping when `m_file_address` is null. -/
theorem Released.unmap_strays {s : Lifetime} (h : s.Released) (hzero : s.fileAddress = 0) :
  s.unmap.strays ≠ []
  := by
  rw [unmap, if_pos hzero, munmap, if_neg]
  · apply List.cons_ne_nil _ _
  · rw [h.mappings (held_of_zero hzero)]
    apply List.not_mem_nil

/-- `do_request` maps a file. -/
theorem Released.mmap {s : Lifetime} (h : s.Released) (hopen : s.stage ≠ .closed)
    (hzero : s.fileAddress = 0) {mapped : ℕ} (hmapped : s.mmapReturns mapped) :
  (s.mmap mapped).Released ∧ (s.task.fileSize = 0 → (s.mmap mapped).held = none)
  := by
  have hnil := h.mappings (held_of_zero hzero)
  by_cases hfailed : mapped = mapFailed
  · have hheld : (s.mmap mapped).held = none := if_pos (.inr hfailed)
    refine ⟨⟨h.1, ?_⟩, fun _ => hheld⟩
    rw [hheld]
    change (if _ then _ else _) = if s.stage = .closed then _ else _
    rw [if_pos hfailed, if_neg hopen, hnil]
    rfl
  · obtain ⟨hne, hsize, -⟩ := hmapped.resolve_left hfailed
    have hheld : (s.mmap mapped).held = some ⟨mapped, s.task.fileSize⟩ :=
      if_neg (not_or.mpr ⟨hne, hfailed⟩)
    refine ⟨⟨h.1, ?_⟩, fun hempty => absurd hempty hsize⟩
    rw [hheld]
    change (if _ then _ else _) = if s.stage = .closed then _ else _
    rw [if_neg hfailed, if_neg hopen, hnil]
    rfl

/-- `process` keeps the mappings: it closes a connection with a file only when the file is
empty, and then `mmap` made no mapping. -/
theorem Kept.respond {s s' : Lifetime} (h : s.Kept) (hreading : s.stage = .reading)
    {ret : HttpCode} {mapped : ℕ} (hs : s.respond ret mapped = some s') :
  s'.Kept
  := by
  have hzero := h.reading hreading
  have hopen : s.stage ≠ .closed := by
    rw [hreading]
    decide
  obtain ⟨s₁, hs₁, hs⟩ := Option.bind_eq_some_iff.mp hs
  obtain ⟨⟨e, conn⟩, hconn, hs⟩ := Option.bind_eq_some_iff.mp hs
  obtain rfl := Option.some.inj hs
  have hrespond := toOption_eq_some.mp hconn
  by_cases hret : ret = .fileRequest
  · rw [mapFile, if_pos hret] at hs₁
    split at hs₁
    next hmapped =>
      obtain rfl := Option.some.inj hs₁
      obtain ⟨hreleased, hempty⟩ := h.released.mmap hopen hzero hmapped
      subst hret
      rcases respond_cases hrespond with ⟨hno, -, -⟩ | ⟨ok, hwrite, rfl⟩
      · cases hno
      · cases processWrite_replied hwrite with
        | failed hfilled hsize =>
            exact ⟨hreleased.setConn hopen hfilled.fileSize (fun _ => hempty (hsize rfl)), nofun⟩
        | text _ _ hfile _ => exact absurd rfl hfile
        | file hfilled huse _ _ =>
            subst huse
            exact ⟨hreleased.setConn hopen hfilled.fileSize nofun, nofun⟩
    next => cases hs₁
  · rw [mapFile, if_neg hret] at hs₁
    obtain rfl := Option.some.inj hs₁
    apply h.released.setConn_zero hzero

/-- A round of the loop of `write` that does not come to `unmap` and `init()` keeps the
mapping. -/
theorem Released.after {s : Lifetime} (h : s.Released) (hwriting : s.stage = .writing)
    {conn : HttpConn} (hsize : conn.fileSize = s.task.fileSize) {e : Option WriteEnd}
    (hunmap : e ≠ none → e ≠ some .again → s.fileAddress ≠ 0)
    (hinit : e = some .idle ∨ e = some .kept → s.held = none) :
  (s.after (conn, e)).Kept
  := by
  have hopen : s.stage ≠ .closed := by
    rw [hwriting]
    decide
  have hset {stage : Stage} (hstage : stage ≠ .closed) : (s.setConn conn stage).Released :=
    h.setConn hopen hsize (fun hclosed => absurd hclosed hstage)
  have hclear (hheld : s.held = none) (hne : s.fileAddress ≠ 0) :
      (s.unmap.setConn conn .reading).init.Kept := by
    rw [unmap_of_ne hne]
    apply (hset (by decide)).init
    apply h.mappings hheld
  have hfail (hne : s.fileAddress ≠ 0) : (s.unmap.setConn conn .failed).Kept := by
    rw [unmap_of_ne hne]
    exact ⟨hset (by decide), nofun⟩
  rcases e with _ | e
  · exact ⟨hset (by decide), nofun⟩
  · cases e with
    | again => exact ⟨hset (by decide), nofun⟩
    | idle => exact hclear (hinit (.inl rfl)) (hunmap nofun nofun)
    | kept => exact hclear (hinit (.inr rfl)) (hunmap nofun nofun)
    | failed => exact hfail (hunmap nofun nofun)
    | closing => exact hfail (hunmap nofun nofun)

/-- What the condition says of a round of the loop of `write`. -/
theorem Releases.writev {s : Lifetime} {o : Outcome} (h : s.Releases (.writev o)) :
  ((s.task.writeRound o).2 ≠ none → (s.task.writeRound o).2 ≠ some .again → s.fileAddress ≠ 0) ∧
    ((s.task.writeRound o).2 = some .idle ∨ (s.task.writeRound o).2 = some .kept → s.held = none)
  := by
  cases o with
  | again => exact ⟨fun _ hagain => absurd rfl hagain, nofun⟩
  | error => exact ⟨fun _ _ => h, nofun⟩
  | accepted k =>
      rw [writeRound_accepted]
      by_cases hall : s.task.bytesToSend ≤ k
      · obtain ⟨hne, hlinger⟩ := h hall
        rw [if_pos hall]
        refine ⟨fun _ _ => hne, ?_⟩
        split
        next hkeep => exact fun _ => hlinger hkeep
        next => exact nofun
      · rw [if_neg hall]
        exact ⟨fun hnone => absurd rfl hnone, nofun⟩

/-- A step that meets the condition keeps the mappings. -/
theorem Kept.step {s s' : Lifetime} (h : s.Kept) {e : LifetimeEvent} (he : s.Releases e)
    (hs : s.Steps e s') :
  s'.Kept
  := by
  cases hs with
  | accept hclosed =>
      have hmappings := h.released.2
      rw [if_pos hclosed] at hmappings
      exact ⟨⟨h.released.1, hmappings⟩, fun _ => rfl⟩
  | read hreading _ => apply h.released.setConn_zero (h.reading hreading)
  | @process _ _ _ _ task _ hreading _ hrespond =>
      have hzero := h.reading hreading
      have htask := h.released.setConn_zero hzero task.toHttpConn s.stage
      have hkept : Kept { s with task := task } := ⟨htask.released, fun _ => hzero⟩
      apply hkept.respond hreading hrespond
  | writeIdle _ hidle => apply h.released.init (h.released.mappings (he hidle))
  | write hsending _ =>
      have hset : (s.setConn s.task.toHttpConn .writing).Released :=
        h.released.setConn (by rw [hsending]; decide) rfl nofun
      exact ⟨hset, nofun⟩
  | writev hwriting _ =>
      obtain ⟨hunmap, hinit⟩ := he.writev
      apply h.released.after hwriting (writeRound_fileSize _ _) hunmap hinit
  | close hopen _ => exact ⟨h.released.setConn hopen rfl (fun _ => he), nofun⟩

/-- A round of the loop of `write` that comes to `unmap` while `m_file_address` is null. -/
theorem Released.not_after {s : Lifetime} (h : s.Released) (hzero : s.fileAddress = 0)
    {conn : HttpConn} {e : WriteEnd} (he : e ≠ .again) :
  ¬ (s.after (conn, some e)).Released
  := by
  intro hreleased
  apply h.unmap_strays hzero
  cases e with
  | again => exact absurd rfl he
  | idle => exact hreleased.1
  | kept => exact hreleased.1
  | failed => exact hreleased.1
  | closing => exact hreleased.1

/-- A round of the loop of `write` that does not meet the condition. -/
theorem Released.not_writev {s : Lifetime} (h : s.Released) (hwriting : s.stage = .writing)
    {o : Outcome} (ho : ¬ s.Releases (.writev o)) :
  ¬ (s.after (s.task.toHttpConn.writeRound o)).Released
  := by
  cases o with
  | again => exact absurd trivial ho
  | error => exact h.not_after (not_not.mp ho) nofun
  | accepted k =>
      obtain ⟨hall, ho⟩ := Classical.not_imp.mp ho
      have hround := writeRound_accepted s.task.toHttpConn k
      rw [if_pos hall] at hround
      have hsize := writeRound_fileSize s.task.toHttpConn (.accepted k)
      rcases hconn : s.task.toHttpConn.writeRound (.accepted k) with ⟨conn, e⟩
      rw [hconn] at hround hsize
      dsimp only at hround
      by_cases hzero : s.fileAddress = 0
      · split at hround
        · subst hround
          exact h.not_after hzero nofun
        · subst hround
          exact h.not_after hzero nofun
      · obtain ⟨hlinger, hheld⟩ := Classical.not_imp.mp fun himp => ho ⟨hzero, himp⟩
        rw [if_pos hlinger] at hround
        subst hround
        have hset : (s.setConn conn .reading).Released :=
          h.setConn (by rw [hwriting]; decide) hsize nofun
        change ¬ (s.unmap.setConn conn .reading).init.Released
        rw [unmap_of_ne hzero]
        apply hset.not_init nofun
        change (if _ then none else some (⟨_, conn.fileSize⟩ : Mapping)) ≠ none
        rw [hsize]
        exact hheld

/-- A step that does not meet the condition loses a mapping, or calls `munmap` for none. -/
theorem Kept.spoil {s s' : Lifetime} (h : s.Kept) {e : LifetimeEvent} (he : ¬ s.Releases e)
    (hs : s.Steps e s') :
  ¬ s'.Released
  := by
  cases hs with
  | accept | read | process => exact absurd trivial he
  | writeIdle hsending _ =>
      obtain ⟨-, hheld⟩ := Classical.not_imp.mp he
      apply h.released.not_init _ hheld
      rw [hsending]
      decide
  | write _ hbytes => exact absurd (fun hidle => absurd hidle hbytes) he
  | writev hwriting _ => apply h.released.not_writev hwriting he
  | close hopen _ =>
      rintro ⟨-, hnil⟩
      apply h.released.mappings_ne hopen he hnil

/-- All mappings are released throughout a run exactly when no step of it clears or closes
the object while it has a mapping, or comes to `unmap` while it has none. -/
theorem released_iff (task : HttpTask) (fileAddress : ℕ) {es : List LifetimeEvent} {t : Lifetime}
    (h : Run.exec step (unused task fileAddress) es = some t) :
  Run.Throughout step Released (unused task fileAddress) es ↔
    Run.Along step Releases (unused task fileAddress) es
  := by
  have hkept : (unused task fileAddress).Kept := by
    refine ⟨⟨rfl, rfl⟩, ?_⟩
    rintro ⟨⟩
  apply Run.throughout_iff_along (I := Kept) _ _ (fun _ h => h.released) hkept h
  · intro s e s' hs he hstep
    apply hs.step he (steps_of_step hstep)
  · intro s e s' hs he hstep
    apply hs.spoil he (steps_of_step hstep)

/-- A client gets a file of five bytes and the connection is closed. -/
def visit : List LifetimeEvent :=
  [.accept 5, .read [.bytes (ascii "GET /x HTTP/1.1\r\n\r\n"), .again],
    .process (fun _ => 0) HttpTask.filesOnly 4096, .write, .writev (.accepted 60), .close]

theorem exec_visit :
  ∃ t, Run.exec step (unused HttpTask.idle 0) visit = some t ∧ ¬ t.Released
  := by
  have hvisit : (Run.exec step (unused HttpTask.idle 0) visit).map (fun t => decide t.Released)
      = some false := by
    decide +kernel
  obtain ⟨t, ht, hreleased⟩ := Option.map_eq_some_iff.mp hvisit
  exact ⟨t, ht, of_decide_eq_false hreleased⟩

theorem released_iff_visit :
  Run.Throughout step Released (unused HttpTask.idle 0) visit ↔
    Run.Along step Releases (unused HttpTask.idle 0) visit
  := by
  obtain ⟨t, ht, -⟩ := exec_visit
  apply released_iff HttpTask.idle 0 ht

/-- The mapping of a file stays when the connection is closed. -/
theorem not_released :
  ¬ ∀ (task : HttpTask) (fileAddress : ℕ) (es : List LifetimeEvent) (t : Lifetime),
    Run.exec step (unused task fileAddress) es = some t → t.Released
  := by
  intro h
  obtain ⟨t, ht, hreleased⟩ := exec_visit
  apply hreleased (h HttpTask.idle 0 visit t ht)

end Lifetime

end WebServer
