import WebServer.Lib.Run
import WebServer.Log.BlockQueue

/-!
# Consumers of the blocking queue

Any number of threads call `pop`, one call after another, while others push.  One of them
is the log's flush thread, which calls `pop` in the loop of `async_write_log` for as long
as it returns true.  A thread that waits on the condition variable may be woken at any
moment; `pthread_cond_wait` then returns 0.

`cond::wait` returns true when `pthread_cond_wait` returns 0, and `pop` takes everything
but 0 for a failure.  So a consumer is served as it should exactly in those runs in which
no thread that waits is woken (`served_iff`).
-/

namespace WebServer

universe u

/-- Where a thread is that calls `pop`: about to call it, waiting in it, or back from it
with an item or without. -/
inductive Consumer (α : Type u) where
  | calls
  | waits
  | got (item : α)
  | gaveUp
  deriving DecidableEq

/-- The queue and the threads that call `pop`.  `pushed` are the elements that were
accepted, and `popped` those that were taken out, with the thread that took them. -/
structure Consumers (α : Type u) where
  queue : BlockQueue α
  consumers : ℕ → Consumer α
  pushed : List α
  popped : List (ℕ × α)

/-- The number of the flush thread. -/
def flushThread : ℕ := 0

/-- A step of one of the threads. -/
inductive ConsumersEvent (α : Type u) where
  /-- Some thread calls `push`. -/
  | push (item : α)
  /-- A thread calls `pop`. -/
  | pop (thread : ℕ)
  /-- A thread that waits in `pop` is woken. -/
  | wake (thread : ℕ)
  /-- A thread is done with what `pop` returned and will call it again.  The flush thread
  does this only after `pop` returned true. -/
  | again (thread : ℕ)

namespace Consumers

variable {α : Type u}

/-- No thread has called `pop` yet. -/
def init (q : BlockQueue α) : Consumers α where
  queue := q
  consumers := fun _ => .calls
  pushed := []
  popped := []

/-- A thread leaves the mutex. -/
def settle (s : Consumers α) (thread : ℕ) : PopResult α × BlockQueue α → Consumers α
  | (.taken item, q) => { s with
      queue := q
      consumers := Function.update s.consumers thread (.got item)
      popped := s.popped ++ [(thread, item)] }
  | (.waits, q) => { s with
      queue := q
      consumers := Function.update s.consumers thread .waits }
  | (.gaveUp, q) => { s with
      queue := q
      consumers := Function.update s.consumers thread .gaveUp }

/-- A step of one of the threads. -/
def step (s : Consumers α) : ConsumersEvent α → Option (Consumers α)
  | .push item =>
    let (accepted, q) := s.queue.push item
    some { s with queue := q, pushed := if accepted then s.pushed ++ [item] else s.pushed }
  | .pop thread =>
    match s.consumers thread with
    | .calls => some (s.settle thread s.queue.pop)
    | _ => none
  | .wake thread =>
    match s.consumers thread with
    | .waits => some (s.settle thread (s.queue.woken 0))
    | _ => none
  | .again thread =>
    match s.consumers thread with
    | .got _ => some { s with consumers := Function.update s.consumers thread .calls }
    | .gaveUp =>
      if thread = flushThread then
        none
      else
        some { s with consumers := Function.update s.consumers thread .calls }
    | _ => none

/-- No call of `pop` returned false, the elements left the queue in the order in which
they came, each thread that is back from `pop` has the element it took out last, and the
flush thread is in its loop. -/
structure Served (s : Consumers α) : Prop where
  consumers : ∀ i, s.consumers i ≠ .gaveUp
  fifo : s.pushed = s.popped.map Prod.snd ++ s.queue.toList
  got : ∀ i x, s.consumers i = .got x → (s.popped.filter (·.1 = i)).getLast? = some (i, x)
  flushing : s.consumers flushThread ≠ .gaveUp

/-- The step does not wake a thread that waits in `pop`. -/
def NotWoken (_ : Consumers α) : ConsumersEvent α → Prop
  | .wake _ => False
  | _ => True

/-- What is kept along a run in which no thread is woken. -/
structure Kept (s : Consumers α) : Prop where
  valid : s.queue.Valid
  served : s.Served

theorem init_kept {q : BlockQueue α} (h : q.Valid) (hnil : q.toList = []) :
  (init q).Kept
  where
  valid := h
  served := by
    refine ⟨?_, ?_, ?_, ?_⟩
    · intro i
      exact nofun
    · rw [init, hnil]
      rfl
    · intro i x hi
      cases hi
    · exact nofun

/-- A push keeps the consumers served. -/
theorem Kept.push {s s' : Consumers α} (h : s.Kept) {item : α}
    (hs' : s.step (.push item) = some s') :
  s'.Kept
  := by
  obtain ⟨hvalid, hserved⟩ := h
  cases hfull : s.queue.full with
  | true =>
      rw [step, BlockQueue.push_full hfull] at hs'
      obtain rfl := Option.some.inj hs'
      exact ⟨hvalid, { hserved with }⟩
  | false =>
      obtain ⟨q, hq, hvalid', hlist⟩ := BlockQueue.toList_push hvalid hfull item
      rw [step, hq] at hs'
      obtain rfl := Option.some.inj hs'
      refine ⟨hvalid', { hserved with fifo := ?_ }⟩
      change s.pushed ++ [item] = _ ++ q.toList
      rw [hserved.fifo, hlist, List.append_assoc]

/-- The element a thread took out last, after a thread took one out. -/
theorem getLast?_filter_append {popped : List (ℕ × α)} {i j : ℕ} {x : α} :
  ((popped ++ [(j, x)]).filter (·.1 = i)).getLast?
    = if j = i then some (i, x) else (popped.filter (·.1 = i)).getLast?
  := by
  rw [List.filter_append]
  split
  next h => simp [h]
  next h => simp [h]

/-- A thread that is not back from `pop` may be anywhere in it. -/
theorem Kept.update {s : Consumers α} (h : s.Kept) (thread : ℕ) {c : Consumer α}
    (hgave : c ≠ .gaveUp) (hgot : ∀ x, c ≠ .got x) :
  Kept { s with consumers := Function.update s.consumers thread c }
  := by
  have hne : ∀ i, Function.update s.consumers thread c i ≠ .gaveUp := by
    intro i
    by_cases hi : i = thread
    · rw [hi, Function.update_self]
      exact hgave
    · rw [Function.update_of_ne hi]
      apply h.served.consumers i
  refine ⟨h.valid, ⟨hne, h.served.fifo, ?_, hne _⟩⟩
  intro i x hi
  apply h.served.got
  by_cases hthread : i = thread
  · rw [hthread] at hi
    apply absurd ((Function.update_self ..).symm.trans hi) (hgot x)
  · exact (Function.update_of_ne hthread ..).symm.trans hi

/-- A thread that takes the oldest element out. -/
theorem Kept.taken {s : Consumers α} (h : s.Kept) (thread : ℕ) {x : α} {q : BlockQueue α}
    (hvalid : q.Valid) (hlist : s.queue.toList = x :: q.toList) :
  (s.settle thread (.taken x, q)).Kept
  := by
  have hne : ∀ i, Function.update s.consumers thread (.got x) i ≠ .gaveUp := by
    intro i
    by_cases hi : i = thread
    · simp [hi]
    · rw [Function.update_of_ne hi]
      apply h.served.consumers i
  refine ⟨hvalid, ⟨hne, ?_, ?_, hne _⟩⟩
  · change s.pushed = (s.popped ++ [(thread, x)]).map Prod.snd ++ q.toList
    rw [h.served.fifo, hlist, List.map_append, List.append_assoc]
    rfl
  · intro i y hy
    change Function.update s.consumers thread (.got x) i = .got y at hy
    change ((s.popped ++ [(thread, x)]).filter (·.1 = i)).getLast? = some (i, y)
    rw [getLast?_filter_append]
    by_cases hi : i = thread
    · subst hi
      rw [Function.update_self] at hy
      cases hy
      exact if_pos rfl
    · rw [Function.update_of_ne hi] at hy
      rw [if_neg (Ne.symm hi)]
      apply h.served.got i y hy

/-- A call of `pop` keeps the consumers served. -/
theorem Kept.pop {s s' : Consumers α} (h : s.Kept) {thread : ℕ}
    (hs' : s.step (.pop thread) = some s') :
  s'.Kept
  := by
  rw [step] at hs'
  split at hs'
  next =>
    obtain rfl := Option.some.inj hs'
    rcases BlockQueue.pop_cases h.valid with ⟨x, q, hpop, hvalid, hlist⟩ | ⟨hpop, -⟩
    · rw [hpop]
      exact h.taken thread hvalid hlist
    · rw [hpop]
      exact h.update thread nofun nofun
  next => cases hs'

/-- A thread that is served calls `pop` again. -/
theorem Kept.again {s s' : Consumers α} (h : s.Kept) {thread : ℕ}
    (hs' : s.step (.again thread) = some s') :
  s'.Kept
  := by
  rw [step] at hs'
  split at hs'
  next =>
    obtain rfl := Option.some.inj hs'
    exact h.update thread nofun nofun
  next hgave => exact absurd hgave (h.served.consumers thread)
  next => cases hs'

/-- A step that wakes no thread keeps the consumers served. -/
theorem Kept.step {s s' : Consumers α} (h : s.Kept) {e : ConsumersEvent α}
    (he : NotWoken s e) (hs' : s.step e = some s') :
  s'.Kept
  := by
  cases e with
  | push item => exact h.push hs'
  | pop thread => exact h.pop hs'
  | wake thread => cases he
  | again thread => exact h.again hs'

/-- A thread that is woken is not served. -/
theorem not_served_of_wake {s s' : Consumers α} {thread : ℕ}
    (hs' : s.step (.wake thread) = some s') :
  ¬ s'.Served
  := by
  rw [Consumers.step] at hs'
  split at hs'
  next =>
    obtain rfl := Option.some.inj hs'
    intro h
    apply h.consumers thread (Function.update_self ..)
  next => cases hs'

/-- The consumers are served throughout a run exactly when no thread that waits in `pop`
is woken in it. -/
theorem served_iff [Inhabited α] {maxSize : ℤ} {q : BlockQueue α}
    (hq : BlockQueue.ofMaxSize maxSize = some q) {es : List (ConsumersEvent α)}
    {t : Consumers α} (h : Run.exec Consumers.step (init q) es = some t) :
  Run.Throughout Consumers.step Served (init q) es ↔
    Run.Along Consumers.step NotWoken (init q) es
  := by
  obtain ⟨hvalid, hnil⟩ := BlockQueue.ofMaxSize_valid hq
  apply Run.throughout_iff_along (I := Kept) _ _ (fun _ h => h.served) (init_kept hvalid hnil) h
  · intro s e s' hs he hs'
    apply hs.step he hs'
  · intro s e s' hs he hs'
    cases e with
    | wake thread => exact not_served_of_wake hs'
    | _ => exact absurd trivial he

/-- The queue of one place, the flush thread and an element for it. -/
theorem served_iff_one :
  ∃ q : BlockQueue ℕ,
    Run.Throughout Consumers.step Served (init q) [.push 7, .pop 0, .again 0, .pop 0] ↔
      Run.Along Consumers.step NotWoken (init q) [.push 7, .pop 0, .again 0, .pop 0]
  := ⟨_, @served_iff ℕ _ 1 _ rfl _ _ rfl⟩

/-- The flush thread waits for an element, is woken when it is pushed, and leaves its
loop. -/
theorem not_served :
  ¬ ∀ (maxSize : ℤ) (q : BlockQueue ℕ) (es : List (ConsumersEvent ℕ)) (t : Consumers ℕ),
    BlockQueue.ofMaxSize maxSize = some q → Run.exec Consumers.step (init q) es = some t →
      t.Served
  := by
  intro h
  exact (h 1 _ [.pop 0, .push 7, .wake 0] _ rfl rfl).flushing rfl

end Consumers

end WebServer
