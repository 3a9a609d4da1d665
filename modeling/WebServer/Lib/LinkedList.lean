import Mathlib.Tactic

/-!
# Doubly linked lists in a heap

A heap maps addresses to cells, and a cell holds a value and the addresses of its
neighbours.  Reading or writing through an address at which there is no cell has no
result.  `Seg h p l q` says that the heap `h` holds the values of `l` in cells linked one
behind the other, from the neighbour `p` before the first to the neighbour `q` behind the
last.

Segments with no cell in common do not interfere (`Seg.frame`); a segment may be relinked
at its two ends (`Seg.setNext_last`, `Seg.setPrev_head`), and segments whose ends meet are
one (`seg_append`).  Insertion and removal follow (`Seg.insert`, `Seg.insert_last`,
`Seg.unlink`).
-/

universe u v

namespace LinkedList

variable {α : Type u} {β : Type v}

/-- A value and the links to its neighbours. -/
structure Cell (α : Type u) (β : Type v) where
  value : β
  prev : Option α
  next : Option α

/-- A heap of cells. -/
abbrev Heap (α : Type u) (β : Type v) : Type (max u v) := α → Option (Cell α β)

section Writing

variable [DecidableEq α]

/-- Writes the value of a cell. -/
def setValue (h : Heap α β) (a : α) (v : β) : Option (Heap α β) :=
  (h a).map fun c => Function.update h a (some { c with value := v })

/-- Writes the link of a cell to the one before. -/
def setPrev (h : Heap α β) (a : α) (p : Option α) : Option (Heap α β) :=
  (h a).map fun c => Function.update h a (some { c with prev := p })

/-- Writes the link of a cell to the one behind. -/
def setNext (h : Heap α β) (a : α) (q : Option α) : Option (Heap α β) :=
  (h a).map fun c => Function.update h a (some { c with next := q })

/-- Frees a cell. -/
def free (h : Heap α β) (a : α) : Option (Heap α β) :=
  (h a).map fun _ => Function.update h a none

end Writing

/-- Writing into a cell leaves the addresses at which there are cells. -/
theorem isSome_update
    [DecidableEq α] {h : Heap α β} {a : α} {f : Cell α β → Cell α β} {h' : Heap α β}
    (he : (h a).map (fun c => Function.update h a (some (f c))) = some h') (b : α) :
  (h' b).isSome = (h b).isSome
  := by
  obtain ⟨c, hc, rfl⟩ := Option.map_eq_some_iff.mp he
  by_cases hb : b = a
  · rw [hb, Function.update_self, hc]
    rfl
  · rw [Function.update_of_ne hb]

theorem isSome_setValue
    [DecidableEq α] {h h' : Heap α β} {a : α} {v : β} (he : setValue h a v = some h') (b : α) :
  (h' b).isSome = (h b).isSome
  := isSome_update he b

theorem isSome_setPrev
    [DecidableEq α] {h h' : Heap α β} {a : α} {p : Option α} (he : setPrev h a p = some h')
    (b : α) :
  (h' b).isSome = (h b).isSome
  := isSome_update he b

theorem isSome_setNext
    [DecidableEq α] {h h' : Heap α β} {a : α} {q : Option α} (he : setNext h a q = some h')
    (b : α) :
  (h' b).isSome = (h b).isSome
  := isSome_update he b

/-! ### Segments -/

/-- The addresses of cells. -/
def addresses (l : List (α × β)) : List α := l.map Prod.fst

@[simp]
theorem addresses_nil :
  addresses ([] : List (α × β)) = []
  := rfl

@[simp]
theorem addresses_cons (x : α × β) (l : List (α × β)) :
  addresses (x :: l) = x.1 :: addresses l
  := rfl

@[simp]
theorem addresses_append (l₁ l₂ : List (α × β)) :
  addresses (l₁ ++ l₂) = addresses l₁ ++ addresses l₂
  := List.map_append

/-- The address of the first cell of `l` followed by `q`. -/
def first : List (α × β) → Option α → Option α
  | [], q => q
  | x :: _, _ => some x.1

/-- The address of the last cell of `l` preceded by `p`. -/
def last : Option α → List (α × β) → Option α
  | p, [] => p
  | _, x :: l => last (some x.1) l

@[simp]
theorem first_nil (q : Option α) :
  first ([] : List (α × β)) q = q
  := rfl

@[simp]
theorem first_cons (x : α × β) (l : List (α × β)) (q : Option α) :
  first (x :: l) q = some x.1
  := rfl

@[simp]
theorem last_nil (p : Option α) :
  last p ([] : List (α × β)) = p
  := rfl

@[simp]
theorem last_cons (p : Option α) (x : α × β) (l : List (α × β)) :
  last p (x :: l) = last (some x.1) l
  := rfl

theorem first_append (l₁ l₂ : List (α × β)) (q : Option α) :
  first (l₁ ++ l₂) q = first l₁ (first l₂ q)
  := by
  cases l₁ with
  | nil => rfl
  | cons x l => rfl

theorem last_append (p : Option α) (l₁ l₂ : List (α × β)) :
  last p (l₁ ++ l₂) = last (last p l₁) l₂
  := by
  induction l₁ generalizing p with
  | nil => rfl
  | cons x l ih => apply ih

@[simp]
theorem last_concat (p : Option α) (l : List (α × β)) (x : α × β) :
  last p (l ++ [x]) = some x.1
  := last_append p l [x]

/-- The heap `h` holds `l` in linked cells, between the neighbours `p` and `q`. -/
def Seg (h : Heap α β) : Option α → List (α × β) → Option α → Prop
  | _, [], _ => True
  | p, x :: l, q => h x.1 = some ⟨x.2, p, first l q⟩ ∧ Seg h (some x.1) l q

theorem seg_cons (h : Heap α β) (p : Option α) (x : α × β) (l : List (α × β)) (q : Option α) :
  Seg h p (x :: l) q ↔ h x.1 = some ⟨x.2, p, first l q⟩ ∧ Seg h (some x.1) l q
  := Iff.rfl

theorem seg_singleton (h : Heap α β) (p : Option α) (x : α × β) (q : Option α) :
  Seg h p [x] q ↔ h x.1 = some ⟨x.2, p, q⟩
  := and_iff_left trivial

/-- Two segments whose ends meet. -/
theorem seg_append (h : Heap α β) (p : Option α) (l₁ l₂ : List (α × β)) (q : Option α) :
  Seg h p (l₁ ++ l₂) q ↔ Seg h p l₁ (first l₂ q) ∧ Seg h (last p l₁) l₂ q
  := by
  induction l₁ generalizing p with
  | nil => simp [Seg]
  | cons x l ih =>
      rw [List.cons_append, seg_cons, seg_cons, ih, first_append, last_cons, and_assoc]

theorem seg_append_cons
    (h : Heap α β) (p : Option α) (l₁ : List (α × β)) (x : α × β) (l₂ : List (α × β))
    (q : Option α) :
  Seg h p (l₁ ++ x :: l₂) q ↔ Seg h p (l₁ ++ [x]) (first l₂ q) ∧ Seg h (some x.1) l₂ q
  := by
  rw [List.append_cons, seg_append, last_concat]

/-- A heap with the same cells holds the same segment. -/
theorem Seg.frame
    {h h' : Heap α β} {p q : Option α} {l : List (α × β)} (hl : Seg h p l q)
    (hh : ∀ a ∈ addresses l, h' a = h a) :
  Seg h' p l q
  := by
  induction l generalizing p with
  | nil => trivial
  | cons x l ih =>
      rw [addresses_cons, List.forall_mem_cons] at hh
      exact ⟨hh.1.trans hl.1, ih hl.2 hh.2⟩

/-- The cells of a segment. -/
theorem Seg.cell
    {h : Heap α β} {p q : Option α} {a b : List (α × β)} {x : α × β}
    (hl : Seg h p (a ++ x :: b) q) :
  h x.1 = some ⟨x.2, last p a, first b q⟩
  := ((seg_append ..).mp hl).2.1

/-! ### Walking along the links -/

/-- The cells reached from the address `a` through the links to the next cell, up to the
one that has none, are `l`. -/
def Walk (h : Heap α β) : Option α → List α → Prop
  | a, [] => a = none
  | a, x :: l => a = some x ∧ ∃ c, h x = some c ∧ Walk h c.next l

/-- The address of the cell behind. -/
def next (h : Heap α β) (a : α) : Option α := (h a).bind Cell.next

/-- The address of the cell before. -/
def prev (h : Heap α β) (a : α) : Option α := (h a).bind Cell.prev

/-- A cell that points to the cell behind is not free. -/
theorem isSome_of_next {h : Heap α β} {a b : α} (hab : next h a = some b) :
  (h a).isSome = true
  := by
  obtain ⟨c, hc, -⟩ := Option.bind_eq_some_iff.mp hab
  rw [hc]
  rfl

/-- A cell that points to the cell before is not free. -/
theorem isSome_of_prev {h : Heap α β} {a b : α} (hab : prev h a = some b) :
  (h a).isSome = true
  := by
  obtain ⟨c, hc, -⟩ := Option.bind_eq_some_iff.mp hab
  rw [hc]
  rfl

/-- A walk along a whole list. -/
theorem Seg.walk
    {h : Heap α β} {p : Option α} {l : List (α × β)} (hl : Seg h p l none) :
  Walk h (first l none) (addresses l)
  := by
  induction l generalizing p with
  | nil => rfl
  | cons x l ih => exact ⟨rfl, _, hl.1, ih hl.2⟩

/-- The last address of a list. -/
theorem getLast?_addresses (l : List (α × β)) :
  (addresses l).getLast? = last none l
  := by
  rcases List.eq_nil_or_concat' l with rfl | ⟨l, x, rfl⟩
  · rfl
  · rw [last_concat, addresses_append]
    apply List.getLast?_concat

/-- The first cell of a segment is linked to the neighbour before. -/
theorem Seg.prev_first
    {h : Heap α β} {p q : Option α} {l : List (α × β)} (hl : Seg h p l q) {a : α}
    (ha : first l none = some a) :
  prev h a = p
  := by
  cases l with
  | nil => cases ha
  | cons x l =>
      obtain rfl : x.1 = a := Option.some.inj ha
      rw [prev, hl.1]
      rfl

/-- The last cell of a segment is linked to the neighbour behind. -/
theorem Seg.next_last
    {h : Heap α β} {p q : Option α} {l : List (α × β)} (hl : Seg h p l q) {a : α}
    (ha : last none l = some a) :
  next h a = q
  := by
  rcases List.eq_nil_or_concat' l with rfl | ⟨l, x, rfl⟩
  · cases ha
  · rw [last_concat] at ha
    obtain rfl : x.1 = a := Option.some.inj ha
    rw [next, hl.cell]
    rfl

/-- The cell behind the one before. -/
theorem Seg.prev_of_next
    {h : Heap α β} {p : Option α} {l : List (α × β)} (hl : Seg h p l none) {a b : α}
    (ha : a ∈ addresses l) (hab : next h a = some b) :
  prev h b = some a
  := by
  obtain ⟨x, hx, rfl⟩ := List.mem_map.mp ha
  obtain ⟨l₁, l₂, rfl⟩ := List.append_of_mem hx
  rw [next, hl.cell, Option.bind_some] at hab
  cases l₂ with
  | nil => cases hab
  | cons y l₂ =>
      obtain rfl : y.1 = b := Option.some.inj hab
      rw [List.append_cons] at hl
      rw [prev, hl.cell, Option.bind_some, last_concat]

/-- The cell before the one behind. -/
theorem Seg.next_of_prev
    {h : Heap α β} {q : Option α} {l : List (α × β)} (hl : Seg h none l q) {a b : α}
    (hb : b ∈ addresses l) (hab : prev h b = some a) :
  next h a = some b
  := by
  obtain ⟨y, hy, rfl⟩ := List.mem_map.mp hb
  obtain ⟨l₁, l₂, rfl⟩ := List.append_of_mem hy
  rw [prev, hl.cell, Option.bind_some] at hab
  rcases List.eq_nil_or_concat' l₁ with rfl | ⟨l₁, x, rfl⟩
  · cases hab
  · rw [last_concat] at hab
    obtain rfl : x.1 = a := Option.some.inj hab
    rw [← List.append_cons] at hl
    rw [next, hl.cell]
    rfl

section Relinking

variable {h : Heap α β} {p q : Option α}

/-- The heap `h'` differs from `h` at most at the address `a`. -/
def Only (a : α) (h h' : Heap α β) : Prop := ∀ b, b ≠ a → h' b = h b

theorem Seg.only
    {h' : Heap α β} {a : α} {l : List (α × β)} (hl : Seg h p l q) (ha : Only a h h')
    (hmem : a ∉ addresses l) :
  Seg h' p l q
  := by
  apply hl.frame
  rintro b hb
  apply ha
  rintro rfl
  apply hmem hb

variable [DecidableEq α]

/-- The last cell of a segment is linked to another neighbour. -/
theorem Seg.setNext_last
    {l : List (α × β)} {x : α × β} (hl : Seg h p (l ++ [x]) q) (hx : x.1 ∉ addresses l)
    (q' : Option α) :
  ∃ h', setNext h x.1 q' = some h' ∧ Seg h' p (l ++ [x]) q' ∧ Only x.1 h h'
  := by
  have hcell := hl.cell
  obtain ⟨hinit, -⟩ := (seg_append ..).mp hl
  refine ⟨Function.update h x.1 (some ⟨x.2, last p l, q'⟩), ?_, ?_, ?_⟩
  · rw [setNext, hcell]
    rfl
  · rw [seg_append, seg_singleton, Function.update_self]
    refine ⟨?_, rfl⟩
    apply Seg.only (a := x.1) hinit _ hx
    intro b hb
    apply Function.update_of_ne hb
  · intro b hb
    apply Function.update_of_ne hb

/-- The first cell of a segment is linked to another neighbour. -/
theorem Seg.setPrev_head
    {l : List (α × β)} {x : α × β} (hl : Seg h p (x :: l) q) (hx : x.1 ∉ addresses l)
    (p' : Option α) :
  ∃ h', setPrev h x.1 p' = some h' ∧ Seg h' p' (x :: l) q ∧ Only x.1 h h'
  := by
  refine ⟨Function.update h x.1 (some ⟨x.2, p', first l q⟩), ?_, ?_, ?_⟩
  · rw [setPrev, hl.1]
    rfl
  · refine ⟨Function.update_self .., ?_⟩
    apply Seg.only (a := x.1) hl.2 _ hx
    intro b hb
    apply Function.update_of_ne hb
  · intro b hb
    apply Function.update_of_ne hb

/-- The value of a cell of a segment is written. -/
theorem Seg.setValue
    {a b : List (α × β)} {x : α × β} (hl : Seg h p (a ++ x :: b) q)
    (hnodup : (addresses (a ++ x :: b)).Nodup) (v : β) :
  ∃ h', LinkedList.setValue h x.1 v = some h' ∧ Seg h' p (a ++ (x.1, v) :: b) q
  := by
  simp only [addresses_append, addresses_cons, List.nodup_append, List.nodup_cons,
    List.mem_cons] at hnodup
  obtain ⟨-, ⟨hxb, -⟩, hdisj⟩ := hnodup
  have hxa : x.1 ∉ addresses a := fun hx => hdisj _ hx _ (Or.inl rfl) rfl
  have ho : Only x.1 h (Function.update h x.1 (some ⟨v, last p a, first b q⟩)) := by
    intro y hy
    apply Function.update_of_ne hy
  have hcell := hl.cell
  rw [seg_append, seg_cons] at hl
  refine ⟨Function.update h x.1 (some ⟨v, last p a, first b q⟩), ?_, ?_⟩
  · rw [LinkedList.setValue, hcell]
    rfl
  · rw [seg_append, seg_cons]
    exact ⟨hl.1.only ho hxa, Function.update_self .., hl.2.2.only ho hxb⟩

/-- A cell is inserted between two neighbours of a segment. -/
theorem Seg.insert
    {a b : List (α × β)} {y z t : α × β} {p' q' : Option α}
    (hl : Seg h p (a ++ y :: z :: b) q) (ht : h t.1 = some ⟨t.2, p', q'⟩)
    (hnodup : (addresses (a ++ y :: z :: b)).Nodup)
    (hmem : t.1 ∉ addresses (a ++ y :: z :: b)) :
  ∃ h₁ h₂ h₃ h₄, setNext h y.1 (some t.1) = some h₁ ∧ setNext h₁ t.1 (some z.1) = some h₂ ∧
    setPrev h₂ z.1 (some t.1) = some h₃ ∧ setPrev h₃ t.1 (some y.1) = some h₄ ∧
    Seg h₄ p (a ++ y :: t :: z :: b) q
  := by
  rw [seg_append_cons, first_cons] at hl
  obtain ⟨hay, hzb⟩ := hl
  simp only [addresses_append, addresses_cons, List.nodup_append, List.nodup_cons, List.mem_cons,
    not_or, List.mem_append] at hnodup hmem
  obtain ⟨-, ⟨⟨hyz, hyb⟩, hzb', -⟩, hdisj⟩ := hnodup
  obtain ⟨hta, hty, htz, htb⟩ := hmem
  have hya : y.1 ∉ addresses a := fun hy => hdisj _ hy _ (Or.inl rfl) rfl
  have hza : z.1 ∉ addresses a := fun hz => hdisj _ hz _ (Or.inr (Or.inl rfl)) rfl
  obtain ⟨h₁, e₁, hay, o₁⟩ := hay.setNext_last hya (some t.1)
  have ht := ((seg_singleton h p' t q').mpr ht).only o₁ (by simpa using Ne.symm hty)
  have hzb := hzb.only o₁ (by simpa using ⟨hyz, hyb⟩)
  obtain ⟨h₂, e₂, ht, o₂⟩ := Seg.setNext_last (l := []) ht (by simp) (some z.1)
  have hay := hay.only o₂ (by simpa using ⟨hta, hty⟩)
  have hzb := hzb.only o₂ (by simpa using ⟨htz, htb⟩)
  obtain ⟨h₃, e₃, hzb, o₃⟩ := hzb.setPrev_head hzb' (some t.1)
  have hay := hay.only o₃ (by simpa using ⟨hza, Ne.symm hyz⟩)
  have ht := ht.only o₃ (by simpa using Ne.symm htz)
  obtain ⟨h₄, e₄, ht, o₄⟩ := Seg.setPrev_head (l := []) ht (by simp) (some y.1)
  have hay := hay.only o₄ (by simpa using ⟨hta, hty⟩)
  have hzb := hzb.only o₄ (by simpa using ⟨htz, htb⟩)
  refine ⟨h₁, h₂, h₃, h₄, e₁, e₂, e₃, e₄, ?_⟩
  rw [seg_append_cons, first_cons]
  exact ⟨hay, ht.1, hzb⟩

/-- A cell is inserted behind the last cell of a segment. -/
theorem Seg.insert_last
    {a : List (α × β)} {y t : α × β} {p' q' : Option α}
    (hl : Seg h p (a ++ [y]) q) (ht : h t.1 = some ⟨t.2, p', q'⟩)
    (hnodup : (addresses (a ++ [y])).Nodup) (hmem : t.1 ∉ addresses (a ++ [y])) :
  ∃ h₁ h₂ h₃, setNext h y.1 (some t.1) = some h₁ ∧ setPrev h₁ t.1 (some y.1) = some h₂ ∧
    setNext h₂ t.1 none = some h₃ ∧ Seg h₃ p (a ++ [y, t]) none
  := by
  simp only [addresses_append, addresses_cons, addresses_nil, List.nodup_append, List.mem_cons,
    not_or, List.mem_append] at hnodup hmem
  obtain ⟨-, -, hdisj⟩ := hnodup
  obtain ⟨hta, hty, -⟩ := hmem
  have hya : y.1 ∉ addresses a := fun hy => hdisj _ hy _ (Or.inl rfl) rfl
  obtain ⟨h₁, e₁, hay, o₁⟩ := hl.setNext_last hya (some t.1)
  have ht := ((seg_singleton h p' t q').mpr ht).only o₁ (by simpa using Ne.symm hty)
  obtain ⟨h₂, e₂, ht, o₂⟩ := Seg.setPrev_head (l := []) ht (by simp) (some y.1)
  have hay := hay.only o₂ (by simpa using ⟨hta, hty⟩)
  obtain ⟨h₃, e₃, ht, o₃⟩ := Seg.setNext_last (l := []) ht (by simp) none
  have hay := hay.only o₃ (by simpa using ⟨hta, hty⟩)
  refine ⟨h₁, h₂, h₃, e₁, e₂, e₃, ?_⟩
  rw [seg_append_cons, first_cons]
  exact ⟨hay, ht⟩

/-- A cell between two neighbours of a segment is unlinked. -/
theorem Seg.unlink
    {a b : List (α × β)} {y t z : α × β} (hl : Seg h p (a ++ y :: t :: z :: b) q)
    (hnodup : (addresses (a ++ y :: t :: z :: b)).Nodup) :
  ∃ h₁ h₂, setNext h y.1 (some z.1) = some h₁ ∧ setPrev h₁ z.1 (some y.1) = some h₂ ∧
    Seg h₂ p (a ++ y :: z :: b) q ∧ h₂ t.1 = some ⟨t.2, some y.1, some z.1⟩
  := by
  rw [seg_append_cons, first_cons, seg_cons, first_cons] at hl
  obtain ⟨hay, ht, hzb⟩ := hl
  simp only [addresses_append, addresses_cons, List.nodup_append, List.nodup_cons, List.mem_cons,
    not_or] at hnodup
  obtain ⟨-, ⟨⟨hyt, hyz, hyb⟩, ⟨htz, htb⟩, hzb', -⟩, hdisj⟩ := hnodup
  have hya : y.1 ∉ addresses a := fun hy => hdisj _ hy _ (Or.inl rfl) rfl
  have hza : z.1 ∉ addresses a := fun hz => hdisj _ hz _ (Or.inr (Or.inr (Or.inl rfl))) rfl
  obtain ⟨h₁, e₁, hay, o₁⟩ := hay.setNext_last hya (some z.1)
  have hzb := hzb.only o₁ (by simpa using ⟨hyz, hyb⟩)
  obtain ⟨h₂, e₂, hzb, o₂⟩ := hzb.setPrev_head hzb' (some y.1)
  have hay := hay.only o₂ (by simpa using ⟨hza, Ne.symm hyz⟩)
  refine ⟨h₁, h₂, e₁, e₂, ?_, ?_⟩
  · rw [seg_append_cons, first_cons]
    exact ⟨hay, hzb⟩
  · rw [o₂ _ htz, o₁ _ (Ne.symm hyt), ht]

/-- A cell that is not in a segment is freed. -/
theorem Seg.free
    {l : List (α × β)} {t : α} {c : Cell α β} (hl : Seg h p l q) (ht : h t = some c)
    (hmem : t ∉ addresses l) :
  ∃ h', LinkedList.free h t = some h' ∧ Seg h' p l q ∧ h' t = none ∧ Only t h h'
  := by
  have ho : Only t h (Function.update h t none) := by
    intro b hb
    apply Function.update_of_ne hb
  refine ⟨Function.update h t none, ?_, hl.only ho hmem, Function.update_self .., ho⟩
  rw [LinkedList.free, ht]
  rfl

end Relinking

end LinkedList
