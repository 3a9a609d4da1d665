import Mathlib.Tactic

/-!
# Lexical resolution of paths

An absolute path is walked from the root, segment by segment: `.` stays, `..` goes up and
stays at the root, and every other segment goes down into the directory of that name.
Repeated slashes do not matter, and no segment is taken to be a symbolic link.

Seen from the directory in which it begins, a walk goes up some directories and then down
some (`relative`).  It ends in the directory or below it exactly when it comes down by the
names of the directories that it went up from (`prefix_walk_iff`).
-/

namespace LexicalPath

/-- The segments of a path. -/
def segments (path : List UInt8) : List (List UInt8) :=
  (path.splitOn 47).filter (· ≠ [])

@[simp]
theorem segments_slash (path : List UInt8) :
  segments (47 :: path) = segments path
  := by
  rw [segments, List.splitOn_cons_eq_if_modifyHead]
  simp [segments]

/-- The segments of a path behind the path of a directory. -/
theorem segments_append (dir path : List UInt8) :
  segments (dir ++ 47 :: path) = segments dir ++ segments path
  := by
  rw [segments, List.splitOn_append_cons_self, List.filter_append]
  rfl

/-! ### Walks -/

/-- One segment from the directory that the names `dirs` lead to. -/
def step (dirs : List (List UInt8)) (segment : List UInt8) : List (List UInt8) :=
  if segment = [46] then dirs
  else if segment = [46, 46] then dirs.dropLast
  else dirs ++ [segment]

/-- The walk along some segments from the directory that the names `dirs` lead to. -/
def walk (dirs : List (List UInt8)) (path : List (List UInt8)) : List (List UInt8) :=
  path.foldl step dirs

/-- The names that lead from the root to what an absolute path names. -/
def resolve (path : List UInt8) : List (List UInt8) := walk [] (segments path)

/-- What the absolute path `path` names lies in the directory `dir` or below it. -/
def Within (dir path : List UInt8) : Prop := resolve dir <+: resolve path

instance decidableWithin (dir path : List UInt8) : Decidable (Within dir path) :=
  inferInstanceAs (Decidable (resolve dir <+: resolve path))

/-- The path of a directory and a path behind it. -/
theorem resolve_append (dir path : List UInt8) :
  resolve (dir ++ 47 :: path) = walk (resolve dir) (segments path)
  := by
  rw [resolve, segments_append, walk, List.foldl_append]
  rfl

/-! ### Up and down -/

/-- A walk seen from where it begins: so many directories up, and down along the names. -/
structure Relative where
  up : ℕ
  down : List (List UInt8)
  deriving DecidableEq

/-- One segment further. -/
def Relative.step (r : Relative) (segment : List UInt8) : Relative :=
  if segment = [46] then r
  else if segment = [46, 46] then
    if r.down = [] then ⟨r.up + 1, []⟩ else ⟨r.up, r.down.dropLast⟩
  else ⟨r.up, r.down ++ [segment]⟩

/-- A walk along some segments. -/
def relative (path : List (List UInt8)) : Relative :=
  path.foldl Relative.step ⟨0, []⟩

/-- Where a walk from the directory that `dirs` lead to comes to. -/
def Relative.from (dirs : List (List UInt8)) (r : Relative) : List (List UInt8) :=
  dirs.take (dirs.length - r.up) ++ r.down

theorem step_from (dirs : List (List UInt8)) (r : Relative) (segment : List UInt8) :
  step (r.from dirs) segment = (r.step segment).from dirs
  := by
  rw [step, Relative.step]
  split
  · rfl
  · split
    · split
      · next hdown =>
          simp only [Relative.from, hdown, List.append_nil]
          rw [List.dropLast_eq_take, List.take_take, List.length_take]
          congr 1
          omega
      · next hdown =>
          rw [Relative.from, List.dropLast_append_of_ne_nil hdown]
          rfl
    · rw [Relative.from, List.append_assoc]
      rfl

/-- Where a walk comes to. -/
theorem walk_eq (dirs : List (List UInt8)) (path : List (List UInt8)) :
  walk dirs path = (relative path).from dirs
  := by
  have hstart : dirs = Relative.from dirs ⟨0, []⟩ := by simp [Relative.from]
  rw [walk, relative]
  nth_rewrite 1 [hstart]
  apply List.foldl_hom (Relative.from dirs) (step_from dirs)

/-- The walk comes down by the names of the directories that it went up from. -/
def Relative.Returns (dirs : List (List UInt8)) (r : Relative) : Prop :=
  dirs.drop (dirs.length - r.up) <+: r.down

instance Relative.decidableReturns (dirs : List (List UInt8)) (r : Relative) :
    Decidable (r.Returns dirs) :=
  inferInstanceAs (Decidable (dirs.drop (dirs.length - r.up) <+: r.down))

theorem prefix_walk_iff (dirs path : List (List UInt8)) :
  dirs <+: walk dirs path ↔ (relative path).Returns dirs
  := by
  rw [walk_eq, Relative.from, Relative.Returns]
  nth_rewrite 1 [← List.take_append_drop (dirs.length - (relative path).up) dirs]
  apply List.prefix_append_right_inj _

/-- What a path behind the path of a directory names lies below the directory exactly when
the walk along it does not leave it for good. -/
theorem within_append_iff (dir path : List UInt8) :
  Within dir (dir ++ 47 :: path) ↔ (relative (segments path)).Returns (resolve dir)
  := by
  rw [Within, resolve_append, prefix_walk_iff]

end LexicalPath
