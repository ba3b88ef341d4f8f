import CppRepo.Library.Text

/-!
# Paths

A path is a text of names with slashes between them. It is resolved name by name from a directory,
which is given by the names on the way to it from the root: an empty name and `.` stay, `..` goes to
the parent, any other name goes down. A path that begins with a slash is resolved from the root.
There are no symbolic links.

Names other than `..` never leave the directory they start in.
-/

namespace CppRepo

/-- A directory or a file, by the names on the way to it from the root. -/
abbrev Location := List Bytes

/-- The byte that separates the names. -/
def slash : UInt8 := 47

/-- The name of the parent directory. -/
def dotDot : Bytes := ascii ".."

/-- Where a name leads. -/
def enter (dir : Location) (name : Bytes) : Location :=
  if name = [] ∨ name = ascii "." then dir
  else if name = dotDot then dir.dropLast
  else dir ++ [name]

/-- Where the names of a text lead from a directory. -/
def follow (dir : Location) (text : Bytes) : Location := (text.splitOn slash).foldl enter dir

/-- Where a path leads from the current directory. -/
def resolve (cwd : Location) (path : Bytes) : Location :=
  follow (if path.head? = some slash then [] else cwd) path

variable {dir cwd : Location} {path text : Bytes} {name : Bytes}

@[simp] theorem follow_nil : follow dir [] = dir := by
  rw [follow, List.splitOn_nil, List.foldl_cons, List.foldl_nil, enter, if_pos (Or.inl rfl)]

theorem follow_append_slash (dir : Location) (path text : Bytes) :
    follow dir (path ++ slash :: text) = follow (follow dir path) text := by
  rw [follow, List.splitOn_append_cons_self, List.foldl_append, follow, follow]

theorem follow_concat_slash (dir : Location) (path : Bytes) :
    follow dir (path ++ [slash]) = follow dir path := by
  rw [follow_append_slash, follow_nil]

theorem prefix_enter (h : name ≠ dotDot) : dir <+: enter dir name := by
  rw [enter, if_neg h]
  split
  · exact List.prefix_rfl
  · exact List.prefix_append dir [name]

theorem prefix_foldl_enter {names : List Bytes} (h : dotDot ∉ names) :
    dir <+: names.foldl enter dir := by
  induction names generalizing dir with
  | nil => exact List.prefix_rfl
  | cons name names ih =>
    rw [List.mem_cons, not_or] at h
    exact (prefix_enter (Ne.symm h.1)).trans (ih h.2)

theorem infix_intercalate {names : List Bytes} (h : name ∈ names) (sep : Bytes) :
    name <:+: sep.intercalate names := by
  induction names with
  | nil => exact absurd h List.not_mem_nil
  | cons first names ih =>
    cases names with
    | nil =>
      rw [List.intercalate_singleton, List.mem_singleton.mp h]
    | cons second names =>
      rw [List.intercalate_cons_cons]
      rcases List.mem_cons.mp h with rfl | h
      · exact (List.prefix_append name sep).trans (List.prefix_append _ _) |>.isInfix
      · exact (ih h).trans (List.suffix_append _ _).isInfix

theorem infix_of_mem_splitOn (h : name ∈ text.splitOn slash) : name <:+: text := by
  have hinfix := infix_intercalate h [slash]
  rwa [List.intercalate_splitOn] at hinfix

/-- A text without two dots in a row leads to something in the directory. -/
theorem prefix_follow (h : ¬ dotDot <:+: text) : dir <+: follow dir text :=
  prefix_foldl_enter fun hmem ↦ h (infix_of_mem_splitOn hmem)

end CppRepo
