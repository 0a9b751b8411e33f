/-!
A tree of files.

A path is read by its text alone: empty steps and single dots are dropped, and two dots undo the
step before them. So `Path.ofText` gives one path to all the texts that lead to the same place.
-/

namespace SmtScript

/-- The steps from the root to a file or directory. -/
abbrev Path := List String

namespace Path

/-- Takes one step of a path. -/
def step (path : Path) (name : String) : Path :=
  if name = "" || name = "." then path
  else if name = ".." then path.dropLast
  else path ++ [name]

/-- The steps that a text names, after some characters of the first one, the last one first. -/
def steps : List Char → List Char → List String
  | first, [] => [String.ofList first.reverse]
  | first, '/' :: rest => String.ofList first.reverse :: steps [] rest
  | first, c :: rest => steps (c :: first) rest

/-- The path that a text leads to from a directory. -/
def ofText (start : Path) (text : String) : Path :=
  let chars := text.toList
  (steps [] chars).foldl step (if chars.head? = some '/' then [] else start)

example : ofText ["work"] "run/../a.smt2/." = ["work", "a.smt2"] := by decide
example : ofText ["work"] "/tmp//b/" = ["tmp", "b"] := by decide

end Path

structure FileTree where
  directories : List Path
  /-- The files with their texts. -/
  files : List (Path × String)
  /-- The directory from which relative paths start. -/
  start : Path
  deriving Repr

namespace FileTree

def path (tree : FileTree) (text : String) : Path :=
  Path.ofText tree.start text

/-- The text of a file. -/
def read? (tree : FileTree) (file : String) : Option String :=
  tree.files.lookup (tree.path file)

/-- Empties a file, or makes an empty one. This needs a directory to put it in, and no directory
in its place. -/
def clear? (tree : FileTree) (file : String) : Option FileTree :=
  let path := tree.path file
  if tree.directories.contains path || !tree.directories.contains path.dropLast then none
  else some { tree with files := (path, "") :: tree.files }

/-- A file that was emptied is empty. -/
theorem read?_clear? {tree cleared : FileTree} {file : String}
    (h : tree.clear? file = some cleared) : cleared.read? file = some "" := by
  simp only [clear?] at h
  split at h
  · cases h
  · cases h
    simp [read?, path]

end FileTree

end SmtScript
