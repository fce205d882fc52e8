import EbnfKit.CommandLine.Script

/-! # File trees — a directory in memory

    A tree holds files by their names from the top, and its directories are those that
    some file is in.  Scripts run against a tree as they would against a disk, and only
    writing changes it. -/

namespace EbnfKit.CommandLine

/-- What a file holds: a text, or bytes that are none. -/
inductive Contents
  | text (t : Text)
  | bytes (raw : List UInt8)
deriving DecidableEq

/-- Files by the names of the directories that lead to them and their own. -/
structure FileTree where
  files : List (List Text × Contents)
deriving DecidableEq

namespace FileTree

/-- The contents of the file with the given names. -/
def contents? (tree : FileTree) (names : List Text) : Option Contents :=
  tree.files.lookup names

/-- The names lead to a directory; no names lead to the top. -/
def isDirectory (tree : FileTree) (names : List Text) : Bool :=
  names.isEmpty || tree.files.any fun file => file.1 != names && names.isPrefixOf file.1

/-- Where a path leads: to a file or a directory of the tree, by its names from the top,
    or to a directory above the tree. -/
inductive Place
  | inside (names : List Text)
  | above
deriving DecidableEq

/-- The directory that holds a place. -/
def Place.parent : Place → Place
  | inside [] => above
  | inside (name :: names) => inside (name :: names).dropLast
  | above => above

/-- A name has at most this many bytes. -/
def maxName : Nat := 255

/-- A path has at most this many bytes. -/
def maxPath : Nat := 4095

/-- Where steps from a directory lead, if something is there.  Of what is above the tree
    nothing is known but the directories on the way to it. -/
def walk (tree : FileTree) : Place → List Text → Except FileError Place
  | place, [] => .ok place
  | place, name :: names =>
      if name = [] ∨ name = ['.'] then walk tree place names
      else if name = ['.', '.'] then walk tree place.parent names
      else if maxName < name.size then .error .nameTooLong
      else
        match place with
        | .above => .error .notFound
        | .inside directory =>
            if tree.isDirectory (directory ++ [name]) then
              walk tree (.inside (directory ++ [name])) names
            else if (tree.contents? (directory ++ [name])).isSome then
              if names.isEmpty then .ok (.inside (directory ++ [name])) else .error .notADirectory
            else .error .notFound

/-- Where a path leads.  One that begins with a slash starts above the tree. -/
def locate (tree : FileTree) (path : Text) : Except FileError Place :=
  if path = [] then .error .notFound
  else if maxPath < path.size then .error .nameTooLong
  else tree.walk (if path.head? = some '/' then .above else .inside []) (path.splitOn '/')

/-- The names of the file at a path, and what it holds. -/
def find (tree : FileTree) (path : Text) : Except FileError (List Text × Contents) :=
  match tree.locate path with
  | .error e => .error e
  | .ok .above => .error .isADirectory
  | .ok (.inside names) =>
      match tree.contents? names with
      | some contents => .ok (names, contents)
      | none => .error .isADirectory

/-- The null device, above every tree. -/
def nullDevice : Text :=
  "/dev/null".toList

/-- The text of the file at a path; the null device has the empty text. -/
def read (tree : FileTree) (path : Text) : Except FileError Text :=
  if path = nullDevice then .ok []
  else
    match tree.find path with
    | .error e => .error e
    | .ok (_, .text t) => .ok t
    | .ok (_, .bytes _) => .error .notText

/-- There is a file at the path. -/
def isFile (tree : FileTree) (path : Text) : Bool :=
  match tree.find path with
  | .error _ => false
  | .ok _ => true

/-- The tree with other contents for the file at a path, or the reason why not. -/
def write (tree : FileTree) (path : Text) (t : Text) : Except FileError FileTree :=
  (tree.find path).map fun found =>
    ⟨tree.files.map fun file => if file.1 = found.1 then (file.1, .text t) else file⟩

end FileTree

/-- What a script comes to, and the files after it. -/
def Script.run : Script → FileTree → Result × FileTree
  | .finish result, tree => (result, tree)
  | .read path next, tree => (next (tree.read path)).run tree
  | .isFile path next, tree => (next (tree.isFile path)).run tree
  | .write path contents next, tree =>
      match tree.write path contents with
      | .ok changed => (next none).run changed
      | .error e => (next (some e)).run tree

end EbnfKit.CommandLine
