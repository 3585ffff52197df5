import HotkeyScript.Glob.Search

/-!
# Files in memory

A tree of files, given by their paths and contents, that answers the questions of a disk. Its root
is the current directory, and there is nothing above it.

## Main definitions

* `FileTree` — the files.
* `FileTree.locate?` — where a path leads.
* `FileTree.disk` — the tree as a disk.
-/

namespace HotkeyScript

/-- Files, each with the names on the way to it and its bytes. Of two files at one place the later
one counts. -/
structure FileTree where
  files : List (List String × List UInt8)
  deriving DecidableEq, Repr, Inhabited

namespace FileTree

/-- The names on the way from the root to a place. -/
abbrev Place := List String

variable (tree : FileTree)

/-- A file is at the place. -/
def hasFile (place : Place) : Bool :=
  tree.files.any (·.1 == place)

/-- A directory is at the place: the root, or one with a file somewhere below. -/
def hasDirectory (place : Place) : Bool :=
  place.isEmpty || tree.files.any fun file =>
    place.isPrefixOf file.1 && place.length < file.1.length

/-- Where parts of a path lead from a place. Only from a directory can a path go on. -/
def locateFrom? (place : Place) : List String → Option Place
  | [] => some place
  | part :: parts =>
    if tree.hasDirectory place then
      if part == "" || part == "." then locateFrom? place parts
      else if part == ".." then
        if place.isEmpty then none else locateFrom? place.dropLast parts
      else locateFrom? (place ++ [part]) parts
    else none

/-- Where a path leads. An empty path and one that starts with a slash lead nowhere. -/
def locate? (path : String) : Option Place :=
  match path.toList with
  | [] => none
  | c :: cs =>
    if c = '/' then none
    else tree.locateFrom? [] ((Glob.splitSlashes (c :: cs)).map String.ofList)

/-- The names in a directory, each once. -/
def namesIn (place : Place) : List String :=
  (tree.files.filterMap fun file =>
    if place.isPrefixOf file.1 then (file.1.drop place.length).head? else none).eraseDups

/-- The bytes of a file. -/
def contents? (place : Place) : Option (List UInt8) :=
  (tree.files.reverse.find? (·.1 == place)).map (·.2)

/-- The number of names on the longest way to a file. -/
def depth : Nat :=
  tree.files.foldl (fun deepest file => max deepest file.1.length) 0

/-- The tree as a disk. -/
def disk : Disk Id where
  isFile path := (tree.locate? path).any tree.hasFile
  isDirectory path := (tree.locate? path).any tree.hasDirectory
  names path := ((tree.locate? path).map tree.namesIn).getD []
  read path :=
    match (tree.locate? path).bind tree.contents? with
    | some bytes => .ok bytes
    | none => .error "no such file"
  depth := tree.depth

end FileTree

end HotkeyScript
