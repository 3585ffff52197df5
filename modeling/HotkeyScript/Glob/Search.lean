import HotkeyScript.Glob.Pattern

/-!
# Finding the paths of a pattern

A pattern is followed from directory to directory, one component at a time. A component without
wildcards names the next path directly; any other is held against the names in the directory, in
order. The search ends because each step either uses up a component or goes one directory deeper,
and the depth of the disk bounds the latter.

The disk is a record of questions in a monad, so the same search runs on the real disk and on a tree
of files in memory.

## Main definitions

* `Disk` — what can be asked about files.
* `Glob.follow` — the path of a name in a directory.
* `Glob.expandWithin` — the paths of components below a directory.
* `Glob.search` — the paths of a pattern.
-/

namespace HotkeyScript

/-- What can be asked about files. A path is relative to the current directory unless it starts with
a slash. -/
structure Disk (m : Type → Type) where
  /-- The path leads to a regular file. -/
  isFile : String → m Bool
  /-- The path leads to a directory. -/
  isDirectory : String → m Bool
  /-- The names in a directory. -/
  names : String → m (List String)
  /-- The bytes of a file, or why it cannot be read. -/
  read : String → m (Except String (List UInt8))
  /-- No directory is deeper than this below another. -/
  depth : Nat

namespace Glob

/-- The path of a name below a directory. -/
def join (path name : String) : String :=
  if path.isEmpty || path.toList.getLast? == some '/' then path ++ name else path ++ "/" ++ name

/-- The path is the current directory, written in any way. -/
def isCurrent (path : String) : Bool :=
  match splitSlashes path.toList with
  | [] => false
  | part :: parts => part == ['.'] && parts.all fun part => part == [] || part == ['.']

/-- The path of a name in a directory; a name in the current directory stands alone. -/
def follow (path name : String) : String :=
  if isCurrent path then name else join path name

variable {m : Type → Type} [Monad m] (disk : Disk m)

/-- Something is at the path. -/
def isThere (path : String) : m Bool := do
  if ← disk.isFile path then return true else disk.isDirectory path

/-- The paths of components below a directory, in order; `depth` bounds how far directories are
entered by a component for any number of them. -/
def expandWithin (directoriesOnly : Bool) (depth : Nat) (components : List Component)
    (path : String) : m (List String) :=
  match components with
  | [] => do
    if directoriesOnly then
      return if ← disk.isDirectory path then [path] else []
    else
      return [path]
  | component :: rest =>
    match component.literal? with
    | some name => do
      let next := follow path name
      let present ←
        if name == "." || name == ".." then disk.isDirectory path else isThere disk next
      if present then expandWithin directoriesOnly depth rest next else return []
    | none => do
      if ← disk.isDirectory path then
        let names := (← disk.names path).mergeSort (fun a b => decide (a ≤ b))
        if component.isRecursive then
          let others := rest.dropWhile Component.isRecursive
          have : others.length ≤ rest.length := (List.dropWhile_sublist _).length_le
          let found ← names.mapM fun name => do
            let child := follow path name
            let inside ← disk.isDirectory child
            let here ←
              match h : others with
              | [] => pure (if inside then [child] else [])
              | next :: more =>
                have : more.length < others.length := by simp [h]
                if next.accepts name then expandWithin directoriesOnly depth more child
                else pure []
            let below ←
              match depth with
              | 0 => pure []
              | depth + 1 =>
                if inside then expandWithin directoriesOnly depth (component :: others) child
                else pure []
            return here ++ below
          return found.flatten
        else
          let special :=
            if component.startsWithPoint then ["..", "."].filter component.accepts else []
          let aside ← special.mapM fun name =>
            expandWithin directoriesOnly depth rest (join path name)
          let found ← (names.filter component.accepts).mapM fun name =>
            expandWithin directoriesOnly depth rest (follow path name)
          return aside.flatten ++ found.flatten
      else return []
termination_by (depth, components.length)

/-- The paths of a pattern, in order. -/
def search (pattern : Pattern) : m (List String) :=
  expandWithin disk pattern.directoriesOnly disk.depth pattern.components
    (if pattern.absolute then "/" else ".")

end Glob

end HotkeyScript
