import HotkeyScript.Cli

/-!
# The program

Runs the command line on the real disk and prints its output.
-/

namespace HotkeyScript

/-- An answer of the disk, or a default if it gives none. -/
def answerOr {α : Type} (fallback : α) (question : IO α) : IO α := do
  try question catch _ => return fallback

/-- The real disk, below the current directory. The depth is more than any path can have. -/
def realDisk : IO (Disk IO) := do
  let here ← IO.currentDir
  return {
    isFile := fun path => answerOr false do
      if path.isEmpty then return false
      match (← (here / path).metadata).type with
      | .file => return true
      | _ => return false
    isDirectory := fun path => answerOr false do
      if path.isEmpty then return false
      (here / path).isDir
    names := fun path => answerOr [] do
      return (← (here / path).readDir).toList.map (·.fileName)
    read := fun path => do
      try return .ok (← IO.FS.readBinFile (here / path)).toList
      catch error => return .error error.toString
    depth := 4096 }

end HotkeyScript

/-- Lints the files that the arguments name. -/
def main (arguments : List String) : IO UInt32 := do
  let output ← HotkeyScript.Cli.run (← HotkeyScript.realDisk) arguments
  IO.print output.stdout
  output.errors.forM IO.eprintln
  return output.exitCode.toUInt32
