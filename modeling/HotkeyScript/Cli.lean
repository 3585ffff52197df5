import HotkeyScript.Cli.Arguments
import HotkeyScript.Glob.Search
import HotkeyScript.Lint
import HotkeyScript.Report
import HotkeyScript.Text.Quoted
import HotkeyScript.Text.Utf8

/-!
# The command line

Lints the files that the arguments name and reports what there is to remark. An argument that is no
file is a pattern for files. The report holds a block for each file with remarks, with an empty line
between two blocks, and a closing line.

Finding the files asks the disk; what is printed is a function of what was found.

## Main definitions

* `Cli.Output` — what the program prints and how it exits.
* `Cli.Progress` — what has been printed and counted so far.
* `Cli.report` — the output for the files that the arguments led to.
* `Cli.resolve` — the files that an argument leads to.
* `Cli.run` — the output of the program.
-/

namespace HotkeyScript.Cli

/-- What the program prints and how it exits. -/
structure Output where
  stdout : String
  /-- The lines for standard error. -/
  errors : List String
  exitCode : Nat
  deriving DecidableEq, Repr, Inhabited

/-- A file that an argument leads to: its path, and its bytes or why they cannot be read. -/
structure FoundFile where
  path : String
  contents : Except String (List UInt8)

/-- What an argument leads to. -/
inductive Found where
  | files (files : List FoundFile)
  /-- The argument is no file and no right pattern. -/
  | badPattern (pattern : String) (error : Glob.PatternError)

/-- The remarks about a file with the given bytes. -/
def lintBytes (disabled : List String) (bytes : List UInt8) : List Diagnostic :=
  match lint { source := Text.Utf8.decode bytes, disabled } with
  | .ok diagnostics => diagnostics
  | .error _ => []

/-- What has been printed and counted so far. -/
structure Progress where
  stdout : String := ""
  /-- The lines for standard error. -/
  errors : List String := []
  summary : Summary := {}
  deriving DecidableEq, Repr, Inhabited

namespace Progress

/-- Goes on with an error line. -/
def fail (progress : Progress) (error : String) : Progress :=
  { progress with errors := progress.errors ++ ["Error: " ++ error] }

/-- Goes on with a file that has been linted. If there are remarks, its block is printed, behind an
empty line unless it is the first block. -/
def linted (progress : Progress) (path : String) (diagnostics : List Diagnostic) : Progress :=
  let separator := if 0 < progress.summary.filesWithErrors then "\n" else ""
  let block := if diagnostics.isEmpty then "" else separator ++ formatFile path diagnostics
  { progress with
    stdout := progress.stdout ++ block
    summary := progress.summary.add diagnostics }

/-- Goes on with a file. -/
def file (disabled : List String) (progress : Progress) (file : FoundFile) : Progress :=
  match file.contents with
  | .ok bytes => progress.linted file.path (lintBytes disabled bytes)
  | .error reason => progress.fail (file.path ++ ": " ++ reason)

/-- Goes on with what an argument leads to. -/
def argument (disabled : List String) (progress : Progress) : Found → Progress
  | .files files => files.foldl (Progress.file disabled) progress
  | .badPattern pattern error =>
    progress.fail ("invalid pattern " ++ Text.quoted pattern ++ ": " ++ error.message)

/-- The output at the end, with the closing line. -/
def output (progress : Progress) : Output :=
  { stdout := progress.stdout ++ progress.summary.message ++ "\n"
    errors := progress.errors
    exitCode := if progress.errors.isEmpty && !progress.summary.failed then 0 else 1 }

end Progress

/-- The output for the files that the arguments led to. -/
def report (disabled : List String) (found : List Found) : Output :=
  (found.foldl (Progress.argument disabled) {}).output

/-- The name and the version of the program. -/
def versionLine : String := "ahklint 0.1.0\n"

/-- The help text. -/
def helpText : String :=
  "Lint AutoHotkey scripts\n\nUsage: ahklint [OPTIONS] [FILE]...\n\nArguments:\n" ++
  "  [FILE]...  Files to lint. An argument that is not a file is expanded as a glob pattern\n\n" ++
  "Options:\n      --disable <RULE>  Rule code to turn off. May be repeated\n" ++
  "  -h, --help            Print help\n  -V, --version         Print version\n"

section Asking

variable {m : Type → Type} [Monad m] (disk : Disk m)

/-- The files at paths. -/
def readFiles (paths : List String) : m (List FoundFile) :=
  paths.mapM fun path => do return { path, contents := ← disk.read path }

/-- The files that an argument leads to: itself if it is a file, and the files of the pattern
otherwise. -/
def resolve (argument : String) : m Found := do
  if ← disk.isFile argument then
    return .files (← readFiles disk [argument])
  else
    match Glob.compile argument.toList with
    | .error error => return .badPattern argument error
    | .ok pattern =>
      let paths ← (← Glob.search disk pattern).filterM disk.isFile
      return .files (← readFiles disk paths)

/-- The output of the program for its arguments. -/
def run (arguments : List String) : m Output := do
  match Request.ofArguments arguments with
  | .version => return { stdout := versionLine, errors := [], exitCode := 0 }
  | .help => return { stdout := helpText, errors := [], exitCode := 0 }
  | .misuse => return { stdout := "", errors := [], exitCode := 2 }
  | .lint files disabled => return report disabled (← files.mapM (resolve disk))

end Asking

end HotkeyScript.Cli
