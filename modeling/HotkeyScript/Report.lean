import HotkeyScript.Lint.Rule

/-!
# Reports

The text of the remarks about files, and the totals over all files.

## Main definitions

* `Diagnostic.format`, `formatFile` — the lines of a report.
* `Summary` — running totals, with the closing line `Summary.message`.
-/

namespace HotkeyScript

/-- The line of a remark, with its place counted from one. -/
def Diagnostic.format (diagnostic : Diagnostic) : String :=
  toString (diagnostic.span.line + 1) ++ ":" ++ toString (diagnostic.span.column + 1) ++ " " ++
    diagnostic.message ++ "  (" ++ diagnostic.code ++ ")"

/-- The path of a file and a line for each remark about it. -/
def formatFile (path : String) (diagnostics : List Diagnostic) : String :=
  String.join ((path :: diagnostics.map Diagnostic.format).map (· ++ "\n"))

/-- Totals over the files that have been linted. -/
structure Summary where
  files : Nat := 0
  filesWithErrors : Nat := 0
  errors : Nat := 0
  deriving DecidableEq, Repr, Inhabited

namespace Summary

/-- The totals after one more file with the given remarks. -/
def add (summary : Summary) (diagnostics : List Diagnostic) : Summary :=
  { files := summary.files + 1
    filesWithErrors := summary.filesWithErrors + if diagnostics.isEmpty then 0 else 1
    errors := summary.errors + diagnostics.length }

/-- The closing line of a report. -/
def message (summary : Summary) : String :=
  if summary.files = 0 then
    "please specify a file"
  else if 0 < summary.errors then
    "found " ++ toString summary.errors ++ " error(s) in " ++ toString summary.filesWithErrors ++
      " file(s)"
  else
    "processed " ++ toString summary.files ++ " file(s), no error found"

/-- There was no file, or there was something to remark. -/
def failed (summary : Summary) : Bool :=
  summary.files = 0 || 0 < summary.errors

end Summary

end HotkeyScript
