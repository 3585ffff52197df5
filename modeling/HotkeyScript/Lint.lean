import HotkeyScript.Lint.Rule
import HotkeyScript.Parse

/-!
# Linting

Runs the rules that are not disabled over a source. A source that does not parse yields one remark
about the syntax error, or the error itself if that is asked for.

## Main definitions

* `LintOptions` — a source and what is asked for.
* `lint` — the remarks about a source, ordered by where they start and then by where they end.
-/

namespace HotkeyScript

/-- A source to lint and how to lint it. -/
structure LintOptions where
  source : Source
  /-- A syntax error is handed back and not reported as a remark. -/
  throwSyntaxError : Bool := false
  /-- The codes of the rules that do not run. -/
  disabled : List String := []
  deriving DecidableEq, Repr, Inhabited

namespace LintOptions

/-- Turns off the rule with the given code. -/
def disable (options : LintOptions) (code : String) : LintOptions :=
  { options with disabled := options.disabled ++ [code] }

/-- The rule with the given code runs. -/
def isEnabled (options : LintOptions) (code : String) : Bool :=
  !options.disabled.contains code

end LintOptions

/-- The code of the remark about a syntax error. -/
def syntaxErrorCode : String := "syntax-error"

/-- The remark about a syntax error. -/
def SyntaxError.diagnostic (error : SyntaxError) : Diagnostic :=
  { code := syntaxErrorCode, message := error.cause.message, span := error.span }

/-- One remark comes before another in a report, or at the same place. -/
def Diagnostic.precedes (a b : Diagnostic) : Bool :=
  a.span.start < b.span.start || (a.span.start == b.span.start && a.span.stop ≤ b.span.stop)

/-- The remarks of rules about a node: those of the rules for its kind. -/
def diagnosticsAt (rules : List Rule) (node : Node) : List Diagnostic :=
  (rules.filter (·.kind = node.kind)).filterMap (·.diagnose node)

/-- The remarks of rules about a script, in the order of the walk over it. -/
def diagnostics (rules : List Rule) (script : Script) : List Diagnostic :=
  (Node.script script).walk.flatMap (diagnosticsAt rules)

/-- The remarks about a source. -/
def lint (options : LintOptions) : Except SyntaxError (List Diagnostic) :=
  match parse options.source with
  | .ok script =>
    let rules := Rule.all.filter (options.isEnabled ·.code)
    .ok ((diagnostics rules script).mergeSort Diagnostic.precedes)
  | .error error =>
    if options.throwSyntaxError then .error error
    else if options.isEnabled syntaxErrorCode then .ok [error.diagnostic]
    else .ok []

end HotkeyScript
