import HotkeyScript.Tree.Node

/-!
# Lint rules

A rule looks at the nodes of one kind and may have something to say about each of them.

## Main definitions

* `Diagnostic` — a remark about a stretch of the source.
* `Rule` — a rule, and the two rules `Rule.emptyFile` and `Rule.noLegacyAssign`.
* `Rule.all` — all rules.
-/

namespace HotkeyScript

/-- A remark about a stretch of the source, under the code of a rule. -/
structure Diagnostic where
  code : String
  message : String
  span : Span
  deriving DecidableEq, Repr, Inhabited

/-- A rule for the nodes of one kind. -/
structure Rule where
  code : String
  kind : NodeKind
  /-- What the rule has to say about a node. -/
  check : Node → Option String

namespace Rule

/-- A script without statements. -/
def emptyFile : Rule where
  code := "empty-file"
  kind := .script
  check
    | .script script => if script.body.isEmpty then some "empty file" else none
    | _ => none

/-- An older assignment. -/
def noLegacyAssign : Rule where
  code := "no-legacy-assign"
  kind := .legacyAssignment
  check
    | .expr (.legacyAssignment ..) => some "avoid legacy assignment"
    | _ => none

/-- All rules, in the order in which they look at a node. -/
def all : List Rule :=
  [emptyFile, noLegacyAssign]

/-- The remark of a rule about a node. -/
def diagnose (rule : Rule) (node : Node) : Option Diagnostic :=
  (rule.check node).map fun message => { code := rule.code, message, span := node.span }

end Rule

end HotkeyScript
