import HotkeyScript.Grammar.LegacyText
import HotkeyScript.Tree.Stmt

/-!
# Commands

A command is a name and its parameters up to the end of the logical line, as in `MsgBox, Hello`. A
hash in front makes it a directive. The token behind the name tells a command from an expression
that starts with a name. The parameters are literal text, except those of a few commands, which take
expressions.
-/

namespace HotkeyScript.Grammar

variable (stream : Stream)

/-- The commands whose parameters are expressions. -/
def expressionCommands : List String :=
  ["return", "throw", "global", "local", "static"]

/-- The position behind a comma that carries on the line, or the position itself. -/
def skipComma (position : Nat) : Nat :=
  if stream.continuesWith position "," then position + 1 else position

/-- The text behind a name shows that the name starts an expression even if it stands alone: an
assignment, a comparison with `=`, or a step. -/
def startsAssignment (text : String) : Bool :=
  text == "=" || text == "++" || text == "--" ||
    Operator.binary? text == some Operator.assignment

/-- The name at a position starts a command: its line ends behind it or goes on with a comma; or
there is a gap behind it, and what follows is neither an assignment nor an operator with gaps on
both sides. -/
def startsCommand (position : Nat) : Bool :=
  match stream.token? (position + 1) with
  | none => true
  | some next =>
    if !stream.continues (position + 1) || next.text == "," then true
    else if stream.touchesPrevious (position + 1) then false
    else if startsAssignment next.text then false
    else
      !((next.text == "?" || (Operator.binary? next.text).isSome) &&
        !stream.touchesPrevious (position + 2))

/-- A hash that makes the name behind it a directive stands at a position. -/
def isHash (position : Nat) : Bool :=
  stream.reads position "#" && (stream.token? (position + 1)).any (·.kind = .word) &&
    stream.touchesPrevious (position + 1)

/-- The arguments of a command that takes expressions, up to the end of the line. -/
def expressionArguments (position : Nat) : Checked (Read (List (Option Expr))) := do
  let (arguments, next) ←
    if stream.continues position then list stream (expression stream) position
    else .ok ([], position)
  if stream.continues next then .error (stream.errorAt next) else .ok (arguments, next)

/-- A command. -/
def command (position : Nat) : Checked (Option (Read Stmt)) :=
  let hash := isHash stream position
  let head := if hash then position + 1 else position
  match stream.token? head with
  | none => absent
  | some name =>
    if name.kind = .word && !Keyword.isClause name && startsCommand stream head then do
      let start := skipComma stream (head + 1)
      let (arguments, next) ←
        if expressionCommands.any (name.is ·) then expressionArguments stream start
        else params stream (fun _ => false) start
      found
        (.command (identifier name) hash arguments (stream.spanTo (stream.spanAt position) next))
        next
    else absent

end HotkeyScript.Grammar
