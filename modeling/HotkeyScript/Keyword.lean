import HotkeyScript.Token

/-!
# Keywords

The words of the statements that branch, loop and handle exceptions. Some of them only ever carry on
a statement, and so never start one and are never a name in an expression.
-/

namespace HotkeyScript

/-- A keyword. -/
inductive Keyword where
  | ifWord
  | elseWord
  | whileWord
  | loopWord
  | untilWord
  | forWord
  | inWord
  | tryWord
  | catchWord
  | finallyWord
  deriving DecidableEq, Repr, Inhabited

namespace Keyword

/-- How the keywords are written. -/
def table : List (String × Keyword) :=
  [("if", .ifWord), ("else", .elseWord), ("while", .whileWord), ("loop", .loopWord),
   ("until", .untilWord), ("for", .forWord), ("in", .inWord), ("try", .tryWord),
   ("catch", .catchWord), ("finally", .finallyWord)]

/-- The keyword that a token is. -/
def ofToken? (token : Token) : Option Keyword :=
  if token.kind = .word then (table.find? fun entry => token.is entry.1).map (·.2) else none

/-- The token is a keyword that only carries on a statement. -/
def isClause (token : Token) : Bool :=
  match ofToken? token with
  | some .elseWord | some .untilWord | some .catchWord | some .finallyWord => true
  | _ => false

end Keyword

end HotkeyScript
