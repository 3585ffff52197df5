import HotkeyScript.Token

/-!
# Syntax errors

A script that does not follow the grammar is refused at the first token that no rule accepts, or at
its end if it stops inside a construct.
-/

namespace HotkeyScript

/-- Why a script is refused. -/
inductive SyntaxError.Cause where
  /-- No rule accepts the token with this text. -/
  | unexpectedToken (text : String)
  /-- The script ends inside a construct. -/
  | unexpectedEnd
  deriving DecidableEq, Repr, Inhabited

/-- The text that names a cause. -/
def SyntaxError.Cause.message : SyntaxError.Cause → String
  | .unexpectedToken text => "Unexpected token: " ++ text
  | .unexpectedEnd => "Unexpected EOF"

/-- A syntax error, at the token that is refused or behind the last token. -/
structure SyntaxError where
  cause : SyntaxError.Cause
  span : Span
  deriving DecidableEq, Repr, Inhabited

namespace SyntaxError

/-- The error with its place, counted from one. -/
def message (error : SyntaxError) : String :=
  error.cause.message ++ " at line " ++ toString (error.span.line + 1) ++ ", column " ++
    toString (error.span.column + 1)

/-- The error that a token is refused. -/
def atToken (token : Token) : SyntaxError :=
  { cause := .unexpectedToken token.text, span := token.span }

/-- The error that a script ends behind its last token. -/
def atEnd : Option Token → SyntaxError
  | none => { cause := .unexpectedEnd, span := {} }
  | some last =>
    { cause := .unexpectedEnd
      span :=
        { start := last.span.stop
          stop := last.span.stop
          line := last.span.line
          column := last.span.column + last.text.length } }

end SyntaxError

end HotkeyScript
