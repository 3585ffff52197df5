import HotkeyScript.Text.Caseless

/-!
# Tokens

A token is a piece of one line of a script: its kind, its text, its place, and whether it is the
first token of its physical line.

## Main definitions

* `Span` — a stretch of the source, with the line and the column at which it starts.
* `Token` — a token; `Token.is` compares its text without regard to case, and `Token.touches` says
  that the next token follows without a gap.
-/

namespace HotkeyScript

/-- A stretch of the source. The bounds count UTF-8 bytes; the line and the column of the start are
counted from zero, and the column counts characters. -/
structure Span where
  start : Nat := 0
  stop : Nat := 0
  line : Nat := 0
  column : Nat := 0
  deriving DecidableEq, Repr, Inhabited

/-- The span with the same start that ends at `stop`. -/
def Span.to (span : Span) (stop : Nat) : Span :=
  { span with stop }

@[simp] theorem Span.to_start (span : Span) (stop : Nat) : (span.to stop).start = span.start := rfl

@[simp] theorem Span.to_stop (span : Span) (stop : Nat) : (span.to stop).stop = stop := rfl

@[simp] theorem Span.to_line (span : Span) (stop : Nat) : (span.to stop).line = span.line := rfl

@[simp] theorem Span.to_column (span : Span) (stop : Nat) :
    (span.to stop).column = span.column := rfl

@[simp] theorem Span.to_to (span : Span) (a b : Nat) : (span.to a).to b = span.to b := rfl

namespace Token

/-- The kinds of tokens. -/
inductive Kind where
  /-- A decimal or hexadecimal number. -/
  | number
  /-- The words `true` and `false`, in any case. -/
  | boolean
  /-- A run of ASCII letters, digits and underscores. -/
  | word
  /-- A comment. -/
  | comment
  /-- An operator, a word that is an operator, or any other character. -/
  | symbol
  /-- A quoted string, with its quotes. -/
  | string
  deriving DecidableEq, Repr, Inhabited

end Token

/-- A token with its place in the source. -/
structure Token where
  kind : Token.Kind
  text : String
  span : Span
  /-- No other token stands before it on its physical line. -/
  opensLine : Bool
  deriving DecidableEq, Repr, Inhabited

namespace Token

/-- The token reads `text`, without regard to case. -/
def is (token : Token) (text : String) : Bool :=
  Text.sameText token.text text

/-- The token `next` starts where this one ends. -/
def touches (token next : Token) : Bool :=
  token.span.stop == next.span.start

end Token

end HotkeyScript
