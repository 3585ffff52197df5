import HotkeyScript.Token

/-!
# Expressions

The expressions of a script. An argument list may have empty places, which are `none`.

Two of the forms come from the older syntax, in which the right side is text and not an expression:
the assignment `name = text` and the comparison `name in text`.

## Main definitions

* `Identifier`, `Literal`, `LegacyLiteral` — names, values and stretches of literal text.
* `Expr`, `Property` — expressions, and the pairs of a key and a value in an object.
* `Expr.span`, `Property.span` — where they stand.
-/

namespace HotkeyScript

/-- A name. -/
structure Identifier where
  name : String
  span : Span
  deriving DecidableEq, Repr, Inhabited

/-- The value of a literal. -/
inductive Value where
  | number (value : Float)
  | boolean (value : Bool)
  | string (value : String)
  deriving DecidableEq, Repr, Inhabited

/-- The text of a string value. -/
def Value.string? : Value → Option String
  | .string text => some text
  | _ => none

/-- A number, a boolean or a quoted string, with its text in the source. -/
structure Literal where
  value : Value
  raw : String
  span : Span
  deriving DecidableEq, Repr, Inhabited

/-- A stretch of literal text: what it stands for, and how the source writes it. -/
structure LegacyLiteral where
  value : String
  raw : String
  span : Span
  deriving DecidableEq, Repr, Inhabited

mutual

/-- An expression. -/
inductive Expr where
  | identifier (name : Identifier)
  | literal (value : Literal)
  | legacyLiteral (text : LegacyLiteral)
  /-- An operator before its operand if `leading`, and behind it otherwise. -/
  | unary (operator : String) (leading : Bool) (argument : Expr) (span : Span)
  | binary (operator : String) (left right : Expr) (span : Span)
  /-- Two operands side by side, which are concatenated. -/
  | concat (left right : Expr) (span : Span)
  | conditional (test consequent alternate : Expr) (span : Span)
  | call (callee : Expr) (arguments : List (Option Expr)) (span : Span)
  /-- A member in brackets if `computed`, and behind a point otherwise. -/
  | member (object property : Expr) (computed : Bool) (span : Span)
  | group (inner : Expr) (span : Span)
  | array (elements : List (Option Expr)) (span : Span)
  | object (properties : List Property) (span : Span)
  /-- An element whose value is spread over the rest of the list. -/
  | variadic (argument : Expr) (span : Span)
  /-- The older assignment of literal text. -/
  | legacyAssignment (left : Identifier) (right : Option LegacyLiteral) (span : Span)
  /-- The older comparison with literal text. -/
  | legacyComparison (operator : String) (left : Identifier) (right : LegacyLiteral) (span : Span)

/-- A key and its value in an object. -/
inductive Property where
  | mk (key value : Expr) (span : Span)

end

instance : Inhabited Expr := ⟨.identifier default⟩

instance : Inhabited Property := ⟨.mk default default default⟩

/-- Where an expression stands. -/
def Expr.span : Expr → Span
  | .identifier name => name.span
  | .literal value => value.span
  | .legacyLiteral text => text.span
  | .unary _ _ _ span => span
  | .binary _ _ _ span => span
  | .concat _ _ span => span
  | .conditional _ _ _ span => span
  | .call _ _ span => span
  | .member _ _ _ span => span
  | .group _ span => span
  | .array _ span => span
  | .object _ span => span
  | .variadic _ span => span
  | .legacyAssignment _ _ span => span
  | .legacyComparison _ _ _ span => span

namespace Property

/-- The key of a property. -/
def key : Property → Expr
  | .mk key _ _ => key

/-- The value of a property. -/
def value : Property → Expr
  | .mk _ value _ => value

/-- Where a property stands. -/
def span : Property → Span
  | .mk _ _ span => span

end Property

end HotkeyScript
