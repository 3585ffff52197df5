import HotkeyScript.Tree.Expr

/-!
# Expressions without their places

Two texts may write the same expression at different places. `Expr.mapSpan` changes every span in an
expression and nothing else; expressions are the same up to their places if they agree once all
spans are the same.

## Main definitions

* `Expr.mapSpan` — the expression with changed spans.
* `Expr.bare` — the expression with empty spans.
-/

namespace HotkeyScript

mutual

/-- The expression with each span in it changed. -/
def Expr.mapSpan (f : Span → Span) : Expr → Expr
  | .identifier name => .identifier { name with span := f name.span }
  | .literal value => .literal { value with span := f value.span }
  | .legacyLiteral text => .legacyLiteral { text with span := f text.span }
  | .unary op leading argument span => .unary op leading (argument.mapSpan f) (f span)
  | .binary op left right span => .binary op (left.mapSpan f) (right.mapSpan f) (f span)
  | .concat left right span => .concat (left.mapSpan f) (right.mapSpan f) (f span)
  | .conditional test consequent alternate span =>
    .conditional (test.mapSpan f) (consequent.mapSpan f) (alternate.mapSpan f) (f span)
  | .call callee arguments span => .call (callee.mapSpan f) (mapSlots f arguments) (f span)
  | .member owner name computed span =>
    .member (owner.mapSpan f) (name.mapSpan f) computed (f span)
  | .group inner span => .group (inner.mapSpan f) (f span)
  | .array elements span => .array (mapSlots f elements) (f span)
  | .object properties span => .object (mapProperties f properties) (f span)
  | .variadic argument span => .variadic (argument.mapSpan f) (f span)
  | .legacyAssignment left right span =>
    .legacyAssignment { left with span := f left.span }
      (right.map fun text => { text with span := f text.span }) (f span)
  | .legacyComparison op left right span =>
    .legacyComparison op { left with span := f left.span } { right with span := f right.span }
      (f span)

/-- The places of a list with each span changed. -/
def mapSlots (f : Span → Span) : List (Option Expr) → List (Option Expr)
  | [] => []
  | none :: slots => none :: mapSlots f slots
  | some e :: slots => some (e.mapSpan f) :: mapSlots f slots

/-- The properties of an object with each span changed. -/
def mapProperties (f : Span → Span) : List Property → List Property
  | [] => []
  | .mk key value span :: properties =>
    .mk (key.mapSpan f) (value.mapSpan f) (f span) :: mapProperties f properties

end

/-- The expression without its places. -/
def Expr.bare (e : Expr) : Expr :=
  e.mapSpan fun _ => {}

namespace Expr

@[simp] theorem bare_identifier (name : Identifier) :
    (identifier name).bare = .identifier { name with span := {} } := by
  simp [bare, mapSpan]

@[simp] theorem bare_group (inner : Expr) (span : Span) :
    (group inner span).bare = .group inner.bare {} := by
  simp [bare, mapSpan]

@[simp] theorem bare_binary (op : String) (left right : Expr) (span : Span) :
    (binary op left right span).bare = .binary op left.bare right.bare {} := by
  simp [bare, mapSpan]

@[simp] theorem bare_conditional (test consequent alternate : Expr) (span : Span) :
    (conditional test consequent alternate span).bare =
      .conditional test.bare consequent.bare alternate.bare {} := by
  simp [bare, mapSpan]

end Expr

end HotkeyScript
