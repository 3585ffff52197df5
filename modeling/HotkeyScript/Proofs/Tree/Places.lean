import HotkeyScript.Grammar.Command
import HotkeyScript.Tree.Stmt

/-!
# Where the kinds of expressions may stand

All expressions have one type, but some kinds of them belong to one place only: literal text to the
arguments of commands and loops, an older assignment to a statement of its own, an older comparison
to a branch, and an element that is spread over the rest of a list to a list. Which kind may stand
where is written down here as a grammar of trees.

## Main definitions

* `Expr.Place` — the places of expressions.
* `Expr.Fits`, `Stmt.Fits` — every part of the tree stands at a place for its kind.
-/

namespace HotkeyScript

/-- The places at which an expression may stand. -/
inductive Expr.Place where
  /-- Alone, as a statement. -/
  | statement
  /-- The condition of a branch. -/
  | test
  /-- An argument where text is taken literally. -/
  | argument
  /-- An element of a list of expressions. -/
  | element
  /-- Any other place. -/
  | operand
  deriving DecidableEq, Repr

mutual

/-- The expression may stand at the place, and its parts at theirs. -/
def Expr.Fits (place : Expr.Place) : Expr → Prop
  | .identifier _ | .literal _ => True
  | .legacyLiteral _ => place = .argument
  | .unary _ _ argument _ => argument.Fits .operand
  | .binary _ left right _ => left.Fits .operand ∧ right.Fits .operand
  | .concat left right _ => left.Fits .operand ∧ right.Fits .operand
  | .conditional test consequent alternate _ =>
    test.Fits .operand ∧ consequent.Fits .operand ∧ alternate.Fits .operand
  | .call callee arguments _ => callee.Fits .operand ∧ SlotsFit .element arguments
  | .member owner property computed _ =>
    owner.Fits .operand ∧ property.Fits .operand ∧
      (computed = false → ∃ name, property = .identifier name)
  | .group inner _ => inner.Fits .operand
  | .array elements _ => SlotsFit .element elements
  | .object properties _ => PropertiesFit properties
  | .variadic argument _ => place = .element ∧ argument.Fits .operand
  | .legacyAssignment .. => place = .statement
  | .legacyComparison .. => place = .test

/-- The places of a list that are not empty hold expressions that fit. -/
def SlotsFit (place : Expr.Place) : List (Option Expr) → Prop
  | [] => True
  | none :: slots => SlotsFit place slots
  | some e :: slots => e.Fits place ∧ SlotsFit place slots

/-- The keys and the values of an object fit. -/
def PropertiesFit : List Property → Prop
  | [] => True
  | .mk key value _ :: properties =>
    key.Fits .operand ∧ value.Fits .operand ∧ PropertiesFit properties

end

/-- The arguments of the command are expressions. -/
def takesExpressions (name : Identifier) : Bool :=
  Grammar.expressionCommands.any (Text.sameText name.name ·)

/-- One of the options lets a hotstring run a statement. -/
def runsStatement (options : List String) : Bool :=
  options.any (Text.sameText · "x")

mutual

/-- All expressions in the statement stand at places for their kinds, and a hotstring has what its
options ask for. -/
def Stmt.Fits : Stmt → Prop
  | .expression e => e.Fits .statement
  | .command name _ arguments _ =>
    SlotsFit (if takesExpressions name then .element else .argument) arguments
  | .block braces => braces.Fits
  | .branch test consequent alternate _ => test.Fits .test ∧ consequent.Fits ∧ ActionFits alternate
  | .whileLoop test body _ => test.Fits .operand ∧ body.Fits
  | .loop _ arguments body stop _ =>
    SlotsFit .argument arguments ∧ body.Fits ∧ ∀ test ∈ stop, test.Fits .operand
  | .forLoop _ _ iterable body stop _ =>
    iterable.Fits .operand ∧ body.Fits ∧ ∀ test ∈ stop, test.Fits .operand
  | .attempt body handler finalizer _ => body.Fits ∧ HandlerFits handler ∧ ActionFits finalizer
  | .hotkey _ _ _ action _ => ActionFits action
  | .hotstring options _ replacement action _ =>
    (replacement.isSome = true → runsStatement options = false) ∧
      (action.isSome = true → runsStatement options = true) ∧ ActionFits action
  | .label .. => True
  | .function _ params body _ => SlotsFit .element params ∧ body.Fits

/-- The statements of the block fit. -/
def Block.Fits : Block → Prop
  | .mk body _ => BodyFits body

/-- The statement of the clause fits. -/
def CatchClause.Fits : CatchClause → Prop
  | .mk _ body _ => body.Fits

/-- The statements fit. -/
def BodyFits : List Stmt → Prop
  | [] => True
  | s :: body => s.Fits ∧ BodyFits body

/-- The statement fits, if there is one. -/
def ActionFits : Option Stmt → Prop
  | none => True
  | some s => s.Fits

/-- The clause fits, if there is one. -/
def HandlerFits : Option CatchClause → Prop
  | none => True
  | some handler => handler.Fits

end

/-! ## Lists -/

variable {place : Expr.Place}

theorem slotsFit_cons {slot : Option Expr} {slots : List (Option Expr)} :
    SlotsFit place (slot :: slots) ↔ (∀ e ∈ slot, e.Fits place) ∧ SlotsFit place slots := by
  cases slot <;> simp [SlotsFit]

theorem bodyFits_iff {body : List Stmt} : BodyFits body ↔ ∀ s ∈ body, s.Fits := by
  induction body with
  | nil => simp [BodyFits]
  | cons s body ih => simp [BodyFits, ih]

/-! ## Expressions that fit everywhere -/

/-- What may be an operand may stand anywhere. -/
theorem Expr.Fits.anywhere {e : Expr} (h : e.Fits .operand) : e.Fits place := by
  cases e <;> simp_all [Expr.Fits]

end HotkeyScript
