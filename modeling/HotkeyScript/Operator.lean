import HotkeyScript.Text.Caseless

/-!
# Operators

The precedence of the operators, from 0 for the comma to 17 for `new`; a higher number binds
tighter. The conditional operator and the concatenation of adjacent operands have a place in the
same order.

## Main definitions

* `Operator.leading?`, `Operator.binary?` — the precedence of a text as an operator before its
  operand, and between two operands.
* `Floor` — how tightly an operator has to bind to be taken into an expression.
-/

namespace HotkeyScript

namespace Operator

/-- The operators that stand before their operand. -/
def leadingTable : List (String × Nat) :=
  [("not", 5), ("-", 14), ("!", 14), ("~", 14), ("&", 14), ("*", 14), ("++", 16), ("--", 16),
   ("new", 17)]

/-- The operators that stand between two operands. -/
def binaryTable : List (String × Nat) :=
  [(",", 0),
   (":=", 1), ("+=", 1), ("-=", 1), ("*=", 1), ("/=", 1), ("//=", 1), (".=", 1), ("|=", 1),
   ("&=", 1), ("^=", 1), (">>=", 1), ("<<=", 1),
   ("or", 3), ("||", 3),
   ("and", 4), ("&&", 4),
   ("=", 6), ("==", 6), ("<>", 6), ("!=", 6),
   (">", 7), ("<", 7), (">=", 7), ("<=", 7),
   ("~=", 8),
   (".", 9),
   ("&", 10), ("^", 10), ("|", 10),
   ("<<", 11), (">>", 11),
   ("+", 12), ("-", 12),
   ("*", 13), ("/", 13), ("//", 13),
   ("**", 15)]

/-- The precedence that a table gives to a text, without regard to case. -/
def precedence? (table : List (String × Nat)) (text : String) : Option Nat :=
  (table.find? fun entry => Text.sameText entry.1 text).map (·.2)

/-- The precedence of a text as an operator before its operand. -/
def leading? (text : String) : Option Nat :=
  precedence? leadingTable text

/-- The precedence of a text as an operator between two operands. -/
def binary? (text : String) : Option Nat :=
  precedence? binaryTable text

/-- The precedence of the comma. -/
def comma : Nat := 0

/-- The precedence of assignments, which group to the right. -/
def assignment : Nat := 1

/-- The precedence of the conditional operator. -/
def conditional : Nat := 2

/-- The precedence of the concatenation of adjacent operands, which is that of the point. -/
def concatenation : Nat := 9

end Operator

/-- The operators that may extend an expression. -/
inductive Floor where
  /-- Every operator. -/
  | any
  /-- The operators that bind tighter than the given precedence. -/
  | above (precedence : Nat)
  /-- No operator. -/
  | closed
  deriving DecidableEq, Repr, Inhabited

namespace Floor

/-- An operator of the given precedence may extend the expression. -/
def admits : Floor → Nat → Bool
  | .any, _ => true
  | .above floor, precedence => floor < precedence
  | .closed, _ => false

/-- An operator between two operands may extend the expression. Behind an assignment another one
is admitted too, so assignments group to the right. -/
def admitsBinary (floor : Floor) (precedence : Nat) : Bool :=
  floor.admits precedence ||
    (precedence == Operator.assignment && floor == .above Operator.assignment)

@[simp] theorem admits_any (precedence : Nat) : Floor.any.admits precedence = true := rfl

@[simp] theorem admits_above (floor precedence : Nat) :
    (Floor.above floor).admits precedence = decide (floor < precedence) := rfl

@[simp] theorem admits_closed (precedence : Nat) : Floor.closed.admits precedence = false := rfl

end Floor

end HotkeyScript
