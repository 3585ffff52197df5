import HotkeyScript.Operator
import HotkeyScript.Tree.Expr

/-!
# Trees that precedence allows

Where operators follow each other without parentheses, their precedence decides how they group. The
trees that respect it are known by their parts alone: an operand never holds, at its open side, an
operator that would have taken the place of the one around it.

## Main definitions

* `Expr.LeftOf`, `Expr.RightOf` — the operands that an operator may have on either side.
* `Expr.Closed` — the expressions that end with no operand of an operator.
* `Expr.level?`, `Expr.edge?` — the precedence at which an expression is taken apart, and the one
  above which the operand at its end was read.
* `Expr.Grouped` — the operands of an expression respect precedence.
-/

namespace HotkeyScript

namespace Operator

theorem mem_of_precedence? {table : List (String × Nat)} {text : String} {precedence : Nat}
    (h : precedence? table text = some precedence) : precedence ∈ table.map (·.2) := by
  obtain ⟨entry, hentry, rfl⟩ := Option.map_eq_some_iff.mp h
  exact List.mem_map_of_mem (List.mem_of_find?_eq_some hentry)

/-- No operator binds before its operand as tightly as another does between two. -/
theorem leading?_ne_binary? {text text' : String} {u precedence : Nat} (h : leading? text = some u)
    (h' : binary? text' = some precedence) : u ≠ precedence := by
  have hdisjoint : ∀ u ∈ leadingTable.map (·.2), u ∉ binaryTable.map (·.2) := by decide
  rintro rfl
  exact hdisjoint u (mem_of_precedence? h) (mem_of_precedence? h')

/-- Operators before their operand bind tighter than a condition, and not as tightly as a
concatenation. -/
theorem leading?_bounds {text : String} {u : Nat} (h : leading? text = some u) :
    conditional < u ∧ u ≠ concatenation := by
  have hall : ∀ u ∈ leadingTable.map (·.2), conditional < u ∧ u ≠ concatenation := by decide
  exact hall u (mem_of_precedence? h)

/-- No operator has the precedence of a condition. -/
theorem binary?_ne_conditional {text : String} {precedence : Nat}
    (h : binary? text = some precedence) : precedence ≠ conditional := by
  have hall : ∀ precedence ∈ binaryTable.map (·.2), precedence ≠ conditional := by decide
  exact hall precedence (mem_of_precedence? h)

end Operator

namespace Floor

theorem admitsBinary_above {floor precedence : Nat} :
    (Floor.above floor).admitsBinary precedence = true ↔
      floor < precedence ∨ precedence = 1 ∧ floor = 1 := by
  simp [admitsBinary, Operator.assignment]

/-- What a floor does not admit a higher one does not admit either. -/
theorem admitsBinary_eq_false_of_le {floor floor' precedence : Nat}
    (h : (Floor.above floor).admitsBinary precedence = false) (hle : floor ≤ floor') :
    (Floor.above floor').admitsBinary precedence = false := by
  rw [← Bool.not_eq_true, admitsBinary_above] at h ⊢
  omega

theorem admitsBinary_closed {precedence : Nat} : Floor.closed.admitsBinary precedence = false := by
  simp [admitsBinary]

theorem admitsBinary_conditional (floor : Floor) :
    floor.admitsBinary Operator.conditional = floor.admits Operator.conditional := by
  simp [admitsBinary, Operator.conditional, Operator.assignment]

end Floor

namespace Expr

open Operator (assignment comma concatenation)

/-- The expression may stand to the left of an operator of the given precedence. -/
def LeftOf (precedence : Nat) : Expr → Prop
  | .binary op _ _ _ => ∃ inner, Operator.binary? op = some inner ∧
      (precedence < inner ∨ inner = precedence ∧ precedence ≠ assignment)
  | .conditional .. => precedence = comma
  | .concat .. => precedence ≤ concatenation
  | .unary op true _ _ => ∃ inner, Operator.leading? op = some inner ∧ precedence < inner
  | _ => True

/-- The expression may stand to the right of an operator of the given precedence. -/
def RightOf (precedence : Nat) : Expr → Prop
  | .binary op _ _ _ => ∃ inner, Operator.binary? op = some inner ∧
      (precedence < inner ∨ inner = precedence ∧ precedence = assignment)
  | .conditional .. => precedence ≤ assignment
  | .concat .. => precedence < concatenation
  | _ => True

/-- The expression does not end with the operand of an operator. -/
def Closed : Expr → Prop
  | .binary .. | .conditional .. | .concat .. | .unary _ true _ _ => False
  | _ => True

theorem Closed.leftOf {e : Expr} (h : e.Closed) (precedence : Nat) : e.LeftOf precedence := by
  cases e with
  | unary op leading argument span =>
    cases leading with
    | true => exact h.elim
    | false => trivial
  | binary _ _ _ _ => exact h.elim
  | conditional _ _ _ _ => exact h.elim
  | concat _ _ _ => exact h.elim
  | _ => trivial

/-- What may stand to the left of a condition binds tighter than the condition. -/
theorem LeftOf.rightOf_conditional {e : Expr} (h : e.LeftOf Operator.conditional) :
    e.RightOf Operator.conditional := by
  cases e with
  | binary op left right span =>
    obtain ⟨inner, hinner, hle⟩ := h
    have hne := Operator.binary?_ne_conditional hinner
    exact ⟨inner, hinner, .inl (by omega)⟩
  | conditional _ _ _ _ => cases h
  | concat _ _ _ =>
    show Operator.conditional < concatenation
    decide
  | _ => trivial

/-- The operands of the expression respect precedence. The test of a condition binds tighter than
the condition. -/
def Grouped : Expr → Prop
  | .binary op left right _ => ∃ precedence, Operator.binary? op = some precedence ∧
      left.LeftOf precedence ∧ right.RightOf precedence
  | .concat left right _ => left.LeftOf concatenation ∧ right.RightOf concatenation
  | .conditional test consequent alternate _ =>
    test.RightOf Operator.conditional ∧ consequent.RightOf comma ∧ alternate.RightOf assignment
  | .unary op true argument _ => ∃ precedence, Operator.leading? op = some precedence ∧
      argument.RightOf precedence
  | .unary _ false argument _ => argument.Closed
  | .call callee _ _ => callee.Closed
  | .member owner _ _ _ => owner.Closed
  | _ => True

/-! ## Levels and edges -/

/-- The precedence at which the expression takes its place among operators. Members, calls and
operators at one side of their operand have none. -/
def level? : Expr → Option Nat
  | .binary op _ _ _ => Operator.binary? op
  | .conditional .. => some Operator.conditional
  | .concat .. => some concatenation
  | _ => none

/-- The precedence above which the operand at the end of the expression was read. -/
def edge? : Expr → Option Nat
  | .binary op _ _ _ => Operator.binary? op
  | .conditional .. => some assignment
  | .concat .. => some concatenation
  | .unary op true _ _ => Operator.leading? op
  | _ => none

variable {e : Expr} {floor : Floor} {precedence level edge : Nat}

/-- What ends above some precedence may stand to the left of the operators that it does not
admit. -/
theorem leftOf_of_edge (hedge : e.edge? = some edge)
    (hadmits : (Floor.above edge).admitsBinary precedence = false)
    (hleading : ∀ op inner, Operator.leading? op = some inner → inner ≠ precedence) :
    e.LeftOf precedence := by
  rw [← Bool.not_eq_true, Floor.admitsBinary_above] at hadmits
  cases e with
  | binary op left right span =>
    refine ⟨edge, hedge, ?_⟩
    simp only [assignment]
    omega
  | conditional _ _ _ _ =>
    have hone : 1 = edge := Option.some.inj hedge
    show precedence = 0
    omega
  | concat _ _ _ =>
    have hnine : concatenation = edge := Option.some.inj hedge
    show precedence ≤ concatenation
    omega
  | unary op leading argument span =>
    cases leading with
    | true =>
      have := hleading op edge hedge
      exact ⟨edge, hedge, by omega⟩
    | false => trivial
  | _ => trivial

/-- What may stand to the left of an operator does not admit the operator at its end. -/
theorem LeftOf.not_admits (h : e.LeftOf precedence) (hedge : e.edge? = some edge) :
    (Floor.above edge).admitsBinary precedence = false := by
  rw [← Bool.not_eq_true, Floor.admitsBinary_above]
  cases e with
  | binary op left right span =>
    obtain ⟨inner, hinner, hle⟩ := h
    have heq : inner = edge := Option.some.inj (hinner.symm.trans hedge)
    simp only [assignment] at hle
    omega
  | conditional _ _ _ _ =>
    have hzero : precedence = 0 := h
    have hone : 1 = edge := Option.some.inj hedge
    omega
  | concat _ _ _ =>
    have hle : precedence ≤ 9 := h
    have hnine : 9 = edge := Option.some.inj hedge
    omega
  | unary op leading argument span =>
    cases leading with
    | true =>
      obtain ⟨inner, hinner, hlt⟩ := h
      have heq : inner = edge := Option.some.inj (hinner.symm.trans hedge)
      omega
    | false => cases hedge
  | _ => cases hedge

/-- What may stand to the right of an operator is read above it. -/
theorem RightOf.admits (h : e.RightOf precedence) (hlevel : e.level? = some level) :
    (Floor.above precedence).admitsBinary level = true := by
  rw [Floor.admitsBinary_above]
  cases e with
  | binary op left right span =>
    obtain ⟨inner, hinner, hle⟩ := h
    have heq : inner = level := Option.some.inj (hinner.symm.trans hlevel)
    simp only [assignment] at hle
    omega
  | conditional _ _ _ _ =>
    have hle : precedence ≤ 1 := h
    have htwo : 2 = level := Option.some.inj hlevel
    omega
  | concat _ _ _ =>
    have hlt : precedence < 9 := h
    have hnine : 9 = level := Option.some.inj hlevel
    omega
  | _ => cases hlevel

/-- A floor that admits an operator admits what may stand to its right. -/
theorem RightOf.admits_of_admits (h : e.RightOf precedence) (hlevel : e.level? = some level)
    (hadmits : floor.admitsBinary precedence = true) : floor.admitsBinary level = true := by
  have hright := h.admits hlevel
  cases floor with
  | any => rfl
  | above bound =>
    rw [Floor.admitsBinary_above] at hadmits hright ⊢
    omega
  | closed =>
    rw [Floor.admitsBinary_closed] at hadmits
    cases hadmits

/-- A floor that admits an operator admits what may stand to its left. -/
theorem LeftOf.admits_of_admits (h : e.LeftOf precedence) (hlevel : e.level? = some level)
    (hadmits : floor.admitsBinary precedence = true) : floor.admitsBinary level = true := by
  have hle : precedence < level ∨ level = precedence ∧ precedence ≠ 1 := by
    cases e with
    | binary op left right span =>
      obtain ⟨inner, hinner, hle⟩ := h
      have heq : inner = level := Option.some.inj (hinner.symm.trans hlevel)
      exact heq ▸ hle
    | conditional _ _ _ _ =>
      have hzero : precedence = 0 := h
      have htwo : 2 = level := Option.some.inj hlevel
      omega
    | concat _ _ _ =>
      have hle : precedence ≤ 9 := h
      have hnine : 9 = level := Option.some.inj hlevel
      omega
    | _ => cases hlevel
  cases floor with
  | any => rfl
  | above bound =>
    rw [Floor.admitsBinary_above] at hadmits ⊢
    omega
  | closed =>
    rw [Floor.admitsBinary_closed] at hadmits
    cases hadmits

end Expr

end HotkeyScript
