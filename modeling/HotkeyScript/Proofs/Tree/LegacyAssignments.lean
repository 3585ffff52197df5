import HotkeyScript.Proofs.Grammar.WrittenStatement

/-!
# The older assignments of a script

The older assignments that stand anywhere in a script, found by recursion on its trees. A walk over
the nodes of the script meets exactly these, in the same order (`Node.flatMap_visit`), and in a
script that is parsed from a source they stand one behind the other
(`Grammar.WrittenInOrder.assignments`).

## Main definitions

* `Expr.legacyAssignments`, `Stmt.legacyAssignments`, `Script.legacyAssignments` — the spans of the
  older assignments in a tree, from left to right.
* `Stream.CoveredInOrder` — spans whose tokens follow each other.
-/

namespace HotkeyScript

mutual

/-- The spans of the older assignments in an expression. -/
def Expr.legacyAssignments : Expr → List Span
  | .identifier _ | .literal _ | .legacyLiteral _ | .legacyComparison .. => []
  | .unary _ _ argument _ => argument.legacyAssignments
  | .binary _ left right _ => left.legacyAssignments ++ right.legacyAssignments
  | .concat left right _ => left.legacyAssignments ++ right.legacyAssignments
  | .conditional test consequent alternate _ =>
    test.legacyAssignments ++ consequent.legacyAssignments ++ alternate.legacyAssignments
  | .call callee arguments _ => callee.legacyAssignments ++ assignmentsOfSlots arguments
  | .member owner name _ _ => owner.legacyAssignments ++ name.legacyAssignments
  | .group inner _ => inner.legacyAssignments
  | .array elements _ => assignmentsOfSlots elements
  | .object properties _ => assignmentsOfProperties properties
  | .variadic argument _ => argument.legacyAssignments
  | .legacyAssignment _ _ span => [span]

/-- The spans of the older assignments in the places of a list. -/
def assignmentsOfSlots : List (Option Expr) → List Span
  | [] => []
  | none :: slots => assignmentsOfSlots slots
  | some e :: slots => e.legacyAssignments ++ assignmentsOfSlots slots

/-- The spans of the older assignments in the properties of an object. -/
def assignmentsOfProperties : List Property → List Span
  | [] => []
  | .mk key value _ :: properties =>
    key.legacyAssignments ++ value.legacyAssignments ++ assignmentsOfProperties properties

end

/-- The spans of the older assignments in an expression that may be missing. -/
def assignmentsOfExpr? : Option Expr → List Span
  | none => []
  | some e => e.legacyAssignments

mutual

/-- The spans of the older assignments in a statement. -/
def Stmt.legacyAssignments : Stmt → List Span
  | .expression e => e.legacyAssignments
  | .command _ _ arguments _ => assignmentsOfSlots arguments
  | .block braces => braces.legacyAssignments
  | .branch test consequent alternate _ =>
    test.legacyAssignments ++ consequent.legacyAssignments ++ assignmentsOfStmt? alternate
  | .whileLoop test body _ => test.legacyAssignments ++ body.legacyAssignments
  | .loop _ arguments body stop _ =>
    assignmentsOfSlots arguments ++ body.legacyAssignments ++ assignmentsOfExpr? stop
  | .forLoop _ _ iterable body stop _ =>
    iterable.legacyAssignments ++ body.legacyAssignments ++ assignmentsOfExpr? stop
  | .attempt body handler finalizer _ =>
    body.legacyAssignments ++ assignmentsOfCatch? handler ++ assignmentsOfStmt? finalizer
  | .hotkey _ _ _ action _ => assignmentsOfStmt? action
  | .hotstring _ _ _ action _ => assignmentsOfStmt? action
  | .label .. => []
  | .function _ params body _ => assignmentsOfSlots params ++ body.legacyAssignments

/-- The spans of the older assignments in a block. -/
def Block.legacyAssignments : Block → List Span
  | .mk body _ => assignmentsOfBody body

/-- The spans of the older assignments in a catch clause. -/
def CatchClause.legacyAssignments : CatchClause → List Span
  | .mk _ body _ => body.legacyAssignments

/-- The spans of the older assignments in a statement that may be missing. -/
def assignmentsOfStmt? : Option Stmt → List Span
  | none => []
  | some s => s.legacyAssignments

/-- The spans of the older assignments in a catch clause that may be missing. -/
def assignmentsOfCatch? : Option CatchClause → List Span
  | none => []
  | some clause => clause.legacyAssignments

/-- The spans of the older assignments in statements. -/
def assignmentsOfBody : List Stmt → List Span
  | [] => []
  | s :: body => s.legacyAssignments ++ assignmentsOfBody body

end

/-- The spans of the older assignments in a script. -/
def Script.legacyAssignments (script : Script) : List Span :=
  assignmentsOfBody script.body

/-! ## The view by nodes -/

namespace Node

/-- The spans of the older assignments at and below a node. -/
def legacyAssignments : Node → List Span
  | .script whole => whole.legacyAssignments
  | .stmt s => s.legacyAssignments
  | .expr e => e.legacyAssignments
  | .block braces => braces.legacyAssignments
  | .catchClause clause => clause.legacyAssignments
  | .property pair => pair.key.legacyAssignments ++ pair.value.legacyAssignments
  | .key _ | .identifier _ | .legacyLiteral _ => []

/-- The span of a node that is itself an older assignment. -/
def assignment? : Node → Option Span
  | .expr (.legacyAssignment _ _ span) => some span
  | _ => none

@[simp] theorem legacyAssignments_block (braces : Block) :
    (Node.block braces).legacyAssignments = braces.legacyAssignments := rfl

@[simp] theorem legacyAssignments_identifier (name : Identifier) :
    (Node.identifier name).legacyAssignments = [] := rfl

@[simp] theorem legacyAssignments_legacyLiteral (text : LegacyLiteral) :
    (Node.legacyLiteral text).legacyAssignments = [] := rfl

@[simp] theorem legacyAssignments_key (key : Key) : (Node.key key).legacyAssignments = [] := rfl

@[simp] theorem legacyAssignments_ofExpr (e : Expr) :
    (ofExpr e).legacyAssignments = e.legacyAssignments := by
  cases e <;> simp [ofExpr, legacyAssignments, Expr.legacyAssignments]

@[simp] theorem legacyAssignments_ofStmt (s : Stmt) :
    (ofStmt s).legacyAssignments = s.legacyAssignments := by
  cases s with
  | expression e => simp [ofStmt, Stmt.legacyAssignments]
  | _ => simp [ofStmt, legacyAssignments, Stmt.legacyAssignments]

@[simp] theorem flatMap_ofSlots (slots : List (Option Expr)) :
    (ofSlots slots).flatMap legacyAssignments = assignmentsOfSlots slots := by
  induction slots with
  | nil => rfl
  | cons slot slots ih =>
    cases slot with
    | none => simpa [ofSlots, assignmentsOfSlots] using ih
    | some e => simpa [ofSlots, assignmentsOfSlots] using ih

@[simp] theorem flatMap_properties (properties : List Property) :
    (properties.map Node.property).flatMap legacyAssignments =
      assignmentsOfProperties properties := by
  induction properties with
  | nil => rfl
  | cons pair properties ih =>
    cases pair
    simp_all [assignmentsOfProperties, legacyAssignments, Property.key, Property.value]

@[simp] theorem flatMap_body (body : List Stmt) :
    (body.map ofStmt).flatMap legacyAssignments = assignmentsOfBody body := by
  induction body with
  | nil => rfl
  | cons s body ih => simp_all [assignmentsOfBody]

@[simp] theorem flatMap_expr? (e : Option Expr) :
    (e.map ofExpr).toList.flatMap legacyAssignments = assignmentsOfExpr? e := by
  cases e <;> simp [assignmentsOfExpr?]

@[simp] theorem flatMap_stmt? (s : Option Stmt) :
    (s.map ofStmt).toList.flatMap legacyAssignments = assignmentsOfStmt? s := by
  cases s <;> simp [assignmentsOfStmt?]

@[simp] theorem flatMap_catch? (clause : Option CatchClause) :
    (clause.map Node.catchClause).toList.flatMap legacyAssignments =
      assignmentsOfCatch? clause := by
  cases clause <;> simp [assignmentsOfCatch?, legacyAssignments]

/-- Names, keys and texts hold no assignment. -/
theorem flatMap_leaf? {α : Type} (view : α → Node) (h : ∀ a, (view a).legacyAssignments = [])
    (part : Option α) : (part.map view).toList.flatMap legacyAssignments = [] := by
  cases part <;> simp [h]

theorem legacyAssignments_expr (e : Expr) :
    e.legacyAssignments =
      (Node.expr e).assignment?.toList ++ (exprChildren e).flatMap legacyAssignments := by
  cases e with
  | legacyAssignment left right span =>
    have hright := flatMap_leaf? Node.legacyLiteral (fun _ => rfl) right
    simp [Expr.legacyAssignments, assignment?, exprChildren, hright]
  | _ => simp [Expr.legacyAssignments, assignment?, exprChildren]

theorem legacyAssignments_stmt (s : Stmt) :
    s.legacyAssignments = (stmtChildren s).flatMap legacyAssignments := by
  cases s with
  | block braces =>
    cases braces
    simp [Stmt.legacyAssignments, stmtChildren, Block.legacyAssignments, Block.body]
  | forLoop name value iterable body stop span =>
    have hvalue := flatMap_leaf? Node.identifier (fun _ => rfl) value
    simp [Stmt.legacyAssignments, stmtChildren, hvalue]
  | hotkey modifiers first second action span =>
    have hfirst := flatMap_leaf? Node.key (fun _ => rfl) first
    simp [Stmt.legacyAssignments, stmtChildren, hfirst]
  | hotstring options trigger replacement action span =>
    have hreplacement := flatMap_leaf? Node.legacyLiteral (fun _ => rfl) replacement
    simp [Stmt.legacyAssignments, stmtChildren, hreplacement]
  | _ => simp [Stmt.legacyAssignments, stmtChildren]

/-- The older assignments at and below a node are the node itself, if it is one, and those at and
below its children. -/
theorem legacyAssignments_eq (node : Node) :
    node.legacyAssignments =
      node.assignment?.toList ++ node.children.flatMap legacyAssignments := by
  cases node with
  | script whole => simp [legacyAssignments, assignment?, children, Script.legacyAssignments]
  | stmt s => exact legacyAssignments_stmt s
  | expr e => exact legacyAssignments_expr e
  | block braces =>
    cases braces
    simp [legacyAssignments, assignment?, children, Block.legacyAssignments, Block.body]
  | catchClause clause =>
    obtain ⟨param, body, span⟩ := clause
    have hparam := flatMap_leaf? Node.identifier (fun _ => rfl) param
    simp only [assignment?, children, CatchClause.param, CatchClause.body, List.flatMap_append,
      hparam, Option.toList_none, List.nil_append, List.flatMap_cons, List.flatMap_nil,
      List.append_nil, legacyAssignments_ofStmt]
    rw [legacyAssignments, CatchClause.legacyAssignments]
  | property pair =>
    simp only [assignment?, children, Option.toList_none, List.nil_append, List.flatMap_cons,
      List.flatMap_nil, List.append_nil, legacyAssignments_ofExpr]
    rw [legacyAssignments]
  | key _ | identifier _ | legacyLiteral _ => rfl

/-- The older assignments of a script are those of its statements. -/
theorem legacyAssignments_script (whole : Script) :
    whole.legacyAssignments = (Node.script whole).children.flatMap legacyAssignments :=
  legacyAssignments_eq (.script whole)

/-- A walk meets the older assignments at and below the nodes that it starts from, each once and
from left to right. -/
theorem flatMap_visit (stack : List Node) :
    (visit stack).flatMap (·.assignment?.toList) = stack.flatMap legacyAssignments := by
  fun_induction visit stack with
  | case1 => rfl
  | case2 node stack ih =>
    rw [List.flatMap_cons, ih, List.flatMap_append, List.flatMap_cons, legacyAssignments_eq node,
      List.append_assoc]

/-- The script is met first in a walk over it. -/
theorem walk_script (whole : Script) :
    (Node.script whole).walk = .script whole :: visit (Node.script whole).children := by
  rw [walk, visit, List.append_nil]

end Node

/-! ## The tokens of the assignments -/

/-- The spans are written by runs of tokens between `p` and `q`, one behind the other. -/
inductive Stream.CoveredInOrder (stream : Stream) : List Span → Nat → Nat → Prop
  | nil {p q : Nat} : p ≤ q → CoveredInOrder stream [] p q
  | cons {span : Span} {spans : List Span} {p a b q : Nat} : p ≤ a → stream.Covers span a b →
      CoveredInOrder stream spans b q → CoveredInOrder stream (span :: spans) p q

namespace Stream

variable {stream : Stream} {spans spans' : List Span} {p m q : Nat}

theorem CoveredInOrder.le (h : stream.CoveredInOrder spans p q) : p ≤ q := by
  induction h with
  | nil hle => exact hle
  | cons hle hcovers _ ih =>
    have := hcovers.lt
    omega

theorem CoveredInOrder.mono {p' : Nat} (h : stream.CoveredInOrder spans p q) (hp : p' ≤ p) :
    stream.CoveredInOrder spans p' q := by
  cases h with
  | nil hle => exact .nil (by omega)
  | cons hle hcovers hrest => exact .cons (by omega) hcovers hrest

theorem CoveredInOrder.append (h : stream.CoveredInOrder spans p m)
    (h' : stream.CoveredInOrder spans' m q) : stream.CoveredInOrder (spans ++ spans') p q := by
  induction h with
  | nil hle => exact h'.mono hle
  | cons hle hcovers _ ih => exact .cons hle hcovers (ih h')

theorem CoveredInOrder.of_mem {span : Span} (h : stream.CoveredInOrder spans p q)
    (hmem : span ∈ spans) : ∃ a b, p ≤ a ∧ b ≤ q ∧ stream.Covers span a b := by
  induction h with
  | nil hle => cases hmem
  | @cons first spans p a b q hle hcovers hrest ih =>
    have hlt := hcovers.lt
    rcases List.mem_cons.mp hmem with rfl | hmem
    · exact ⟨a, b, hle, hrest.le, hcovers⟩
    · obtain ⟨a', b', ha, hb, hspan⟩ := ih hmem
      exact ⟨a', b', by omega, hb, hspan⟩

end Stream

namespace Grammar

variable {stream : Stream} {Q : Node → Nat → Nat → Prop} {p q : Nat}

/-- An older assignment has no other one below it. -/
theorem flatMap_children_of_assignment? {node : Node} {span : Span}
    (h : node.assignment? = some span) :
    span = node.span ∧ node.children.flatMap Node.legacyAssignments = [] := by
  unfold Node.assignment? at h
  split at h
  · next left right span =>
    cases h
    have hright := Node.flatMap_leaf? Node.legacyLiteral (fun _ => rfl) right
    exact ⟨rfl, by simp [Node.children, Node.exprChildren, hright]⟩
  · cases h

/-- The older assignments at and below nodes one behind the other stand one behind the other. -/
theorem WrittenInOrder.assignments {nodes : List Node} {p q : Nat}
    (h : WrittenInOrder stream Q nodes p q) :
    stream.CoveredInOrder (nodes.flatMap Node.legacyAssignments) p q := by
  cases h with
  | nil hle => exact .nil hle
  | @cons node nodes _ a b _ hle hnode hrest =>
    have hsmaller := Node.total_children_lt node
    have hbelow := hnode.children.assignments
    rw [List.flatMap_cons, Node.legacyAssignments_eq]
    refine .append (.mono ?_ hle) hrest.assignments
    cases hassignment : node.assignment? with
    | none => exact hbelow
    | some span =>
      obtain ⟨rfl, hnone⟩ := flatMap_children_of_assignment? hassignment
      rw [hnone]
      exact .cons (Nat.le_refl a) hnode.covers (.nil (Nat.le_refl b))
termination_by Node.total nodes
decreasing_by
  all_goals simp only [Node.total_cons]
  all_goals omega

end Grammar

end HotkeyScript
