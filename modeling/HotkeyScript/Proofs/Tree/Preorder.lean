import HotkeyScript.Tree.Node
import Mathlib.Data.List.Basic

/-!
# A walk over a script

A walk keeps the nodes that it still has to meet on a stack. It meets them in the order of the
recursion: a node, and then all that is below its children, from left to right
(`Node.visit_eq_flatMap`).

What a walk over a script meets is said without its children as well. The parts of a tree are listed
by recursion on the syntax, field by field, and a walk meets exactly this list: no field is left out
or taken twice. A part is seen in one way only, wherever it stands.

## Main definitions

* `Node.preorder` — a node and all that is below it, by recursion.
* `Node.isCanonical` — the node shows its part in the one way in which it is seen.
* `Expr.parts`, `Stmt.parts`, `Script.parts` — the parts that are stored in a tree, each once.
-/

namespace HotkeyScript

/-! ## The order of the recursion -/

namespace Node

theorem size_lt_of_mem_children {node child : Node} (h : child ∈ node.children) :
    child.size < node.size := by
  have hle : ∀ {nodes : List Node}, child ∈ nodes → child.size ≤ total nodes := by
    intro nodes hmem
    induction nodes with
    | nil => cases hmem
    | cons first nodes ih =>
      rw [total_cons]
      rcases List.mem_cons.mp hmem with rfl | hmem
      · omega
      · have := ih hmem
        omega
  have := hle h
  have := total_children_lt node
  omega

/-- A node, and then all that is at and below its children, from left to right. -/
def preorder (node : Node) : List Node :=
  node :: node.children.attach.flatMap fun child => preorder child.1
termination_by node.size
decreasing_by exact size_lt_of_mem_children child.2

theorem preorder_eq (node : Node) : node.preorder = node :: node.children.flatMap preorder := by
  rw [preorder]
  simp only [List.flatMap, List.map_attach_eq_pmap, List.pmap_eq_map]

/-- The nodes of a stack are met one after the other, each with all that is below it. -/
theorem visit_eq_flatMap (stack : List Node) : visit stack = stack.flatMap preorder := by
  fun_induction visit stack with
  | case1 => rfl
  | case2 node stack ih =>
    rw [ih, List.flatMap_append, List.flatMap_cons, preorder_eq node, List.cons_append]

/-- Whatever is true of a node and stays true from a node to its children is true of all that a walk
from the node meets. -/
theorem forall_mem_preorder {P : Node → Prop} (hstep : ∀ node child, P node →
    child ∈ node.children → P child) {root : Node} (hroot : P root) :
    ∀ node ∈ root.preorder, P node := by
  intro node hnode
  rw [preorder_eq, List.mem_cons, List.mem_flatMap] at hnode
  rcases hnode with rfl | ⟨child, hchild, hnode⟩
  · exact hroot
  · exact forall_mem_preorder hstep (hstep root child hroot hchild) node hnode
termination_by root.size
decreasing_by exact size_lt_of_mem_children hchild

/-! ## The view of a part -/

/-- The node shows its part in the one way in which it is seen: no expression statement and no block
as a statement, no name and no literal text as an expression. -/
def isCanonical : Node → Bool
  | .stmt (.expression _) | .stmt (.block _) => false
  | .expr (.identifier _) | .expr (.legacyLiteral _) => false
  | _ => true

@[simp] theorem isCanonical_ofExpr (e : Expr) : (ofExpr e).isCanonical = true := by
  cases e <;> rfl

@[simp] theorem isCanonical_ofStmt (s : Stmt) : (ofStmt s).isCanonical = true := by
  cases s with
  | expression e => exact isCanonical_ofExpr e
  | _ => rfl

theorem isCanonical_of_mem_ofSlots {slots : List (Option Expr)} {node : Node}
    (h : node ∈ ofSlots slots) : node.isCanonical = true := by
  obtain ⟨slot, -, hslot⟩ := List.mem_filterMap.mp h
  obtain ⟨e, -, rfl⟩ := Option.map_eq_some_iff.mp hslot
  exact isCanonical_ofExpr e

/-- The children of a node show their parts in the one way, however the node shows its own. -/
theorem isCanonical_of_mem_children {node child : Node} (h : child ∈ node.children) :
    child.isCanonical = true := by
  have hslots := fun slots => @isCanonical_of_mem_ofSlots slots child
  cases node with
  | expr e =>
    cases e <;> simp [children, exprChildren] at h <;> grind [isCanonical, isCanonical_ofExpr]
  | stmt s =>
    cases s <;> simp [children, stmtChildren] at h <;>
      grind [isCanonical, isCanonical_ofExpr, isCanonical_ofStmt]
  | _ => simp [children] at h <;> grind [isCanonical, isCanonical_ofExpr, isCanonical_ofStmt]

end Node

/-! ## The parts of a tree -/

mutual

/-- The parts that are stored in an expression, with the expression first. -/
def Expr.parts : Expr → List Node
  | .identifier name => [.identifier name]
  | .legacyLiteral text => [.legacyLiteral text]
  | e@(.literal _) => [.expr e]
  | e@(.unary _ _ argument _) => .expr e :: argument.parts
  | e@(.binary _ left right _) => .expr e :: (left.parts ++ right.parts)
  | e@(.concat left right _) => .expr e :: (left.parts ++ right.parts)
  | e@(.conditional test consequent alternate _) =>
    .expr e :: (test.parts ++ consequent.parts ++ alternate.parts)
  | e@(.call callee arguments _) => .expr e :: (callee.parts ++ partsOfSlots arguments)
  | e@(.member owner name _ _) => .expr e :: (owner.parts ++ name.parts)
  | e@(.group inner _) => .expr e :: inner.parts
  | e@(.array elements _) => .expr e :: partsOfSlots elements
  | e@(.object properties _) => .expr e :: partsOfProperties properties
  | e@(.variadic argument _) => .expr e :: argument.parts
  | e@(.legacyAssignment left right _) =>
    .expr e :: .identifier left :: (right.map .legacyLiteral).toList
  | e@(.legacyComparison _ left right _) => [.expr e, .identifier left, .legacyLiteral right]

/-- The parts that are stored in the places of a list. -/
def partsOfSlots : List (Option Expr) → List Node
  | [] => []
  | none :: slots => partsOfSlots slots
  | some e :: slots => e.parts ++ partsOfSlots slots

/-- The parts that are stored in the properties of an object, with each property itself. -/
def partsOfProperties : List Property → List Node
  | [] => []
  | .mk key value span :: properties =>
    .property (.mk key value span) :: (key.parts ++ value.parts ++ partsOfProperties properties)

end

/-- The parts that are stored in an expression that may be missing. -/
def partsOfExpr? : Option Expr → List Node
  | none => []
  | some e => e.parts

mutual

/-- The parts that are stored in a statement, with the statement first. An expression statement is
its expression. -/
def Stmt.parts : Stmt → List Node
  | .expression e => e.parts
  | .block braces => braces.parts
  | s@(.command name _ arguments _) => .stmt s :: .identifier name :: partsOfSlots arguments
  | s@(.branch test consequent alternate _) =>
    .stmt s :: (test.parts ++ consequent.parts ++ partsOfStmt? alternate)
  | s@(.whileLoop test body _) => .stmt s :: (test.parts ++ body.parts)
  | s@(.loop _ arguments body stop _) =>
    .stmt s :: (partsOfSlots arguments ++ body.parts ++ partsOfExpr? stop)
  | s@(.forLoop key value iterable body stop _) =>
    .stmt s :: .identifier key ::
      ((value.map .identifier).toList ++ iterable.parts ++ body.parts ++ partsOfExpr? stop)
  | s@(.attempt body handler finalizer _) =>
    .stmt s :: (body.parts ++ partsOfCatch? handler ++ partsOfStmt? finalizer)
  | s@(.hotkey _ first key action _) =>
    .stmt s :: ((first.map .key).toList ++ .key key :: partsOfStmt? action)
  | s@(.hotstring _ trigger replacement action _) =>
    .stmt s :: .legacyLiteral trigger ::
      ((replacement.map .legacyLiteral).toList ++ partsOfStmt? action)
  | s@(.label _ _) => [.stmt s]
  | s@(.function name params body _) =>
    .stmt s :: .identifier name :: (partsOfSlots params ++ body.parts)

/-- The parts that are stored in a block, with the block first. -/
def Block.parts : Block → List Node
  | .mk body span => .block (.mk body span) :: partsOfBody body

/-- The parts that are stored in a catch clause, with the clause first. -/
def CatchClause.parts : CatchClause → List Node
  | .mk param body span =>
    .catchClause (.mk param body span) :: ((param.map .identifier).toList ++ body.parts)

/-- The parts that are stored in a statement that may be missing. -/
def partsOfStmt? : Option Stmt → List Node
  | none => []
  | some s => s.parts

/-- The parts that are stored in a catch clause that may be missing. -/
def partsOfCatch? : Option CatchClause → List Node
  | none => []
  | some clause => clause.parts

/-- The parts that are stored in statements. -/
def partsOfBody : List Stmt → List Node
  | [] => []
  | s :: body => s.parts ++ partsOfBody body

end

/-- The parts that are stored in a script. -/
def Script.parts (script : Script) : List Node :=
  partsOfBody script.body

namespace Node

/-- The parts that are stored in the part that a node shows, with the node first. -/
def parts : Node → List Node
  | .script whole => .script whole :: whole.parts
  | .stmt s => s.parts
  | .expr e => e.parts
  | .block braces => braces.parts
  | .catchClause clause => clause.parts
  | .property pair => .property pair :: (pair.key.parts ++ pair.value.parts)
  | .key k => [.key k]
  | .identifier name => [.identifier name]
  | .legacyLiteral text => [.legacyLiteral text]

@[simp] theorem parts_script (whole : Script) :
    (Node.script whole).parts = .script whole :: whole.parts := rfl

@[simp] theorem parts_block (braces : Block) : (Node.block braces).parts = braces.parts := rfl

@[simp] theorem parts_catchClause (clause : CatchClause) :
    (Node.catchClause clause).parts = clause.parts := rfl

@[simp] theorem parts_property (pair : Property) :
    (Node.property pair).parts = .property pair :: (pair.key.parts ++ pair.value.parts) := rfl

@[simp] theorem parts_key (k : Key) : (Node.key k).parts = [.key k] := rfl

@[simp] theorem parts_identifier (name : Identifier) :
    (Node.identifier name).parts = [.identifier name] := rfl

@[simp] theorem parts_legacyLiteral (text : LegacyLiteral) :
    (Node.legacyLiteral text).parts = [.legacyLiteral text] := rfl

@[simp] theorem parts_ofExpr (e : Expr) : (ofExpr e).parts = e.parts := by
  cases e <;> simp [ofExpr, parts, Expr.parts]

@[simp] theorem parts_ofStmt (s : Stmt) : (ofStmt s).parts = s.parts := by
  cases s with
  | expression e => simp [ofStmt, Stmt.parts]
  | _ => simp [ofStmt, parts, Stmt.parts]

@[simp] theorem flatMap_parts_ofSlots (slots : List (Option Expr)) :
    (ofSlots slots).flatMap parts = partsOfSlots slots := by
  induction slots with
  | nil => rfl
  | cons slot slots ih =>
    cases slot with
    | none => simpa [ofSlots, partsOfSlots] using ih
    | some e => simpa [ofSlots, partsOfSlots] using ih

@[simp] theorem flatMap_parts_properties (properties : List Property) :
    (properties.map Node.property).flatMap parts = partsOfProperties properties := by
  induction properties with
  | nil => rfl
  | cons pair properties ih =>
    cases pair
    simp_all [partsOfProperties, Property.key, Property.value]

@[simp] theorem flatMap_parts_body (body : List Stmt) :
    (body.map ofStmt).flatMap parts = partsOfBody body := by
  induction body with
  | nil => rfl
  | cons s body ih => simp_all [partsOfBody]

@[simp] theorem flatMap_parts_expr? (e : Option Expr) :
    (e.map ofExpr).toList.flatMap parts = partsOfExpr? e := by
  cases e <;> simp [partsOfExpr?]

@[simp] theorem flatMap_parts_stmt? (s : Option Stmt) :
    (s.map ofStmt).toList.flatMap parts = partsOfStmt? s := by
  cases s <;> simp [partsOfStmt?]

@[simp] theorem flatMap_parts_catch? (clause : Option CatchClause) :
    (clause.map Node.catchClause).toList.flatMap parts = partsOfCatch? clause := by
  cases clause <;> simp [partsOfCatch?]

/-- Names, keys and texts hold nothing but themselves. -/
theorem flatMap_parts_leaf? {α : Type} (view : α → Node) (h : ∀ a, (view a).parts = [view a])
    (part : Option α) : (part.map view).toList.flatMap parts = (part.map view).toList := by
  cases part <;> simp [h]

theorem parts_expr {e : Expr} (h : (Node.expr e).isCanonical = true) :
    e.parts = .expr e :: (exprChildren e).flatMap parts := by
  cases e with
  | identifier | legacyLiteral => cases h
  | legacyAssignment left right span =>
    have hright := flatMap_parts_leaf? Node.legacyLiteral (fun _ => rfl) right
    simp [Expr.parts, exprChildren, hright]
  | _ => simp [Expr.parts, exprChildren]

theorem parts_stmt {s : Stmt} (h : (Node.stmt s).isCanonical = true) :
    s.parts = .stmt s :: (stmtChildren s).flatMap parts := by
  cases s with
  | expression | block => cases h
  | forLoop key value iterable body stop span =>
    have hvalue := flatMap_parts_leaf? Node.identifier (fun _ => rfl) value
    simp [Stmt.parts, stmtChildren, hvalue]
  | hotkey modifiers first key action span =>
    have hfirst := flatMap_parts_leaf? Node.key (fun _ => rfl) first
    simp [Stmt.parts, stmtChildren, hfirst]
  | hotstring options trigger replacement action span =>
    have hreplacement := flatMap_parts_leaf? Node.legacyLiteral (fun _ => rfl) replacement
    simp [Stmt.parts, stmtChildren, hreplacement]
  | _ => simp [Stmt.parts, stmtChildren]

/-- The parts of a node are the node itself and the parts of its children. -/
theorem parts_eq {node : Node} (h : node.isCanonical = true) :
    node.parts = node :: node.children.flatMap parts := by
  cases node with
  | script whole => simp [children, Script.parts]
  | stmt s => exact parts_stmt h
  | expr e => exact parts_expr h
  | block braces =>
    cases braces
    simp [children, Block.parts, Block.body]
  | catchClause clause =>
    obtain ⟨param, body, span⟩ := clause
    have hparam := flatMap_parts_leaf? Node.identifier (fun _ => rfl) param
    simp [children, CatchClause.parts, CatchClause.param, CatchClause.body, hparam]
  | property pair => simp [children]
  | key _ | identifier _ | legacyLiteral _ => rfl

/-- The parts of a node are what the recursion meets. -/
theorem parts_eq_preorder {node : Node} (h : node.isCanonical = true) :
    node.parts = node.preorder := by
  have hchildren : ∀ child ∈ node.children, child.parts = child.preorder :=
    fun child hchild => parts_eq_preorder (isCanonical_of_mem_children hchild)
  rw [parts_eq h, preorder_eq, List.flatMap_congr hchildren]
termination_by node.size
decreasing_by exact size_lt_of_mem_children hchild

/-- A walk meets a node and all that is below it in the order of the recursion. Over a script it
meets the script and then each part that is stored in it, once and from left to right, and it sees
every part in one way only. -/
theorem walk_visits :
    (∀ root : Node, root.walk = root.preorder) ∧
      ∀ script : Script, (Node.script script).walk = .script script :: script.parts ∧
        ∀ node ∈ (Node.script script).walk, node.isCanonical = true := by
  have hwalk : ∀ root : Node, root.walk = root.preorder := by
    intro root
    rw [walk, visit_eq_flatMap, List.flatMap_singleton]
  refine ⟨hwalk, fun script => ⟨?_, ?_⟩⟩
  · rw [hwalk, ← parts_eq_preorder rfl]
    rfl
  · rw [hwalk]
    exact forall_mem_preorder (fun _ _ _ => isCanonical_of_mem_children) rfl

end Node

end HotkeyScript
