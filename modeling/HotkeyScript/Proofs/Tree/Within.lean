import HotkeyScript.Tree.Node

/-!
# Nodes below a node

## Main definitions

* `Node.Within` — a node stands at or below another one.
-/

namespace HotkeyScript.Node

@[simp] theorem span_ofExpr (e : Expr) : (ofExpr e).span = e.span := by
  cases e <;> rfl

@[simp] theorem span_ofStmt (s : Stmt) : (ofStmt s).span = s.span := by
  cases s with
  | expression e => exact span_ofExpr e
  | _ => rfl

theorem ofSlots_cons (slot : Option Expr) (slots : List (Option Expr)) :
    ofSlots (slot :: slots) = (slot.map ofExpr).toList ++ ofSlots slots := by
  cases slot <;> rfl

/-- The node stands at or below the root. -/
inductive Within (root : Node) : Node → Prop
  | self : Within root root
  | child {node child : Node} : Within root node → child ∈ node.children → Within root child

end HotkeyScript.Node
