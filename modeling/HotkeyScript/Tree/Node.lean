import HotkeyScript.Tree.Stmt

/-!
# Nodes

A uniform view of the parts of a script, so that a rule can look at every part without knowing where
parts are nested. An expression statement is seen as its expression, and blocks, names and literal
texts are seen as such wherever they stand; `Node.ofStmt` and `Node.ofExpr` choose that view.

## Main definitions

* `Node` — a part of a script, with its `Node.kind`, its `Node.span` and its `Node.children`.
* `Node.walk` — a node and all that is below it, parents before children.
-/

namespace HotkeyScript

/-- The kinds of nodes. -/
inductive NodeKind where
  | script
  | command
  | block
  | branch
  | whileLoop
  | loop
  | forLoop
  | attempt
  | catchClause
  | hotkey
  | key
  | hotstring
  | label
  | function
  | identifier
  | literal
  | legacyLiteral
  | unary
  | binary
  | concat
  | conditional
  | call
  | member
  | group
  | array
  | object
  | property
  | variadic
  | legacyAssignment
  | legacyComparison
  deriving DecidableEq, Repr, Inhabited

/-- A part of a script. -/
inductive Node where
  | script (script : Script)
  | stmt (stmt : Stmt)
  | expr (expr : Expr)
  | block (block : Block)
  | catchClause (clause : CatchClause)
  | key (key : Key)
  | property (property : Property)
  | identifier (identifier : Identifier)
  | legacyLiteral (literal : LegacyLiteral)

/-- The kind of an expression. -/
def Expr.kind : Expr → NodeKind
  | .identifier .. => .identifier
  | .literal .. => .literal
  | .legacyLiteral .. => .legacyLiteral
  | .unary .. => .unary
  | .binary .. => .binary
  | .concat .. => .concat
  | .conditional .. => .conditional
  | .call .. => .call
  | .member .. => .member
  | .group .. => .group
  | .array .. => .array
  | .object .. => .object
  | .variadic .. => .variadic
  | .legacyAssignment .. => .legacyAssignment
  | .legacyComparison .. => .legacyComparison

/-- The kind of a statement; that of an expression statement is the kind of its expression. -/
def Stmt.kind : Stmt → NodeKind
  | .expression expr => expr.kind
  | .command .. => .command
  | .block .. => .block
  | .branch .. => .branch
  | .whileLoop .. => .whileLoop
  | .loop .. => .loop
  | .forLoop .. => .forLoop
  | .attempt .. => .attempt
  | .hotkey .. => .hotkey
  | .hotstring .. => .hotstring
  | .label .. => .label
  | .function .. => .function

namespace Node

/-- The node that shows an expression. -/
def ofExpr : Expr → Node
  | .identifier name => .identifier name
  | .legacyLiteral text => .legacyLiteral text
  | e => .expr e

/-- The node that shows a statement. -/
def ofStmt : Stmt → Node
  | .expression e => ofExpr e
  | .block braces => .block braces
  | s => .stmt s

/-- The kind of a node. -/
def kind : Node → NodeKind
  | .script _ => .script
  | .stmt s => s.kind
  | .expr e => e.kind
  | .block _ => .block
  | .catchClause _ => .catchClause
  | .key _ => .key
  | .property _ => .property
  | .identifier _ => .identifier
  | .legacyLiteral _ => .legacyLiteral

/-- Where a node stands. -/
def span : Node → Span
  | .script whole => whole.span
  | .stmt s => s.span
  | .expr e => e.span
  | .block braces => braces.span
  | .catchClause clause => clause.span
  | .key k => k.span
  | .property pair => pair.span
  | .identifier name => name.span
  | .legacyLiteral text => text.span

/-! ## Children -/

/-- The nodes of the places of a list that are not empty. -/
def ofSlots (slots : List (Option Expr)) : List Node :=
  slots.filterMap (Option.map ofExpr)

/-- The nodes directly below an expression, from left to right. -/
def exprChildren : Expr → List Node
  | .identifier _ | .literal _ | .legacyLiteral _ => []
  | .unary _ _ argument _ => [ofExpr argument]
  | .binary _ left right _ => [ofExpr left, ofExpr right]
  | .concat left right _ => [ofExpr left, ofExpr right]
  | .conditional test consequent alternate _ => [ofExpr test, ofExpr consequent, ofExpr alternate]
  | .call callee arguments _ => ofExpr callee :: ofSlots arguments
  | .member object name _ _ => [ofExpr object, ofExpr name]
  | .group inner _ => [ofExpr inner]
  | .array elements _ => ofSlots elements
  | .object properties _ => properties.map .property
  | .variadic argument _ => [ofExpr argument]
  | .legacyAssignment left right _ => .identifier left :: (right.map .legacyLiteral).toList
  | .legacyComparison _ left right _ => [.identifier left, .legacyLiteral right]

/-- The nodes directly below a statement, from left to right. -/
def stmtChildren : Stmt → List Node
  | .expression e => [ofExpr e]
  | .command name _ arguments _ => .identifier name :: ofSlots arguments
  | .block braces => braces.body.map ofStmt
  | .branch test consequent alternate _ =>
    ofExpr test :: ofStmt consequent :: (alternate.map ofStmt).toList
  | .whileLoop test body _ => [ofExpr test, ofStmt body]
  | .loop _ arguments body stop _ => ofSlots arguments ++ ofStmt body :: (stop.map ofExpr).toList
  | .forLoop name value iterable body stop _ =>
    .identifier name :: ((value.map .identifier).toList ++
      ofExpr iterable :: ofStmt body :: (stop.map ofExpr).toList)
  | .attempt body handler finalizer _ =>
    ofStmt body :: ((handler.map .catchClause).toList ++ (finalizer.map ofStmt).toList)
  | .hotkey _ first second action _ =>
    (first.map .key).toList ++ .key second :: (action.map ofStmt).toList
  | .hotstring _ trigger replacement action _ =>
    .legacyLiteral trigger ::
      ((replacement.map .legacyLiteral).toList ++ (action.map ofStmt).toList)
  | .label .. => []
  | .function name params body _ => .identifier name :: (ofSlots params ++ [.block body])

/-- The nodes directly below a node, from left to right. -/
def children : Node → List Node
  | .script whole => whole.body.map ofStmt
  | .stmt s => stmtChildren s
  | .expr e => exprChildren e
  | .block braces => braces.body.map ofStmt
  | .catchClause clause => (clause.param.map .identifier).toList ++ [ofStmt clause.body]
  | .property pair => [ofExpr pair.key, ofExpr pair.value]
  | .key _ | .identifier _ | .legacyLiteral _ => []

/-! ## Walking -/

/-- A measure of all that is at and below a node. -/
noncomputable def size : Node → Nat
  | .script whole => 1 + sizeOf whole.body
  | .stmt s => sizeOf s
  | .expr e => sizeOf e
  | .block braces => sizeOf braces
  | .catchClause clause => sizeOf clause
  | .property pair => sizeOf pair
  | .key _ | .identifier _ | .legacyLiteral _ => 1

/-- The sum of the sizes of nodes. -/
noncomputable def total : List Node → Nat
  | [] => 0
  | node :: nodes => node.size + total nodes

@[simp] theorem size_script (whole : Script) :
    (Node.script whole).size = 1 + sizeOf whole.body := rfl

@[simp] theorem size_stmt (s : Stmt) : (Node.stmt s).size = sizeOf s := rfl

@[simp] theorem size_expr (e : Expr) : (Node.expr e).size = sizeOf e := rfl

@[simp] theorem size_block (braces : Block) : (Node.block braces).size = sizeOf braces := rfl

@[simp] theorem size_catchClause (clause : CatchClause) :
    (Node.catchClause clause).size = sizeOf clause := rfl

@[simp] theorem size_property (pair : Property) : (Node.property pair).size = sizeOf pair := rfl

@[simp] theorem size_key (k : Key) : (Node.key k).size = 1 := rfl

@[simp] theorem size_identifier (name : Identifier) : (Node.identifier name).size = 1 := rfl

@[simp] theorem size_legacyLiteral (text : LegacyLiteral) :
    (Node.legacyLiteral text).size = 1 := rfl

@[simp] theorem total_nil : total [] = 0 := rfl

@[simp] theorem total_cons (node : Node) (nodes : List Node) :
    total (node :: nodes) = node.size + total nodes := rfl

@[simp] theorem total_append (as bs : List Node) : total (as ++ bs) = total as + total bs := by
  induction as with
  | nil => simp
  | cons node nodes ih => simp [ih, Nat.add_assoc]

theorem size_ofExpr_le (e : Expr) : (ofExpr e).size ≤ sizeOf e := by
  cases e with
  | identifier name =>
    simp only [ofExpr, size_identifier, Expr.identifier.sizeOf_spec]
    omega
  | legacyLiteral text =>
    simp only [ofExpr, size_legacyLiteral, Expr.legacyLiteral.sizeOf_spec]
    omega
  | _ => exact Nat.le_refl _

theorem size_ofStmt_le (s : Stmt) : (ofStmt s).size ≤ sizeOf s := by
  cases s with
  | expression e =>
    have := size_ofExpr_le e
    simp only [ofStmt, Stmt.expression.sizeOf_spec]
    omega
  | _ => simp [ofStmt]

theorem total_ofSlots_le (slots : List (Option Expr)) : total (ofSlots slots) ≤ sizeOf slots := by
  induction slots with
  | nil => simp [ofSlots]
  | cons slot slots ih =>
    cases slot with
    | none =>
      simp only [ofSlots, List.filterMap_cons, Option.map_none, List.cons.sizeOf_spec] at ih ⊢
      omega
    | some e =>
      have := size_ofExpr_le e
      simp only [ofSlots, List.filterMap_cons, Option.map_some, total_cons,
        List.cons.sizeOf_spec, Option.some.sizeOf_spec] at ih ⊢
      omega

theorem total_map_ofStmt_le (body : List Stmt) : total (body.map ofStmt) ≤ sizeOf body := by
  induction body with
  | nil => simp
  | cons s body ih =>
    have := size_ofStmt_le s
    simp only [List.map_cons, total_cons, List.cons.sizeOf_spec]
    omega

theorem total_map_property_le (properties : List Property) :
    total (properties.map .property) ≤ sizeOf properties := by
  induction properties with
  | nil => simp
  | cons pair properties ih =>
    simp only [List.map_cons, total_cons, List.cons.sizeOf_spec, size_property]
    omega

theorem total_map_ofStmt_toList_le (s : Option Stmt) :
    total (s.map ofStmt).toList ≤ sizeOf s := by
  cases s with
  | none => simp
  | some s =>
    have := size_ofStmt_le s
    simp
    omega

theorem total_map_ofExpr_toList_le (e : Option Expr) :
    total (e.map ofExpr).toList ≤ sizeOf e := by
  cases e with
  | none => simp
  | some e =>
    have := size_ofExpr_le e
    simp
    omega

theorem total_map_catchClause_toList_le (clause : Option CatchClause) :
    total (clause.map .catchClause).toList ≤ sizeOf clause := by
  cases clause <;> simp

theorem total_map_legacyLiteral_toList_le (text : Option LegacyLiteral) :
    total (text.map .legacyLiteral).toList ≤ sizeOf text := by
  cases text <;> simp

theorem total_map_identifier_toList_le (name : Option Identifier) :
    total (name.map .identifier).toList ≤ sizeOf name := by
  cases name <;> simp

theorem total_map_key_toList_le (k : Option Key) : total (k.map .key).toList ≤ sizeOf k := by
  cases k <;> simp

theorem total_exprChildren_lt (e : Expr) : total (exprChildren e) < sizeOf e := by
  cases e with
  | identifier name =>
    simp only [exprChildren, total_nil, Expr.identifier.sizeOf_spec]
    omega
  | literal value =>
    simp only [exprChildren, total_nil, Expr.literal.sizeOf_spec]
    omega
  | legacyLiteral text =>
    simp only [exprChildren, total_nil, Expr.legacyLiteral.sizeOf_spec]
    omega
  | unary op leading argument span =>
    have := size_ofExpr_le argument
    simp [exprChildren]
    omega
  | binary op left right span =>
    have := size_ofExpr_le left
    have := size_ofExpr_le right
    simp [exprChildren]
    omega
  | concat left right span =>
    have := size_ofExpr_le left
    have := size_ofExpr_le right
    simp [exprChildren]
    omega
  | conditional test consequent alternate span =>
    have := size_ofExpr_le test
    have := size_ofExpr_le consequent
    have := size_ofExpr_le alternate
    simp [exprChildren]
    omega
  | call callee arguments span =>
    have := size_ofExpr_le callee
    have := total_ofSlots_le arguments
    simp [exprChildren]
    omega
  | member object name computed span =>
    have := size_ofExpr_le object
    have := size_ofExpr_le name
    simp [exprChildren]
    omega
  | group inner span =>
    have := size_ofExpr_le inner
    simp [exprChildren]
    omega
  | array elements span =>
    have := total_ofSlots_le elements
    simp [exprChildren]
    omega
  | object properties span =>
    have := total_map_property_le properties
    simp [exprChildren]
    omega
  | variadic argument span =>
    have := size_ofExpr_le argument
    simp [exprChildren]
    omega
  | legacyAssignment left right span =>
    have := total_map_legacyLiteral_toList_le right
    cases left
    simp [exprChildren]
    omega
  | legacyComparison op left right span =>
    cases left
    cases right
    simp [exprChildren]
    omega

theorem total_stmtChildren_lt (s : Stmt) : total (stmtChildren s) < sizeOf s := by
  cases s with
  | expression e =>
    have := size_ofExpr_le e
    simp [stmtChildren]
    omega
  | command name hash arguments span =>
    have := total_ofSlots_le arguments
    cases name
    simp [stmtChildren]
    omega
  | block braces =>
    cases braces with
    | mk body span =>
      have := total_map_ofStmt_le body
      simp [stmtChildren, Block.body]
      omega
  | branch test consequent alternate span =>
    have := size_ofExpr_le test
    have := size_ofStmt_le consequent
    have := total_map_ofStmt_toList_le alternate
    simp [stmtChildren]
    omega
  | whileLoop test body span =>
    have := size_ofExpr_le test
    have := size_ofStmt_le body
    simp [stmtChildren]
    omega
  | loop kind arguments body stop span =>
    have := total_ofSlots_le arguments
    have := size_ofStmt_le body
    have := total_map_ofExpr_toList_le stop
    simp [stmtChildren]
    omega
  | forLoop name value iterable body stop span =>
    have := total_map_identifier_toList_le value
    have := size_ofExpr_le iterable
    have := size_ofStmt_le body
    have := total_map_ofExpr_toList_le stop
    cases name
    simp [stmtChildren]
    omega
  | attempt body handler finalizer span =>
    have := size_ofStmt_le body
    have := total_map_catchClause_toList_le handler
    have := total_map_ofStmt_toList_le finalizer
    simp [stmtChildren]
    omega
  | hotkey modifiers first second action span =>
    have := total_map_key_toList_le first
    have := total_map_ofStmt_toList_le action
    cases second
    simp [stmtChildren]
    omega
  | hotstring options trigger replacement action span =>
    have := total_map_legacyLiteral_toList_le replacement
    have := total_map_ofStmt_toList_le action
    cases trigger
    simp [stmtChildren]
    omega
  | label name span =>
    simp only [stmtChildren, total_nil, Stmt.label.sizeOf_spec]
    omega
  | function name params body span =>
    have := total_ofSlots_le params
    cases name
    simp [stmtChildren]
    omega

/-- The nodes directly below a node are together smaller than the node. -/
theorem total_children_lt (node : Node) : total node.children < node.size := by
  cases node with
  | script whole =>
    have := total_map_ofStmt_le whole.body
    simp [children]
    omega
  | stmt s => exact total_stmtChildren_lt s
  | expr e => exact total_exprChildren_lt e
  | block braces =>
    cases braces with
    | mk body span =>
      have := total_map_ofStmt_le body
      simp [children, Block.body]
      omega
  | catchClause clause =>
    cases clause with
    | mk param body span =>
      have := total_map_identifier_toList_le param
      have := size_ofStmt_le body
      simp [children, CatchClause.param, CatchClause.body]
      omega
  | property pair =>
    cases pair with
    | mk left right span =>
      have := size_ofExpr_le left
      have := size_ofExpr_le right
      simp [children, Property.key, Property.value]
      omega
  | key k => simp [children]
  | identifier name => simp [children]
  | legacyLiteral text => simp [children]

/-- The nodes at and below the nodes of a stack: the top node comes next, and the nodes below it
take its place. -/
def visit : List Node → List Node
  | [] => []
  | node :: stack => node :: visit (node.children ++ stack)
termination_by stack => total stack
decreasing_by
  have := total_children_lt node
  simp only [total_append, total_cons]
  omega

/-- A node and all that is below it, parents before children and from left to right. -/
def walk (root : Node) : List Node :=
  visit [root]

end Node

end HotkeyScript
