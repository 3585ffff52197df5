import HotkeyScript.Proofs.Tree.Shape
import HotkeyScript.Tree.Stmt

/-!
# Moving a tree to another place

A text that stands behind another one is read at later offsets and on later lines. `Span.shift`
moves a span by a number of bytes and a number of lines; a line that starts anew keeps its columns.

## Main definitions

* `Span.shift`, `Token.shift` — the span, and the token, at the later place.
* `Stmt.mapSpan` — the statement with changed spans.
-/

namespace HotkeyScript

/-! ## Spans and tokens -/

/-- The span that is as many bytes and lines further on. -/
def Span.shift (bytes lines : Nat) (span : Span) : Span :=
  { span with
    start := span.start + bytes
    stop := span.stop + bytes
    line := span.line + lines }

section Span

variable (bytes lines : Nat) (span : Span)

@[simp] theorem Span.shift_start : (span.shift bytes lines).start = span.start + bytes := rfl

@[simp] theorem Span.shift_stop : (span.shift bytes lines).stop = span.stop + bytes := rfl

@[simp] theorem Span.shift_line : (span.shift bytes lines).line = span.line + lines := rfl

end Span

/-- The token that is as many bytes and lines further on. -/
def Token.shift (bytes lines : Nat) (token : Token) : Token :=
  { token with span := token.span.shift bytes lines }

namespace Token

variable (bytes lines : Nat) (token : Token)

@[simp] theorem shift_kind : (token.shift bytes lines).kind = token.kind := rfl

@[simp] theorem shift_text : (token.shift bytes lines).text = token.text := rfl

@[simp] theorem shift_span : (token.shift bytes lines).span = token.span.shift bytes lines := rfl

@[simp] theorem shift_opensLine : (token.shift bytes lines).opensLine = token.opensLine := rfl

@[simp] theorem touches_shift (next : Token) :
    (token.shift bytes lines).touches (next.shift bytes lines) = token.touches next := by
  rw [Bool.eq_iff_iff]
  simp [touches]

end Token

/-! ## Statements -/

/-- The name with its span changed. -/
def Identifier.mapSpan (f : Span → Span) (name : Identifier) : Identifier :=
  { name with span := f name.span }

/-- The text with its span changed. -/
def LegacyLiteral.mapSpan (f : Span → Span) (text : LegacyLiteral) : LegacyLiteral :=
  { text with span := f text.span }

/-- The key with its span changed. -/
def Key.mapSpan (f : Span → Span) (key : Key) : Key :=
  { key with span := f key.span }

mutual

/-- The statement with each span in it changed. -/
def Stmt.mapSpan (f : Span → Span) : Stmt → Stmt
  | .expression e => .expression (e.mapSpan f)
  | .command name hash arguments span =>
    .command (name.mapSpan f) hash (mapSlots f arguments) (f span)
  | .block braces => .block (braces.mapSpan f)
  | .branch test consequent alternate span =>
    .branch (test.mapSpan f) (consequent.mapSpan f) (mapStmt? f alternate) (f span)
  | .whileLoop test body span => .whileLoop (test.mapSpan f) (body.mapSpan f) (f span)
  | .loop kind arguments body stop span =>
    .loop kind (mapSlots f arguments) (body.mapSpan f) (stop.map (Expr.mapSpan f)) (f span)
  | .forLoop key value iterable body stop span =>
    .forLoop (key.mapSpan f) (value.map (Identifier.mapSpan f)) (iterable.mapSpan f)
      (body.mapSpan f) (stop.map (Expr.mapSpan f)) (f span)
  | .attempt body handler finalizer span =>
    .attempt (body.mapSpan f) (mapCatch? f handler) (mapStmt? f finalizer) (f span)
  | .hotkey modifiers first key action span =>
    .hotkey modifiers (first.map (Key.mapSpan f)) (key.mapSpan f) (mapStmt? f action) (f span)
  | .hotstring options trigger replacement action span =>
    .hotstring options (trigger.mapSpan f) (replacement.map (LegacyLiteral.mapSpan f))
      (mapStmt? f action) (f span)
  | .label name span => .label name (f span)
  | .function name params body span =>
    .function (name.mapSpan f) (mapSlots f params) (body.mapSpan f) (f span)

/-- The block with each span in it changed. -/
def Block.mapSpan (f : Span → Span) : Block → Block
  | .mk body span => .mk (mapBody f body) (f span)

/-- The clause with each span in it changed. -/
def CatchClause.mapSpan (f : Span → Span) : CatchClause → CatchClause
  | .mk param body span => .mk (param.map (Identifier.mapSpan f)) (body.mapSpan f) (f span)

/-- Statements one after the other with each span changed. -/
def mapBody (f : Span → Span) : List Stmt → List Stmt
  | [] => []
  | s :: body => s.mapSpan f :: mapBody f body

/-- A statement, if there is one, with each span changed. -/
def mapStmt? (f : Span → Span) : Option Stmt → Option Stmt
  | none => none
  | some s => some (s.mapSpan f)

/-- A clause, if there is one, with each span changed. -/
def mapCatch? (f : Span → Span) : Option CatchClause → Option CatchClause
  | none => none
  | some clause => some (clause.mapSpan f)

end

@[simp] theorem Expr.span_mapSpan (f : Span → Span) (e : Expr) : (e.mapSpan f).span = f e.span := by
  cases e <;> rfl

@[simp] theorem Block.span_mapSpan (f : Span → Span) (braces : Block) :
    (braces.mapSpan f).span = f braces.span := by
  cases braces
  rfl

/-! ## Spans that stay -/

mutual

theorem Expr.mapSpan_id : ∀ e : Expr, e.mapSpan id = e
  | .identifier _ | .literal _ | .legacyLiteral _ => rfl
  | .unary _ _ argument _ => by simp [Expr.mapSpan, Expr.mapSpan_id argument]
  | .binary _ left right _ => by simp [Expr.mapSpan, Expr.mapSpan_id left, Expr.mapSpan_id right]
  | .concat left right _ => by simp [Expr.mapSpan, Expr.mapSpan_id left, Expr.mapSpan_id right]
  | .conditional test consequent alternate _ => by
    simp [Expr.mapSpan, Expr.mapSpan_id test, Expr.mapSpan_id consequent,
      Expr.mapSpan_id alternate]
  | .call callee arguments _ => by
    simp [Expr.mapSpan, Expr.mapSpan_id callee, mapSlots_id arguments]
  | .member owner name _ _ => by simp [Expr.mapSpan, Expr.mapSpan_id owner, Expr.mapSpan_id name]
  | .group inner _ => by simp [Expr.mapSpan, Expr.mapSpan_id inner]
  | .array elements _ => by simp [Expr.mapSpan, mapSlots_id elements]
  | .object properties _ => by simp [Expr.mapSpan, mapProperties_id properties]
  | .variadic argument _ => by simp [Expr.mapSpan, Expr.mapSpan_id argument]
  | .legacyAssignment _ right _ => by cases right <;> rfl
  | .legacyComparison _ _ _ _ => rfl

theorem mapSlots_id : ∀ slots : List (Option Expr), mapSlots id slots = slots
  | [] => rfl
  | none :: slots => by simp [mapSlots, mapSlots_id slots]
  | some e :: slots => by simp [mapSlots, Expr.mapSpan_id e, mapSlots_id slots]

theorem mapProperties_id : ∀ properties : List Property, mapProperties id properties = properties
  | [] => rfl
  | .mk key value _ :: properties => by
    simp [mapProperties, Expr.mapSpan_id key, Expr.mapSpan_id value, mapProperties_id properties]

end

theorem map_mapSpan_id (e : Option Expr) : e.map (Expr.mapSpan id) = e := by
  cases e <;> simp [Expr.mapSpan_id]

mutual

theorem Stmt.mapSpan_id : ∀ s : Stmt, s.mapSpan id = s
  | .expression e => by simp [Stmt.mapSpan, Expr.mapSpan_id e]
  | .command _ _ arguments _ => by simp [Stmt.mapSpan, Identifier.mapSpan, mapSlots_id arguments]
  | .block braces => by simp [Stmt.mapSpan, Block.mapSpan_id braces]
  | .branch test consequent alternate _ => by
    simp [Stmt.mapSpan, Expr.mapSpan_id test, Stmt.mapSpan_id consequent, mapStmt?_id alternate]
  | .whileLoop test body _ => by simp [Stmt.mapSpan, Expr.mapSpan_id test, Stmt.mapSpan_id body]
  | .loop _ arguments body stop _ => by
    simp [Stmt.mapSpan, mapSlots_id arguments, Stmt.mapSpan_id body, map_mapSpan_id stop]
  | .forLoop _ value iterable body stop _ => by
    cases value <;>
      simp [Stmt.mapSpan, Identifier.mapSpan, Expr.mapSpan_id iterable, Stmt.mapSpan_id body,
        map_mapSpan_id stop]
  | .attempt body handler finalizer _ => by
    simp [Stmt.mapSpan, Stmt.mapSpan_id body, mapCatch?_id handler, mapStmt?_id finalizer]
  | .hotkey _ first _ action _ => by
    cases first <;> simp [Stmt.mapSpan, Key.mapSpan, mapStmt?_id action]
  | .hotstring _ _ replacement action _ => by
    cases replacement <;> simp [Stmt.mapSpan, LegacyLiteral.mapSpan, mapStmt?_id action]
  | .label _ _ => rfl
  | .function _ params body _ => by
    simp [Stmt.mapSpan, Identifier.mapSpan, mapSlots_id params, Block.mapSpan_id body]

theorem Block.mapSpan_id : ∀ braces : Block, braces.mapSpan id = braces
  | .mk body _ => by simp [Block.mapSpan, mapBody_id body]

theorem CatchClause.mapSpan_id : ∀ clause : CatchClause, clause.mapSpan id = clause
  | .mk param body _ => by
    cases param <;> simp [CatchClause.mapSpan, Identifier.mapSpan, Stmt.mapSpan_id body]

theorem mapBody_id : ∀ body : List Stmt, mapBody id body = body
  | [] => rfl
  | s :: body => by simp [mapBody, Stmt.mapSpan_id s, mapBody_id body]

theorem mapStmt?_id : ∀ s : Option Stmt, mapStmt? id s = s
  | none => rfl
  | some s => by simp [mapStmt?, Stmt.mapSpan_id s]

theorem mapCatch?_id : ∀ clause : Option CatchClause, mapCatch? id clause = clause
  | none => rfl
  | some clause => by simp [mapCatch?, CatchClause.mapSpan_id clause]

end

end HotkeyScript
