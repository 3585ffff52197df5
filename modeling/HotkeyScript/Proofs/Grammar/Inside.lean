import HotkeyScript.Proofs.Grammar.StatementEquation

/-!
# Statements at and below a script

Every statement, block and catch clause of a parsed script was read by the parser for it, no matter
how deep it stands. So what the parser of statements makes sure of holds of all statements of a
script, and a law about them needs no induction of its own.

## Main definitions

* `Grammar.ReadAs`, `Grammar.Stands` — the node is what the parser for it reads, here or anywhere.
-/

namespace HotkeyScript.Grammar

open Node (ofExpr ofStmt ofSlots)

variable {stream : Stream} {source : Source} {script : Script} {s : Stmt} {node : Node}
  {p q : Nat}

/-- The parser for the node reads it from `p` up to, and without, `q`. Nothing is said of nodes that
no statement stands in. -/
def ReadAs (stream : Stream) : Node → Nat → Nat → Prop
  | .script whole, p, q => Body stream (statement stream) whole.body p q
  | .stmt s, p, q => Reads (statement stream) s p q
  | .block braces, p, q => Braces stream (statement stream) braces p q
  | .catchClause clause, p, q => IsCatch stream (statement stream) clause p q
  | _, _, _ => True

/-- The parser for the node reads it somewhere. -/
def Stands (stream : Stream) (node : Node) : Prop :=
  ∃ p q, ReadAs stream node p q

theorem statement_rule (h : Reads (statement stream) s p q) :
    Rule stream (statement stream) p s q := by
  rw [Reads, statement_eq] at h
  exact statementRules_reads h

/-! ## Children -/

@[simp] theorem stands_ofExpr (stream : Stream) (e : Expr) : Stands stream (ofExpr e) := by
  cases e <;> exact ⟨0, 0, trivial⟩

@[simp] theorem stands_identifier (stream : Stream) (name : Identifier) :
    Stands stream (.identifier name) := ⟨0, 0, trivial⟩

@[simp] theorem stands_legacyLiteral (stream : Stream) (text : LegacyLiteral) :
    Stands stream (.legacyLiteral text) := ⟨0, 0, trivial⟩

@[simp] theorem stands_key (stream : Stream) (key : Key) : Stands stream (.key key) :=
  ⟨0, 0, trivial⟩

@[simp] theorem stands_property (stream : Stream) (property : Property) :
    Stands stream (.property property) := ⟨0, 0, trivial⟩

theorem stands_ofSlots (stream : Stream) (slots : List (Option Expr)) :
    ∀ child ∈ ofSlots slots, Stands stream child := by
  intro child hchild
  obtain ⟨slot, -, hslot⟩ := List.mem_filterMap.mp hchild
  obtain ⟨e, -, rfl⟩ := Option.map_eq_some_iff.mp hslot
  exact stands_ofExpr stream e

theorem stands_exprChildren (stream : Stream) (e : Expr) :
    ∀ child ∈ Node.exprChildren e, Stands stream child := by
  cases e with
  | call callee arguments span =>
    exact List.forall_mem_cons.mpr ⟨stands_ofExpr stream callee, stands_ofSlots stream arguments⟩
  | array elements span => exact stands_ofSlots stream elements
  | _ => simp [Node.exprChildren]

theorem Reads.stands (h : Reads (statement stream) s p q) : Stands stream (ofStmt s) := by
  cases s with
  | expression e => exact stands_ofExpr stream e
  | block braces =>
    cases statement_rule h with
    | block hbraces => exact ⟨p, q, hbraces⟩
  | _ => exact ⟨p, q, h⟩

theorem Body.stands {body : List Stmt} (h : Body stream (statement stream) body p q) :
    ∀ child ∈ body.map ofStmt, Stands stream child := by
  induction h with
  | nil => exact List.forall_mem_nil _
  | last hs => exact List.forall_mem_singleton.mpr hs.stands
  | cons hs hline hrest ih => exact List.forall_mem_cons.mpr ⟨hs.stands, ih⟩

/-- A part that may be missing. -/
theorem stands_part {α : Type} {view : α → Node} {part : Option α}
    (h : ∀ a, part = some a → Stands stream (view a)) :
    ∀ child ∈ (part.map view).toList, Stands stream child := by
  cases part with
  | none => exact List.forall_mem_nil _
  | some a => exact List.forall_mem_singleton.mpr (h a rfl)

theorem Maybe.stands {α : Type} {R : α → Nat → Nat → Prop} {part : Option α} {view : α → Node}
    (h : Maybe R part p q) (hR : ∀ a p q, R a p q → Stands stream (view a)) :
    ∀ child ∈ (part.map view).toList, Stands stream child := by
  refine stands_part fun a ha => ?_
  subst ha
  cases h with
  | some hle ha => exact hR _ _ _ ha

theorem IsCatch.stands {clause : CatchClause}
    (h : IsCatch stream (statement stream) clause p q) :
    ∀ child ∈ (Node.catchClause clause).children, Stands stream child := by
  cases h with
  | bare hsize hbody => exact List.forall_mem_singleton.mpr hbody.stands
  | named hsize htoken hword hbody =>
    exact List.forall_mem_cons.mpr
      ⟨stands_identifier stream _, List.forall_mem_singleton.mpr hbody.stands⟩

/-- The parts of a statement are read by the parsers for them. -/
theorem Rule.stands (h : Rule stream (statement stream) p s q) :
    ∀ child ∈ Node.stmtChildren s, Stands stream child := by
  have hstmt : ∀ s p q, Reads (statement stream) s p q → Stands stream (ofStmt s) :=
    fun _ _ _ => Reads.stands
  cases h with
  | hotstring _ _ _ _ _ haction =>
    exact List.forall_mem_cons.mpr ⟨stands_legacyLiteral stream _, List.forall_mem_append.mpr
      ⟨stands_part fun text _ => stands_legacyLiteral stream text, haction.stands hstmt⟩⟩
  | hotkey _ _ _ _ _ _ haction =>
    exact List.forall_mem_append.mpr ⟨stands_part fun key _ => stands_key stream key,
      List.forall_mem_cons.mpr ⟨stands_key stream _, haction.stands hstmt⟩⟩
  | label => exact List.forall_mem_nil _
  | block hbraces =>
    obtain ⟨-, hbody, -⟩ := hbraces
    exact hbody.stands
  | branch _ _ hconsequent halternate =>
    exact List.forall_mem_cons.mpr ⟨stands_ofExpr stream _,
      List.forall_mem_cons.mpr ⟨hconsequent.stands, halternate.stands hstmt⟩⟩
  | whileLoop _ _ hbody =>
    exact List.forall_mem_cons.mpr
      ⟨stands_ofExpr stream _, List.forall_mem_singleton.mpr hbody.stands⟩
  | loop _ _ _ hbody _ =>
    exact List.forall_mem_append.mpr ⟨stands_ofSlots stream _, List.forall_mem_cons.mpr
      ⟨hbody.stands, stands_part fun test _ => stands_ofExpr stream test⟩⟩
  | forLoop _ _ _ _ hbody _ =>
    refine List.forall_mem_cons.mpr ⟨stands_identifier stream _, List.forall_mem_append.mpr
      ⟨stands_part fun name _ => stands_identifier stream name, ?_⟩⟩
    exact List.forall_mem_cons.mpr ⟨stands_ofExpr stream _, List.forall_mem_cons.mpr
      ⟨hbody.stands, stands_part fun test _ => stands_ofExpr stream test⟩⟩
  | attempt _ hbody hhandler hfinalizer =>
    exact List.forall_mem_cons.mpr ⟨hbody.stands, List.forall_mem_append.mpr
      ⟨hhandler.stands fun _ p q hclause => ⟨p, q, hclause⟩, hfinalizer.stands hstmt⟩⟩
  | command =>
    exact List.forall_mem_cons.mpr ⟨stands_identifier stream _, stands_ofSlots stream _⟩
  | assignment | expression => exact List.forall_mem_singleton.mpr (stands_ofExpr stream _)
  | @function _ _ _ _ m _ _ hbraces =>
    exact List.forall_mem_cons.mpr ⟨stands_identifier stream _, List.forall_mem_append.mpr
      ⟨stands_ofSlots stream _, List.forall_mem_singleton.mpr ⟨m, q, hbraces⟩⟩⟩

theorem Stands.children (h : Stands stream node) :
    ∀ child ∈ node.children, Stands stream child := by
  obtain ⟨p, q, h⟩ := h
  cases node with
  | script whole => exact Body.stands h
  | stmt s => exact (statement_rule h).stands
  | expr e => exact stands_exprChildren stream e
  | block braces =>
    obtain ⟨-, hbody, -⟩ := h
    exact hbody.stands
  | catchClause clause => exact IsCatch.stands h
  | property property =>
    exact List.forall_mem_cons.mpr
      ⟨stands_ofExpr stream _, List.forall_mem_singleton.mpr (stands_ofExpr stream _)⟩
  | key | identifier | legacyLiteral => exact List.forall_mem_nil _

/-! ## Scripts -/

theorem stands_of_within (h : parse source = .ok script)
    (hwithin : (Node.script script).Within node) : Stands (Stream.ofSource source) node := by
  induction hwithin with
  | self =>
    obtain ⟨stop, -, hbody, -⟩ := parse_reads h
    exact ⟨0, stop, hbody⟩
  | child hparent hmem ih => exact ih.children _ hmem

/-- Every statement of a script is what the parser of statements reads somewhere. -/
theorem exists_reads_of_within (h : parse source = .ok script)
    (hwithin : (Node.script script).Within (.stmt s)) :
    ∃ p q, Reads (statement (Stream.ofSource source)) s p q :=
  stands_of_within h hwithin

end HotkeyScript.Grammar
