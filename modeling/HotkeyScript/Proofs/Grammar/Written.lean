import HotkeyScript.Proofs.Grammar.StatementRules
import HotkeyScript.Proofs.Tree.Within

/-!
# Nodes and the tokens that write them

Every node of a parsed script is written by a run of tokens: its span starts with the first token of
the run and ends with the last, and the runs of its children lie inside, one behind the other. With
the run of each node goes a property `Q` that its rule has to establish.

One pass over the grammar shows this for every such `Q` (`expression_written`, `body_written`). What
a rule knows of the node that it builds is written down once, as `Upholds`; a law about nodes and
their runs is an instance of it.

## Main definitions

* `Grammar.Written`, `Grammar.WrittenInOrder` — a node, or nodes one behind the other, and the
  tokens that write them.
* `Grammar.Tiled` — spans that leave out no token between them.
* `Grammar.Upholds` — every rule establishes a property of the node that it builds.
-/

namespace HotkeyScript.Grammar

open Node (ofExpr ofStmt ofSlots)

variable {stream : Stream} {Q : Node → Nat → Nat → Prop} {p q m n : Nat}

/-! ## Runs of nodes -/

mutual

/-- The node is written by the tokens from `p` up to, and without, `q`. -/
inductive Written (stream : Stream) (Q : Node → Nat → Nat → Prop) : Node → Nat → Nat → Prop
  | intro {node : Node} {p q : Nat} : stream.Covers node.span p q → Q node p q →
      WrittenInOrder stream Q node.children p q → Written stream Q node p q

/-- The nodes are written by runs of tokens between `p` and `q`, one behind the other. -/
inductive WrittenInOrder (stream : Stream) (Q : Node → Nat → Nat → Prop) :
    List Node → Nat → Nat → Prop
  | nil {p q : Nat} : p ≤ q → WrittenInOrder stream Q [] p q
  | cons {node : Node} {nodes : List Node} {p a b q : Nat} : p ≤ a →
      Written stream Q node a b → WrittenInOrder stream Q nodes b q →
      WrittenInOrder stream Q (node :: nodes) p q

end

theorem Written.covers {node : Node} (h : Written stream Q node p q) :
    stream.Covers node.span p q := by
  obtain ⟨hcovers, -, -⟩ := h
  exact hcovers

theorem Written.holds {node : Node} (h : Written stream Q node p q) : Q node p q := by
  obtain ⟨-, hQ, -⟩ := h
  exact hQ

theorem Written.children {node : Node} (h : Written stream Q node p q) :
    WrittenInOrder stream Q node.children p q := by
  obtain ⟨-, -, hchildren⟩ := h
  exact hchildren

theorem Written.lt {node : Node} (h : Written stream Q node p q) : p < q := h.covers.lt

theorem Written.le_size {node : Node} (h : Written stream Q node p q) : q ≤ stream.size :=
  h.covers.le_size

theorem WrittenInOrder.le {nodes : List Node} (h : WrittenInOrder stream Q nodes p q) :
    p ≤ q := by
  induction nodes generalizing p with
  | nil =>
    cases h with
    | nil hle => exact hle
  | cons node nodes ih =>
    cases h with
    | cons hle hnode hrest =>
      have := hnode.lt
      have := ih hrest
      omega

theorem WrittenInOrder.mono {nodes : List Node} {p' q' : Nat}
    (h : WrittenInOrder stream Q nodes p q) (hp : p' ≤ p) (hq : q ≤ q') :
    WrittenInOrder stream Q nodes p' q' := by
  induction nodes generalizing p p' with
  | nil =>
    cases h with
    | nil hle => exact .nil (by omega)
  | cons node nodes ih =>
    cases h with
    | cons hle hnode hrest => exact .cons (by omega) hnode (ih hrest (Nat.le_refl _))

theorem WrittenInOrder.append {nodes nodes' : List Node} (h : WrittenInOrder stream Q nodes p m)
    (h' : WrittenInOrder stream Q nodes' m q) : WrittenInOrder stream Q (nodes ++ nodes') p q := by
  induction nodes generalizing p with
  | nil =>
    cases h with
    | nil hle => exact h'.mono hle (Nat.le_refl q)
  | cons node nodes ih =>
    cases h with
    | cons hle hnode hrest => exact .cons hle hnode (ih hrest)

theorem Written.single {node : Node} {p' q' : Nat} (h : Written stream Q node p q) (hp : p' ≤ p)
    (hq : q ≤ q') : WrittenInOrder stream Q [node] p' q' :=
  .cons hp h (.nil hq)

/-- One of several nodes is written by a run of its own. -/
theorem WrittenInOrder.of_mem {nodes : List Node} {node : Node}
    (h : WrittenInOrder stream Q nodes p q) (hmem : node ∈ nodes) :
    ∃ a b, p ≤ a ∧ b ≤ q ∧ Written stream Q node a b := by
  induction nodes generalizing p with
  | nil => cases hmem
  | cons first nodes ih =>
    cases h with
    | @cons _ _ _ a b _ hle hfirst hrest =>
      have hlt := hfirst.lt
      rcases List.mem_cons.mp hmem with rfl | hmem
      · exact ⟨a, b, hle, hrest.le, hfirst⟩
      · obtain ⟨a', b', ha, hb, hnode⟩ := ih hrest hmem
        exact ⟨a', b', by omega, hb, hnode⟩

/-- A node below a root whose parts are written is written by a run of its own. -/
theorem WrittenInOrder.of_within {root node : Node}
    (h : WrittenInOrder stream Q root.children p q) (hwithin : root.Within node) :
    node = root ∨ ∃ a b, Written stream Q node a b := by
  induction hwithin with
  | self => exact .inl rfl
  | child _ hmem ih =>
    rcases ih with rfl | ⟨a, b, hnode⟩
    · obtain ⟨a, b, -, -, hchild⟩ := h.of_mem hmem
      exact .inr ⟨a, b, hchild⟩
    · obtain ⟨a, b, -, -, hchild⟩ := hnode.children.of_mem hmem
      exact .inr ⟨a, b, hchild⟩

theorem Maybe.written {α : Type} {R : α → Nat → Nat → Prop} {part : Option α}
    (h : Maybe R part p q) (view : α → Node)
    (hR : ∀ a p q, R a p q → Written stream Q (view a) p q) :
    WrittenInOrder stream Q (part.map view).toList p q := by
  cases h with
  | none => exact .nil (Nat.le_refl p)
  | some hle ha => exact (hR _ _ _ ha).single hle (Nat.le_refl q)

/-! ## Tilings -/

/-- The spans are made up of runs of tokens that follow each other from `p` to `q` without a gap,
each behind the first at the start of a line. -/
inductive Tiled (stream : Stream) : List Span → Nat → Nat → Prop
  | nil {p : Nat} : Tiled stream [] p p
  | cons {span : Span} {spans : List Span} {p m q : Nat} : stream.Covers span p m →
      (spans ≠ [] → stream.startsLine m = true) → Tiled stream spans m q →
      Tiled stream (span :: spans) p q

theorem Tiled.le {spans : List Span} (h : Tiled stream spans p q) : p ≤ q := by
  induction h with
  | nil => exact Nat.le_refl _
  | cons hcovers hline hrest ih => exact Nat.le_trans (Nat.le_of_lt hcovers.lt) ih

theorem Tiled.le_size {spans : List Span} (h : Tiled stream spans p q) (hp : p ≤ stream.size) :
    q ≤ stream.size := by
  induction h with
  | nil => exact hp
  | cons hcovers hline hrest ih => exact ih hcovers.le_size

/-- The first span of a tiling starts with its first token. -/
theorem Tiled.head {span : Span} {spans : List Span} (h : Tiled stream (span :: spans) p q) :
    span.start = (stream.spanAt p).start := by
  cases h with
  | cons hcovers hline hrest =>
    obtain ⟨-, first, last, hfirst, -, rfl⟩ := hcovers
    rw [Stream.spanAt_eq hfirst, Span.to_start]

/-- The last span of a tiling ends with its last token. -/
theorem Tiled.getLast {spans : List Span} {span : Span} (h : Tiled stream spans p q)
    (hlast : spans.getLast? = some span) : span.stop = (stream.spanAt (q - 1)).stop := by
  induction h with
  | nil => cases hlast
  | @cons span' spans p m q hcovers hline hrest ih =>
    cases spans with
    | nil =>
      obtain rfl : span' = span := by simpa using hlast
      cases hrest
      obtain ⟨-, first, token, -, htoken, rfl⟩ := hcovers
      rw [Stream.spanAt_eq htoken, Span.to_stop]
    | cons _ _ => exact ih (by simpa using hlast)

/-- A tiling of no tokens is empty, and every other is not. -/
theorem Tiled.eq_nil_iff {spans : List Span} (h : Tiled stream spans p q) :
    spans = [] ↔ p = q := by
  cases h with
  | nil => simp
  | cons hcovers hline hrest =>
    have hlt := hcovers.lt
    have hle := hrest.le
    simp
    omega

/-! ## What the rules establish -/

/-- The nodes that are known by their parts alone. -/
def isPlain : Node → Bool
  | .stmt (.command ..) | .stmt (.hotkey ..) => false
  | .stmt _ | .catchClause _ | .property _ | .expr (.variadic ..) => true
  | _ => false

/-- Every rule establishes `Q` of the node that it builds and the run of the node. -/
structure Upholds (stream : Stream) (Q : Node → Nat → Nat → Prop) : Prop where
  primary {e : Expr} {p q : Nat} : Primary stream (expression stream) p e q → Q (ofExpr e) p q
  step {floor : Floor} {left e : Expr} {p m q : Nat} : Climbs stream floor p left m →
    stream.continues m = true → Step stream (expression stream) floor left m e q →
    Q (ofExpr e) p q
  name {name : Identifier} {p q : Nat} : IsName stream name p q → Q (.identifier name) p q
  text {text : LegacyLiteral} {p q : Nat} : IsText stream text p q → Q (.legacyLiteral text) p q
  key {key : Key} {p q : Nat} : IsKey stream key p q → Q (.key key) p q
  block {body : List Stmt} {span : Span} {p close : Nat} : stream.reads p "\x7b" = true →
    Tiled stream (body.map Stmt.span) (p + 1) close → Expected stream close "\x7d" →
    Q (.block (.mk body span)) p (close + 1)
  command {name : Identifier} {hash : Bool} {arguments : List (Option Expr)} {span : Span}
    {p q : Nat} : command stream p = .ok (some (.command name hash arguments span, q)) →
    Q (.stmt (.command name hash arguments span)) p q
  hotkey {modifiers : String} {first : Option Key} {key : Key} {action : Option Stmt}
    {span : Span} {p colons q : Nat} :
    trigger stream p = some ({ modifiers, first, key }, colons) →
    Q (.stmt (.hotkey modifiers first key action span)) p q
  assignment {name : Identifier} {right : Option LegacyLiteral} {span : Span} {p q : Nat} :
    legacyAssignment stream p = some (.legacyAssignment name right span, q) →
    Q (.expr (.legacyAssignment name right span)) p q
  comparison {operator : String} {name : Identifier} {right : LegacyLiteral} {span : Span}
    {p q : Nat} :
    legacyComparison stream p = .ok (some (.legacyComparison operator name right span, q)) →
    Q (.expr (.legacyComparison operator name right span)) p q
  plain {node : Node} {p q : Nat} : isPlain node = true → Q node p q

/-! ## Expressions -/

variable (U : Upholds stream Q)

include U

theorem IsName.written {name : Identifier} (h : IsName stream name p q) :
    Written stream Q (.identifier name) p q := by
  have hQ := U.name h
  obtain ⟨token, htoken, -, rfl, rfl⟩ := h
  exact .intro (Stream.covers_token htoken) hQ (.nil (Nat.le_succ p))

theorem IsText.written {text : LegacyLiteral} (h : IsText stream text p q) :
    Written stream Q (.legacyLiteral text) p q := by
  have hQ := U.text h
  obtain ⟨hlt, hle, rfl⟩ := h
  exact .intro (Stream.covers_spanTo_spanAt hlt hle) hQ (.nil (Nat.le_of_lt hlt))

omit U in
/-- All expressions that are read from position `n` on are written where they are read. -/
def WrittenFrom (stream : Stream) (Q : Node → Nat → Nat → Prop) (n : Nat) : Prop :=
  ∀ floor p e q, n ≤ p → expression stream floor p = .ok (some (e, q)) →
    Written stream Q (ofExpr e) p q

theorem Slot.written (h : WrittenFrom stream Q n) (hp : n ≤ p) {slot : Option Expr}
    (hslot : Slot stream (expression stream) slot p q) :
    WrittenInOrder stream Q (slot.map ofExpr).toList p q := by
  cases hslot with
  | empty => exact .nil (Nat.le_refl p)
  | element hinner => exact (h _ _ _ _ hp hinner).single (Nat.le_refl p) (Nat.le_refl q)
  | @variadic e _ m hinner hstar =>
    have he := h _ _ _ _ hp hinner
    have hcovers := he.covers.spanTo (Nat.le_succ m) (Stream.lt_size_of_reads hstar)
    rw [Node.span_ofExpr] at hcovers
    have hnode : Written stream Q (ofExpr (.variadic e (stream.spanTo e.span (m + 1)))) p (m + 1) :=
      .intro hcovers (U.plain rfl) (he.single (Nat.le_refl p) (Nat.le_succ m))
    exact hnode.single (Nat.le_refl p) (Nat.le_refl _)

theorem Slots.written (h : WrittenFrom stream Q n) (hp : n ≤ p) {slots : List (Option Expr)}
    (hslots : Slots stream (expression stream) slots p q) :
    WrittenInOrder stream Q (ofSlots slots) p q := by
  induction hslots with
  | last hslot =>
    rw [Node.ofSlots_cons]
    exact (hslot.written U h hp).append (.nil (Nat.le_refl _))
  | cons hslot hcomma hrest ih =>
    have hle := (hslot.advances (expression_advances stream)).1
    rw [Node.ofSlots_cons]
    exact (hslot.written U h hp).append ((ih (by omega)).mono (Nat.le_succ _) (Nat.le_refl _))

theorem list_written (h : WrittenFrom stream Q n) (hp : n ≤ p) {elements : List (Option Expr)}
    (hlist : list stream (expression stream) p = .ok (elements, q)) :
    WrittenInOrder stream Q (ofSlots elements) p q := by
  rcases list_reads hlist with ⟨rfl, rfl⟩ | hslots
  · exact .nil (Nat.le_refl q)
  · exact hslots.written U h hp

theorem Pair.written (h : WrittenFrom stream Q n) (hp : n ≤ p) {property : Property}
    (hpair : Pair stream (expression stream) property p q) :
    Written stream Q (.property property) p q := by
  obtain @⟨name, value, _, colon, _, hname, hcolon, hvalue⟩ := hpair
  have hname := h _ _ _ _ hp hname
  have hlt := hname.lt
  have hvalue := h _ _ _ _ (by omega) hvalue
  have hcovers := hname.covers.to (Nat.le_succ colon) hvalue.covers
  rw [Node.span_ofExpr, Node.span_ofExpr] at hcovers
  exact .intro hcovers (U.plain rfl)
    (.cons (Nat.le_refl p) hname (hvalue.single (Nat.le_succ colon) (Nat.le_refl q)))

theorem Properties.written (h : WrittenFrom stream Q n) (hp : n ≤ p) {properties : List Property}
    (hproperties : Properties stream (expression stream) properties p q) :
    WrittenInOrder stream Q (properties.map .property) p q := by
  induction hproperties with
  | last hpair hbrace => exact (hpair.written U h hp).single (Nat.le_refl _) (Nat.le_succ _)
  | cons hpair hcomma hrest ih =>
    have hlt := (hpair.advances (expression_advances stream)).1
    exact .cons (Nat.le_refl _) (hpair.written U h hp)
      ((ih (by omega)).mono (Nat.le_succ _) (Nat.le_refl _))

theorem Primary.written {e : Expr} (h : WrittenFrom stream Q (p + 1))
    (hprimary : Primary stream (expression stream) p e q) : Written stream Q (ofExpr e) p q := by
  have hQ := U.primary hprimary
  have hadv := hprimary.advances (expression_advances stream)
  cases hprimary with
  | identifier htoken => exact .intro (Stream.covers_token htoken) hQ (.nil (Nat.le_succ p))
  | literal htoken => exact .intro (Stream.covers_token htoken) hQ (.nil (Nat.le_succ p))
  | leading htoken hprecedence hinner =>
    have hargument := h _ _ _ _ (Nat.le_refl _) hinner
    have hcovers := (Stream.covers_token htoken).to (Nat.le_refl _) hargument.covers
    rw [Node.span_ofExpr] at hcovers
    exact .intro hcovers hQ (hargument.single (Nat.le_succ p) (Nat.le_refl q))
  | @group inside m hopen hinner hclose =>
    have hinside := h _ _ _ _ (Nat.le_refl _) hinner
    exact .intro (Stream.covers_spanTo_spanAt hadv.1 hadv.2) hQ
      (hinside.single (Nat.le_succ p) (Nat.le_succ m))
  | @array _ elements m htoken hlist hclose =>
    have helements := list_written U h (Nat.le_refl _) hlist
    exact .intro (Stream.covers_spanTo htoken hadv.1 hadv.2) hQ
      (helements.mono (Nat.le_succ p) (Nat.le_succ m))
  | emptyObject htoken hbrace =>
    exact .intro (Stream.covers_spanTo htoken hadv.1 hadv.2) hQ (.nil (Nat.le_of_lt hadv.1))
  | object htoken hproperties =>
    have hproperties := hproperties.written U h (Nat.le_refl _)
    exact .intro (Stream.covers_spanTo htoken hadv.1 hadv.2) hQ
      (hproperties.mono (Nat.le_succ p) (Nat.le_refl q))

theorem Step.written {floor : Floor} {left e : Expr} (h : WrittenFrom stream Q (p + 1))
    (hclimbs : Climbs stream floor p left m) (hleft : Written stream Q (ofExpr left) p m)
    (hcontinues : stream.continues m = true)
    (hstep : Step stream (expression stream) floor left m e q) :
    Written stream Q (ofExpr e) p q := by
  have hQ := U.step hclimbs hcontinues hstep
  have hadv := hstep.advances (expression_advances stream)
  have hlt := hleft.lt
  have hspan := hleft.covers
  rw [Node.span_ofExpr] at hspan
  -- in each case the parts stand behind `left`, and the span of `left` is stretched over them
  cases hstep with
  | dotMember hdot hname hword =>
    have hname' := IsName.written U ⟨_, hname, hword, rfl, rfl⟩
    exact .intro (hspan.to (Nat.le_succ m) (Stream.covers_token hname)) hQ
      (.cons (Nat.le_refl p) hleft (hname'.single (Nat.le_succ m) (Nat.le_refl _)))
  | indexMember hopen hline hinner hclose =>
    have hproperty := h _ _ _ _ (by omega) hinner
    exact .intro (hspan.spanTo (Nat.le_of_lt hadv.1) hadv.2) hQ
      (.cons (Nat.le_refl p) hleft (hproperty.single (Nat.le_succ m) (Nat.le_succ _)))
  | call hopen htouches hlist hclose =>
    have harguments := list_written U h (by omega) hlist
    exact .intro (hspan.spanTo (Nat.le_of_lt hadv.1) hadv.2) hQ
      (.cons (Nat.le_refl p) hleft (harguments.mono (Nat.le_succ m) (Nat.le_succ _)))
  | binary htoken hprecedence hadmits hinner =>
    have hright := h _ _ _ _ (by omega) hinner
    have hcovers := hspan.to (Nat.le_succ m) hright.covers
    rw [Node.span_ofExpr] at hcovers
    exact .intro hcovers hQ
      (.cons (Nat.le_refl p) hleft (hright.single (Nat.le_succ m) (Nat.le_refl q)))
  | trailing htoken =>
    exact .intro (hspan.to (Nat.le_refl m) (Stream.covers_token htoken)) hQ
      (hleft.single (Nat.le_refl p) (Nat.le_succ m))
  | @conditional consequent alternate colon _ hreads hadmits hconsequent hcolon halternate =>
    have hconsequent := h _ _ _ _ (by omega) hconsequent
    have hlt' := hconsequent.lt
    have halternate := h _ _ _ _ (by omega) halternate
    have hcovers := hspan.to (by omega) halternate.covers
    rw [Node.span_ofExpr] at hcovers
    exact .intro hcovers hQ (.cons (Nat.le_refl p) hleft (.cons (Nat.le_succ m) hconsequent
      (halternate.single (Nat.le_succ colon) (Nat.le_refl q))))
  | concat hadmits hline hinner =>
    have hright := h _ _ _ _ (by omega) hinner
    have hcovers := hspan.to (Nat.le_refl m) hright.covers
    rw [Node.span_ofExpr] at hcovers
    exact .intro hcovers hQ
      (.cons (Nat.le_refl p) hleft (hright.single (Nat.le_refl m) (Nat.le_refl q)))

theorem Climbs.writtenFrom {floor : Floor} {e : Expr} (h : WrittenFrom stream Q (p + 1))
    (hclimbs : Climbs stream floor p e q) : Written stream Q (ofExpr e) p q := by
  induction hclimbs with
  | start hprimary => exact hprimary.written U h
  | step hclimbs hcontinues hstep ih => exact hstep.written U h hclimbs ih hcontinues

theorem expression_written : WrittenFrom stream Q n := by
  -- by induction on the number of tokens from the start on: the expressions inside start later
  suffices h : ∀ bound n, stream.size - n ≤ bound → WrittenFrom stream Q n from
    h (stream.size - n) n (Nat.le_refl _)
  intro bound
  induction bound with
  | zero =>
    intro n hbound floor p e q hp hexpression
    have := expression_advances stream _ _ _ _ hexpression
    omega
  | succ bound ih =>
    intro n hbound floor p e q hp hexpression
    have hadv := expression_advances stream _ _ _ _ hexpression
    exact (expression_climbs hexpression).1.writtenFrom U (ih (p + 1) (by omega))

theorem Climbs.written {floor : Floor} {e : Expr} (h : Climbs stream floor p e q) :
    Written stream Q (ofExpr e) p q :=
  h.writtenFrom U (expression_written U)

end HotkeyScript.Grammar
