import HotkeyScript.Grammar.Expression
import HotkeyScript.Proofs.Grammar.Outcome

/-!
# What the rules of expressions read

For each rule of the expression grammar, what it has found where it matches. The parser of the
expressions inside is still an argument, so these laws hold for every bound on the nesting. A proof
about expressions goes through the cases of `Grammar.Primary` and `Grammar.Step` and never opens a
rule.

## Main definitions

* `Grammar.Slots`, `Grammar.Properties` — what a list and an object hold between their brackets.
* `Grammar.Primary` — the expressions that start with no operand.
* `Grammar.Step` — the steps to the right of an expression.
-/

namespace HotkeyScript.Grammar

variable {stream : Stream} {inner : ExprParser}

/-! ## Lists -/

/-- What one place of a list holds. -/
inductive Slot (stream : Stream) (inner : ExprParser) : Option Expr → Nat → Nat → Prop
  | empty {p : Nat} : Slot stream inner none p p
  | element {e : Expr} {p q : Nat} : inner (.above Operator.comma) p = .ok (some (e, q)) →
      Slot stream inner (some e) p q
  | variadic {e : Expr} {p q : Nat} : inner (.above Operator.comma) p = .ok (some (e, q)) →
      stream.reads q "*" = true →
      Slot stream inner (some (.variadic e (stream.spanTo e.span (q + 1)))) p (q + 1)

/-- The places of a list, with a comma between two of them. There is one place at least. -/
inductive Slots (stream : Stream) (inner : ExprParser) : List (Option Expr) → Nat → Nat → Prop
  | last {slot : Option Expr} {p q : Nat} : Slot stream inner slot p q →
      Slots stream inner [slot] p q
  | cons {slot : Option Expr} {slots : List (Option Expr)} {p m q : Nat} :
      Slot stream inner slot p m → stream.reads m "," = true →
      Slots stream inner slots (m + 1) q → Slots stream inner (slot :: slots) p q

theorem slot_reads {element : Option Expr} {p q : Nat}
    (h : slot stream inner p = .ok (element, q)) : Slot stream inner element p q := by
  simp only [slot, bind_eq_ok] at h
  obtain ⟨outcome, hinner, h⟩ := h
  rcases outcome with _ | ⟨e, next⟩
  · cases h
    exact .empty
  · simp only at h
    split at h
    · next hstar =>
      cases h
      exact .variadic hinner hstar
    · cases h
      exact .element hinner

theorem slotsWithin_reads {bound : Nat} {elements : List (Option Expr)} {p q : Nat}
    (h : slotsWithin stream inner bound p = .ok (elements, q)) :
    Slots stream inner elements p q := by
  induction bound generalizing elements p with
  | zero =>
    cases h
    exact .last .empty
  | succ bound ih =>
    simp only [slotsWithin, bind_eq_ok] at h
    obtain ⟨⟨element, next⟩, hslot, h⟩ := h
    simp only at h
    split at h
    · next hcomma =>
      simp only [bind_eq_ok] at h
      obtain ⟨⟨rest, stop⟩, hrest, h⟩ := h
      cases h
      exact .cons (slot_reads hslot) hcomma (ih hrest)
    · cases h
      exact .last (slot_reads hslot)

/-- A single place with nothing in it reads nothing. -/
theorem Slots.eq_of_singleton_none {p q : Nat} (h : Slots stream inner [none] p q) : q = p := by
  cases h with
  | last hslot => cases hslot; rfl
  | cons hslot hcomma hrest => cases hrest

/-- A list has no elements and reads nothing, or it has places. -/
theorem list_reads {elements : List (Option Expr)} {p q : Nat}
    (h : list stream inner p = .ok (elements, q)) :
    elements = [] ∧ q = p ∨ Slots stream inner elements p q := by
  simp only [list, bind_eq_ok] at h
  obtain ⟨⟨slots, stop⟩, hslots, h⟩ := h
  have hslots := slotsWithin_reads hslots
  split at h
  · next heq =>
    cases heq
    cases h
    exact .inl ⟨rfl, hslots.eq_of_singleton_none⟩
  · next heq =>
    cases heq
    cases h
    exact .inr hslots

/-! ## Objects -/

/-- A property: a key, a colon and a value. -/
inductive Pair (stream : Stream) (inner : ExprParser) : Property → Nat → Nat → Prop
  | mk {key value : Expr} {p colon q : Nat} : inner .closed p = .ok (some (key, colon)) →
      Expected stream colon ":" →
      inner (.above Operator.comma) (colon + 1) = .ok (some (value, q)) →
      Pair stream inner (.mk key value (key.span.to value.span.stop)) p q

/-- The properties of an object, with a comma between two of them and a brace behind the last. -/
inductive Properties (stream : Stream) (inner : ExprParser) : List Property → Nat → Nat → Prop
  | last {property : Property} {p m : Nat} : Pair stream inner property p m →
      stream.reads m "\x7d" = true → Properties stream inner [property] p (m + 1)
  | cons {property : Property} {properties : List Property} {p m q : Nat} :
      Pair stream inner property p m → stream.reads m "," = true →
      Properties stream inner properties (m + 1) q →
      Properties stream inner (property :: properties) p q

theorem propertiesWithin_reads {bound : Nat} {properties : List Property} {p q : Nat}
    (h : propertiesWithin stream inner bound p = .ok (properties, q)) :
    Properties stream inner properties p q := by
  induction bound generalizing properties p with
  | zero => cases h
  | succ bound ih =>
    simp only [propertiesWithin, bind_eq_ok, required_eq_ok, expect_eq_ok, exists_const] at h
    obtain ⟨⟨key, colon⟩, hkey, hcolon, ⟨value, next⟩, hvalue, h⟩ := h
    have hpair : Pair stream inner _ p next := .mk hkey hcolon hvalue
    simp only at h
    split at h
    · next hcomma =>
      simp only [bind_eq_ok] at h
      obtain ⟨⟨rest, stop⟩, hrest, h⟩ := h
      cases h
      exact .cons hpair hcomma (ih hrest)
    · split at h
      · next hbrace =>
        cases h
        exact .last hpair hbrace
      · cases h

/-! ## Primary expressions -/

/-- The expressions that start with no operand. -/
inductive Primary (stream : Stream) (inner : ExprParser) (p : Nat) : Expr → Nat → Prop
  | identifier {token : Token} : stream.token? p = some token → token.kind = .word →
      Keyword.isClause token = false →
      Primary stream inner p (.identifier (identifier token)) (p + 1)
  | literal {token : Token} {value : Value} : stream.token? p = some token →
      literalValue stream token p = .ok value →
      Primary stream inner p (.literal { value, raw := token.text, span := token.span }) (p + 1)
  | leading {token : Token} {precedence : Nat} {argument : Expr} {q : Nat} :
      stream.token? p = some token → Operator.leading? token.text = some precedence →
      inner (.above precedence) (p + 1) = .ok (some (argument, q)) →
      Primary stream inner p
        (.unary token.text true argument (token.span.to argument.span.stop)) q
  | group {e : Expr} {m : Nat} : Expected stream p "(" →
      inner .any (p + 1) = .ok (some (e, m)) → Expected stream m ")" →
      Primary stream inner p (.group e (stream.spanTo (stream.spanAt p) (m + 1))) (m + 1)
  | array {token : Token} {elements : List (Option Expr)} {m : Nat} :
      stream.token? p = some token → list stream inner (p + 1) = .ok (elements, m) →
      Expected stream m "]" → token.text = "[" →
      Primary stream inner p (.array elements (stream.spanTo token.span (m + 1))) (m + 1)
  | emptyObject {token : Token} : stream.token? p = some token →
      stream.reads (p + 1) "\x7d" = true → token.text = "\x7b" →
      Primary stream inner p (.object [] (stream.spanTo token.span (p + 2))) (p + 2)
  | object {token : Token} {properties : List Property} {q : Nat} :
      stream.token? p = some token → Properties stream inner properties (p + 1) q →
      token.text = "\x7b" →
      Primary stream inner p (.object properties (stream.spanTo token.span q)) q

theorem group_reads {e : Expr} {p q : Nat} (h : group stream inner p = .ok (e, q)) :
    Primary stream inner p e q := by
  simp only [group, bind_eq_ok, required_eq_ok, expect_eq_ok, exists_const] at h
  obtain ⟨hopen, ⟨inside, next⟩, hinside, hclose, h⟩ := h
  cases h
  exact .group hopen hinside hclose

theorem array_reads {token : Token} {e : Expr} {p q : Nat} (htoken : stream.token? p = some token)
    (htext : token.text = "[") (h : array stream inner token p = .ok (e, q)) :
    Primary stream inner p e q := by
  simp only [array, bind_eq_ok, expect_eq_ok, exists_const] at h
  obtain ⟨⟨elements, next⟩, hlist, hclose, h⟩ := h
  cases h
  exact .array htoken hlist hclose htext

theorem object_reads {token : Token} {e : Expr} {p q : Nat}
    (htoken : stream.token? p = some token) (htext : token.text = "\x7b")
    (h : object stream inner token p = .ok (e, q)) :
    Primary stream inner p e q := by
  unfold object at h
  split at h
  · next hbrace =>
    cases h
    exact .emptyObject htoken hbrace htext
  · simp only [bind_eq_ok] at h
    obtain ⟨⟨properties, stop⟩, hproperties, h⟩ := h
    cases h
    exact .object htoken (propertiesWithin_reads hproperties) htext

theorem leadingOperator_reads {token : Token} {e : Expr} {p q : Nat}
    (htoken : stream.token? p = some token)
    (h : leadingOperator inner token p = .ok (some (e, q))) : Primary stream inner p e q := by
  unfold leadingOperator at h
  split at h
  · cases h
  · next precedence hprecedence =>
    simp only [bind_eq_ok] at h
    obtain ⟨_ | ⟨argument, next⟩, hinner, h⟩ := h
    · cases h
    · cases h
      exact .leading htoken hprecedence hinner

theorem bracketed_reads {token : Token} {e : Expr} {p q : Nat}
    (htoken : stream.token? p = some token)
    (h : bracketed stream inner token p = .ok (some (e, q))) : Primary stream inner p e q := by
  unfold bracketed at h
  repeat' split at h
  · obtain ⟨result, hgroup, h⟩ := map_eq_ok.mp h
    cases h
    exact group_reads hgroup
  · next htext =>
    obtain ⟨result, harray, h⟩ := map_eq_ok.mp h
    cases h
    exact array_reads htoken (by simpa using htext) harray
  · next hguard =>
    simp only [Bool.and_eq_true, beq_iff_eq] at hguard
    obtain ⟨result, hobject, h⟩ := map_eq_ok.mp h
    cases h
    exact object_reads htoken hguard.1 hobject
  · cases h

theorem primary_reads {e : Expr} {p q : Nat} (h : primary stream inner p = .ok (some (e, q))) :
    Primary stream inner p e q := by
  unfold primary at h
  split at h
  · cases h
  · next token htoken =>
    split at h
    · next hword =>
      split at h
      · cases h
      · next hclause =>
        cases h
        exact .identifier htoken hword (by simpa using hclause)
    · simp only [literal, bind_eq_ok] at h
      obtain ⟨value, hvalue, h⟩ := h
      cases h
      exact .literal htoken hvalue
    · simp only [literal, bind_eq_ok] at h
      obtain ⟨value, hvalue, h⟩ := h
      cases h
      exact .literal htoken hvalue
    · simp only [literal, bind_eq_ok] at h
      obtain ⟨value, hvalue, h⟩ := h
      cases h
      exact .literal htoken hvalue
    · rcases orTry_eq_found.mp h with h | ⟨-, h⟩
      · exact leadingOperator_reads htoken h
      · exact bracketed_reads htoken h
    · cases h

/-! ## Steps to the right -/

/-- The steps to the right of an expression. -/
inductive Step (stream : Stream) (inner : ExprParser) (floor : Floor) (left : Expr) (p : Nat) :
    Expr → Nat → Prop
  | dotMember {name : Token} : stream.reads p "." = true → stream.token? (p + 1) = some name →
      name.kind = .word → stream.startsLine p = false → stream.touchesPrevious (p + 1) = true →
      Step stream inner floor left p
        (.member left (.identifier (identifier name)) false (left.span.to name.span.stop)) (p + 2)
  | indexMember {property : Expr} {m : Nat} : stream.reads p "[" = true →
      stream.startsLine p = false → inner .any (p + 1) = .ok (some (property, m)) →
      Expected stream m "]" →
      Step stream inner floor left p
        (.member left property true (stream.spanTo left.span (m + 1))) (m + 1)
  | call {arguments : List (Option Expr)} {m : Nat} : stream.reads p "(" = true →
      stream.touchesPrevious p = true → list stream inner (p + 1) = .ok (arguments, m) →
      Expected stream m ")" →
      Step stream inner floor left p
        (.call left arguments (stream.spanTo left.span (m + 1))) (m + 1)
  | binary {token : Token} {precedence : Nat} {right : Expr} {q : Nat} :
      stream.token? p = some token → Operator.binary? token.text = some precedence →
      floor.admitsBinary precedence = true →
      inner (.above precedence) (p + 1) = .ok (some (right, q)) →
      Step stream inner floor left p
        (.binary token.text left right (left.span.to right.span.stop)) q
  | trailing {token : Token} : stream.token? p = some token →
      (token.text == "++" || token.text == "--") = true → stream.startsLine p = false →
      Step stream inner floor left p
        (.unary token.text false left (left.span.to token.span.stop)) (p + 1)
  | conditional {consequent alternate : Expr} {colon q : Nat} : stream.reads p "?" = true →
      floor.admits Operator.conditional = true →
      inner (.above Operator.comma) (p + 1) = .ok (some (consequent, colon)) →
      Expected stream colon ":" →
      inner (.above Operator.assignment) (colon + 1) = .ok (some (alternate, q)) →
      Step stream inner floor left p
        (.conditional left consequent alternate (left.span.to alternate.span.stop)) q
  | concat {right : Expr} {q : Nat} : floor.admits Operator.concatenation = true →
      stream.startsLine p = false →
      inner (.above Operator.concatenation) p = .ok (some (right, q)) →
      Step stream inner floor left p (.concat left right (left.span.to right.span.stop)) q

variable {floor : Floor} {left e : Expr} {p q : Nat}

theorem dotMember_reads (h : dotMember stream left p = .ok (some (e, q))) :
    Step stream inner floor left p e q := by
  unfold dotMember at h
  split at h
  · cases h
  · next name hname =>
    split at h
    · next hguard =>
      simp only [Bool.and_eq_true, Bool.not_eq_eq_eq_not, Bool.not_true, decide_eq_true_eq] at hguard
      cases h
      exact .dotMember hguard.1.1.1 hname hguard.1.2 hguard.1.1.2 hguard.2
    · cases h

theorem indexMember_reads (h : indexMember stream inner left p = .ok (some (e, q))) :
    Step stream inner floor left p e q := by
  unfold indexMember at h
  split at h
  · next hguard =>
    simp only [bind_eq_ok, required_eq_ok, expect_eq_ok, exists_const] at h
    simp only [Bool.and_eq_true, Bool.not_eq_eq_eq_not, Bool.not_true] at hguard
    obtain ⟨⟨property, next⟩, hproperty, hclose, h⟩ := h
    cases h
    exact .indexMember hguard.1 hguard.2 hproperty hclose
  · cases h

theorem call_reads (h : call stream inner left p = .ok (some (e, q))) :
    Step stream inner floor left p e q := by
  unfold call at h
  split at h
  · next hguard =>
    simp only [bind_eq_ok, expect_eq_ok, exists_const] at h
    simp only [Bool.and_eq_true] at hguard
    obtain ⟨⟨arguments, next⟩, hlist, hclose, h⟩ := h
    cases h
    exact .call hguard.1 hguard.2 hlist hclose
  · cases h

theorem binary_reads (h : binary stream inner floor left p = .ok (some (e, q))) :
    Step stream inner floor left p e q := by
  unfold binary at h
  split at h
  · cases h
  · next token htoken =>
    split at h
    · cases h
    · next precedence hprecedence =>
      split at h
      · next hadmits =>
        simp only [bind_eq_ok] at h
        obtain ⟨_ | ⟨right, next⟩, hright, h⟩ := h
        · cases h
        · cases h
          exact .binary htoken hprecedence hadmits hright
      · cases h

theorem trailingOperator_reads (h : trailingOperator stream left p = .ok (some (e, q))) :
    Step stream inner floor left p e q := by
  unfold trailingOperator at h
  split at h
  · cases h
  · next token htoken =>
    split at h
    · next hguard =>
      simp only [Bool.and_eq_true, Bool.not_eq_eq_eq_not, Bool.not_true] at hguard
      cases h
      exact .trailing htoken hguard.1 hguard.2
    · cases h

theorem conditional_reads (h : conditional stream inner floor left p = .ok (some (e, q))) :
    Step stream inner floor left p e q := by
  unfold conditional at h
  split at h
  · next hguard =>
    simp only [bind_eq_ok, required_eq_ok, expect_eq_ok, exists_const] at h
    simp only [Bool.and_eq_true] at hguard
    obtain ⟨⟨consequent, colon⟩, hconsequent, hcolon, ⟨alternate, next⟩, halternate, h⟩ := h
    cases h
    exact .conditional hguard.1 hguard.2 hconsequent hcolon halternate
  · cases h

theorem concatenation_reads (h : concatenation stream inner floor left p = .ok (some (e, q))) :
    Step stream inner floor left p e q := by
  unfold concatenation at h
  split at h
  · next hguard =>
    simp only [bind_eq_ok] at h
    simp only [Bool.and_eq_true, Bool.not_eq_eq_eq_not, Bool.not_true] at hguard
    obtain ⟨_ | ⟨right, next⟩, hright, h⟩ := h
    · cases h
    · cases h
      exact .concat hguard.1 hguard.2 hright
  · cases h

/-- A step is taken on the logical line of the expression. -/
theorem extend_reads (h : extend stream inner floor left p = .ok (some (e, q))) :
    stream.continues p = true ∧ Step stream inner floor left p e q := by
  unfold extend at h
  split at h
  · next hcontinues =>
    refine ⟨hcontinues, ?_⟩
    simp only [orTry_eq_found] at h
    rcases h with h | ⟨-, h | ⟨-, h | ⟨-, h | ⟨-, h | ⟨-, h | ⟨-, h⟩⟩⟩⟩⟩⟩
    · exact dotMember_reads h
    · exact indexMember_reads h
    · exact call_reads h
    · exact binary_reads h
    · exact trailingOperator_reads h
    · exact conditional_reads h
    · exact concatenation_reads h
  · cases h

end HotkeyScript.Grammar
