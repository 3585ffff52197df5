import HotkeyScript.Proofs.Grammar.ListEnd
import HotkeyScript.Proofs.Grammar.Window.Text

/-!
# Expressions in a window

An expression in a window is the same expression in the outer stream, unless it ends, or would have
to start, before operators that lack an operand and fill the rest of the window. What follows the
window could then be their operand. A list may also be carried on by what follows the window if it
ends there; a list in brackets does not.

## Main definitions

* `Grammar.Short` — an expression is cut short by operators that lack an operand.
* `Grammar.Leaves` — operators that lack an operand are left behind what was read.
* `Grammar.ExprCarried` — expressions at a position of a window are those of the outer stream.
* `Grammar.ListLost` — a list is cut short, or carried on behind the window.
-/

namespace HotkeyScript.Grammar

open HotkeyScript.Stream (Window)
open Operator (IsOperator)

variable {stream : Stream} {floor : Floor} {p q : Nat}

/-! ## Expressions that are cut short -/

/-- The expression that starts at a position ends before operators that lack an operand, or there is
none because of them. -/
def Short (stream : Stream) (floor : Floor) (p : Nat) : Option (Read Expr) → Prop
  | none => Lacking stream p
  | some (_, q) => Stuck stream floor q

/-- The step of an expression ends before operators that lack an operand, or there is none because
of them. -/
def ShortStep (stream : Stream) (floor : Floor) (p : Nat) : Option (Read Expr) → Prop
  | none => Stuck stream floor p
  | some (_, q) => ∀ floor, Stuck stream floor q

/-- Operators that lack an operand are left behind what was read. -/
def Leaves {α : Type} (stream : Stream) (read : Read α) : Prop :=
  Dangling stream read.2 ∧ read.2 < stream.size

theorem Stuck.leaves {α : Type} {stream : Stream} {floor : Floor} {read : Read α}
    (h : Stuck stream floor read.2) : Leaves stream read :=
  ⟨h.dangling, h.lt⟩

theorem Dangling.expect_ne {α : Type} {text : String} (h : Dangling stream p)
    (htext : ¬ IsOperator text) (rest : Checked α) (a : α) :
    (expect stream p text >>= fun _ => rest) ≠ .ok a := by
  intro heq
  obtain ⟨_, hexpected, -⟩ := bind_eq_ok.mp heq
  exact h.not_expected (Nat.le_refl p) htext (expect_eq_ok.mp hexpected)

section Window

variable {inner outer : Stream} {n lines : Nat} {before after : Source}
  (w : Window inner outer n lines before after) {i : Nat}

/-- Expressions at the position are those of the outer stream, unless they are cut short. -/
def ExprCarried (p : Nat) : Prop :=
  ∀ floor, w.Carries (Short inner floor p) (Option.map (carry n (Expr.mapSpan w.move)))
    (expression inner floor p) (expression outer floor (n + p))

variable {w}

/-! ## Lists -/

variable (w) in
/-- The list is cut short by operators that lack an operand, or it ends with the window and reads on
behind it. -/
def ListLost (read : Read (List (Option Expr))) : Prop :=
  w.Supplied ∧ Leaves inner read ∨
    read.2 = inner.size ∧ readsOn outer read.1 (n + inner.size) = true

theorem slot_window (hp : p ≤ inner.size) (h : ExprCarried w p) :
    Yields
      (fun read => w.Supplied ∧ Leaves inner read ∨
        read.2 = inner.size ∧ slotReadsOn outer read.1 (n + inner.size) = true)
      (carry n (Option.map (Expr.mapSpan w.move)))
      (slot inner (expression inner) p) (slot outer (expression outer) (n + p)) := by
  refine Yields.bind (h (.above Operator.comma)) ?_ ?_
  · rintro (_ | ⟨e, q⟩) - ⟨hsupplied, hshort⟩ read hread
    · cases hread
      rcases Nat.eq_or_lt_of_le hp with rfl | hlt
      · exact .inr ⟨rfl, hsupplied⟩
      · exact .inl ⟨hsupplied, hshort.dangling, hlt⟩
    · have hlt := hshort.lt
      simp only at hread
      split at hread
      · cases hread
        rcases Nat.eq_or_lt_of_le (show q + 1 ≤ inner.size from hlt) with heq | hlt
        · exact .inr ⟨heq, hsupplied⟩
        · exact .inl ⟨hsupplied, hshort.dangling.mono (Nat.le_succ q), hlt⟩
      · cases hread
        exact .inl ⟨hsupplied, hshort.dangling, hlt⟩
  · rintro (_ | ⟨e, q⟩) hread
    · exact .ok rfl
    · have hq := (expression_advances inner _ _ _ _ hread).2
      simp only [Option.map_some, carry_mk]
      rcases Nat.eq_or_lt_of_le hq with rfl | hlt
      · -- the star that makes the element variadic may follow the window
        rw [Stream.reads_of_size_le (Nat.le_refl _)]
        by_cases hstar : outer.reads (n + inner.size) "*" = true
        · rintro _ ⟨⟩
          exact .inl (.inr ⟨rfl, by simp [slotReadsOn, kind_ne_variadic hread, hstar]⟩)
        · rw [if_neg hstar]
          exact .ok rfl
      · rw [w.reads hlt]
        split
        · refine .ok ?_
          simp only [Expr.span_mapSpan, Nat.add_assoc, w.spanTo (Nat.succ_pos q) hlt]
          rfl
        · exact .ok rfl

theorem slots_window (hp : p ≤ inner.size) (h : ∀ q, p ≤ q → q ≤ inner.size → ExprCarried w q) :
    Yields (ListLost w) (carry n (mapSlots w.move))
      (slots inner (expression inner) p) (slots outer (expression outer) (n + p)) := by
  induction hn : inner.size - p using Nat.strongRecOn generalizing p with
  | ind m ih =>
    have hcomma : inner.reads inner.size "," = false := Stream.reads_of_size_le (Nat.le_refl _) _
    rw [slots_eq (expression_advances inner), slots_eq (expression_advances outer)]
    refine (slot_window hp (h p (Nat.le_refl p) hp)).bind ?_ ?_
    · rintro ⟨element, next⟩ hslot (⟨hsupplied, hdangling, hlt⟩ | ⟨rfl, hreadsOn⟩)
        ⟨elements, stop⟩ hread
      · -- only empty places follow, and an operand behind the window would fill the last of them
        simp only at hdangling hlt hread
        split at hread
        · obtain ⟨⟨rest, stop'⟩, hrest, hread⟩ := bind_eq_ok.mp hread
          cases hread
          obtain ⟨hstop, hlast⟩ := (hdangling.mono (Nat.le_succ next)).slots hrest
          have hslots := slotsWithin_reads hrest
          have hbound := (hslots.advances (expression_advances inner)).2 hlt
          rcases Nat.eq_or_lt_of_le hbound with rfl | hbound
          · refine .inr ⟨rfl, ?_⟩
            rw [readsOn_cons _ _ (slots_ne_nil hslots), readsOn, hlast, slotReadsOn_none,
              show startsOperand outer (n + inner.size) = true from hsupplied, Bool.or_true]
          · exact .inl ⟨hsupplied, hstop, hbound⟩
        · cases hread
          exact .inl ⟨hsupplied, hdangling, hlt⟩
      · simp only [hcomma, Bool.false_eq_true, if_false] at hread
        cases hread
        exact .inr ⟨rfl, by rw [readsOn_singleton, hreadsOn, Bool.or_true]⟩
    · rintro ⟨element, next⟩ hslot
      have hbounds := (slot_reads hslot).advances (expression_advances inner)
      simp only
      rcases Nat.eq_or_lt_of_le (hbounds.2 hp) with rfl | hlt
      · -- a comma may follow the window
        rw [hcomma]
        by_cases hfollows : outer.reads (n + inner.size) "," = true
        · rintro _ ⟨⟩
          exact .inl (.inr ⟨rfl, by rw [readsOn_singleton, hfollows, Bool.true_or]⟩)
        · rw [if_neg hfollows]
          refine .ok ?_
          cases element <;> rfl
      · rw [w.reads hlt]
        split
        · refine (ih _ (by omega) (show next + 1 ≤ inner.size from hlt)
            (fun q hq => h q (by omega)) rfl).bind ?_ ?_
          · rintro ⟨elements, stop⟩ hrest hlost read hread
            cases hread
            rw [ListLost, readsOn_cons _ _ (slots_ne_nil (slotsWithin_reads hrest))]
            exact hlost
          · rintro ⟨elements, stop⟩ -
            refine .ok ?_
            cases element <;> rfl
        · refine .ok ?_
          cases element <;> rfl

theorem list_window (hp : p ≤ inner.size) (h : ∀ q, p ≤ q → q ≤ inner.size → ExprCarried w q) :
    Yields (ListLost w) (carry n (mapSlots w.move))
      (list inner (expression inner) p) (list outer (expression outer) (n + p)) := by
  rw [list_eq, list_eq]
  refine (slots_window hp h).bind ?_ ?_
  · rintro ⟨elements, stop⟩ - hlost read hread
    split at hread <;> next heq => cases heq; cases hread; exact hlost
  · rintro ⟨elements, stop⟩ -
    rcases elements with _ | ⟨_ | element, _ | ⟨_ | _, _⟩⟩ <;> exact .ok rfl

/-- A list that is lost is not closed by a bracket. -/
theorem ListLost.expect_ne {α : Type} {read : Read (List (Option Expr))} {text : String}
    (h : ListLost w read) (htext : ¬ IsOperator text) (rest : Checked α) (a : α) :
    (expect inner read.2 text >>= fun _ => rest) ≠ .ok a := by
  rcases h with ⟨-, hdangling, -⟩ | ⟨heq, -⟩
  · exact hdangling.expect_ne htext rest a
  · exact (lacking_of_size_le (Nat.le_of_eq heq.symm)).dangling.expect_ne htext rest a

/-! ## Objects -/

theorem properties_window (hp : p ≤ inner.size)
    (h : ∀ q, p ≤ q → q ≤ inner.size → ExprCarried w q) :
    w.CarriesAll (carry n (mapProperties w.move))
      (properties inner (expression inner) p) (properties outer (expression outer) (n + p)) := by
  induction hn : inner.size - p using Nat.strongRecOn generalizing p with
  | ind m ih =>
    rw [properties_eq (expression_advances inner), properties_eq (expression_advances outer)]
    refine ((h p (Nat.le_refl p) hp .closed).required _ _).bind ?_ ?_
    · rintro ⟨key, colon⟩ - - hshort read hread
      exact hshort.dangling.expect_ne (by decide) _ _ hread
    · rintro ⟨key, colon⟩ hkey
      have hcolon := expression_advances inner _ _ _ _ (required_eq_ok.mp hkey)
      refine .expect fun hexpected => ?_
      have hsize := hexpected.lt_size
      refine ((h (colon + 1) (by omega) hsize (.above Operator.comma)).required _ _).bind ?_ ?_
      · rintro ⟨value, next⟩ - - hshort read hread
        have hcomma : inner.reads next "," = false := by
          rw [Bool.eq_false_iff]
          intro hcomma
          cases hshort.comma hcomma
        have hbrace : inner.reads next "\x7d" = false :=
          hshort.dangling.reads (Nat.le_refl next) (by decide)
        simp [hcomma, hbrace] at hread
      · rintro ⟨value, next⟩ hvalue
        have hnext := expression_advances inner _ _ _ _ (required_eq_ok.mp hvalue)
        rcases Nat.eq_or_lt_of_le hnext.2 with rfl | hnext'
        · simp only [Stream.reads_of_size_le (Nat.le_refl _), Bool.false_eq_true, if_false]
          exact .error _
        simp only [w.reads hnext']
        split
        · next hcomma =>
          have hlt := Stream.lt_size_of_reads hcomma
          refine (ih _ (by omega) (show next + 1 ≤ inner.size from hlt)
            (fun q hq => h q (by omega)) rfl).bindAll ?_
          rintro ⟨more, stop⟩ -
          refine .ok ?_
          simp only [carry_mk, mapProperties, Expr.span_mapSpan]
          rfl
        · split
          · refine .ok ?_
            simp only [carry_mk, mapProperties, Expr.span_mapSpan]
            rfl
          · exact .error _

/-! ## Primary expressions -/

theorem literalValue_window {token : Token} (htoken : inner.token? p = some token) :
    w.CarriesAll id (literalValue inner token p)
      (literalValue outer (token.shift (Source.byteLength before) lines) (n + p)) := by
  intro value hvalue
  refine .inr ?_
  unfold literalValue at hvalue ⊢
  rw [w.sections p (Stream.lt_size_of_token? htoken)]
  cases hkind : token.kind <;> simp only [hkind, Token.shift_kind, Token.shift_text] at hvalue ⊢
  case boolean | string => exact hvalue
  all_goals
    cases hnumber : Number.value? token.text.toList with
    | none => simp [hnumber] at hvalue
    | some number => simpa [hnumber] using hvalue

section Primary

variable (hlt : p < inner.size) (h : ∀ q, p < q → q ≤ inner.size → ExprCarried w q)

include hlt h

theorem group_window : w.CarriesAll (carry n (Expr.mapSpan w.move))
    (group inner (expression inner) p) (group outer (expression outer) (n + p)) := by
  refine .expect fun hopen => ?_
  refine ((h (p + 1) (Nat.lt_succ_self p) hlt .any).required _ _).bind ?_ ?_
  · rintro ⟨e, next⟩ - - hshort read hread
    exact hshort.dangling.expect_ne (by decide) _ _ hread
  · rintro ⟨e, next⟩ hread
    have hnext := expression_advances inner _ _ _ _ (required_eq_ok.mp hread)
    refine .expect fun hclose => .ok ?_
    simp only [Nat.add_assoc, w.spanTo_spanAt (show p < next + 1 by omega) hclose.lt_size]
    rfl

theorem array_window (token : Token) : w.CarriesAll (carry n (Expr.mapSpan w.move))
    (array inner (expression inner) token p)
    (array outer (expression outer) (token.shift (Source.byteLength before) lines) (n + p)) := by
  refine (list_window (show p + 1 ≤ inner.size from hlt) fun q hq => h q hq).bind ?_ ?_
  · rintro ⟨elements, next⟩ - hlost read hread
    exact (hlost.expect_ne (by decide) _ _ hread).elim
  · rintro ⟨elements, next⟩ -
    refine Window.Carries.expect fun hclose => .ok ?_
    simp only [Nat.add_assoc, Token.shift_span]
    exact congrArg (fun span => Except.ok (Expr.array _ span, _))
      (w.spanTo (Nat.succ_pos next) hclose.lt_size token.span)

theorem object_window (hnext : p + 1 < inner.size) (token : Token) :
    w.CarriesAll (carry n (Expr.mapSpan w.move)) (object inner (expression inner) token p)
      (object outer (expression outer) (token.shift (Source.byteLength before) lines) (n + p)) := by
  have hspan : ∀ stop, 0 < stop → stop ≤ inner.size →
      outer.spanTo (token.span.shift (Source.byteLength before) lines) (n + stop) =
        w.move (inner.spanTo token.span stop) :=
    fun stop hpos hstop => w.spanTo hpos hstop token.span
  have hbound := w.bound
  rw [object_eq hlt, object_eq (show n + p < outer.size by omega), Nat.add_assoc n p 1,
    Nat.add_assoc n p 2, w.reads hnext]
  split
  · next hbrace =>
    have hsize := Stream.lt_size_of_reads hbrace
    refine .ok ?_
    rw [Token.shift_span, hspan (p + 2) (by omega) (by omega)]
    rfl
  · refine (properties_window (show p + 1 ≤ inner.size from hlt) fun q hq => h q hq).bindAll ?_
    rintro ⟨read, stop⟩ hread
    have hstop := (propertiesWithin_reads hread).advances (expression_advances inner)
    refine .ok ?_
    simp only [carry_mk]
    rw [Token.shift_span, hspan stop (by omega) hstop.2]
    rfl

theorem bracketed_window (token : Token) : w.CarriesAll (Option.map (carry n (Expr.mapSpan w.move)))
    (bracketed inner (expression inner) token p)
    (bracketed outer (expression outer) (token.shift (Source.byteLength before) lines)
      (n + p)) := by
  unfold bracketed
  rw [Token.shift_text, w.endsLine hlt]
  split
  · exact .some_map (group_window hlt h)
  · split
    · exact .some_map (array_window hlt h token)
    · split
      · next hguard =>
        simp only [Stream.endsLine, Bool.not_not, Bool.and_eq_true] at hguard
        exact .some_map (object_window hlt h (Stream.lt_size_of_continues hguard.2) token)
      · exact .absent rfl

/-- An operator before its operand is lost with the operand. -/
theorem leadingOperator_window {token : Token} (htoken : inner.token? p = some token)
    (hsymbol : token.kind = .symbol) :
    w.Carries (fun read => ∀ floor, Short inner floor p read)
      (Option.map (carry n (Expr.mapSpan w.move)))
      (leadingOperator (expression inner) token p)
      (leadingOperator (expression outer) (token.shift (Source.byteLength before) lines)
        (n + p)) := by
  unfold leadingOperator
  rw [Token.shift_text]
  split
  · exact .absent rfl
  · next precedence hprecedence =>
    refine (h (p + 1) (Nat.lt_succ_self p) hlt (.above precedence)).bind ?_ ?_
    · rintro (_ | ⟨argument, next⟩) - - hshort read hread
      · cases hread
        exact fun _ => hshort.cons htoken hsymbol (by simp [hprecedence])
      · cases hread
        exact hshort.of_above
    · rintro (_ | ⟨argument, next⟩) -
      · exact .absent rfl
      · refine .found ?_
        simp only [carry_mk, Expr.span_mapSpan]
        rfl

theorem primary_window : w.Carries (fun read => ∀ floor, Short inner floor p read)
    (Option.map (carry n (Expr.mapSpan w.move)))
    (primary inner (expression inner) p) (primary outer (expression outer) (n + p)) := by
  obtain ⟨token, htoken⟩ := Stream.exists_token_of_lt hlt
  have hliteral : w.Carries (fun read => ∀ floor, Short inner floor p read)
      (Option.map (carry n (Expr.mapSpan w.move))) (literal inner token p)
      (literal outer (token.shift (Source.byteLength before) lines) (n + p)) :=
    (literalValue_window htoken).bindAll fun value _ => .found rfl
  unfold primary
  simp only [htoken, w.token htoken, Token.shift_kind]
  cases hkind : token.kind with
  | word =>
    change w.Carries _ _ (if Keyword.isClause token then _ else _)
      (if Keyword.isClause token then _ else _)
    split
    · exact .absent rfl
    · exact .found rfl
  | number | boolean | string => exact hliteral
  | symbol =>
    refine (leadingOperator_window hlt h htoken hkind).orTry (fun _ _ => id) ?_
      fun _ => (bracketed_window hlt h token).weaken
    -- an operator opens no bracket
    rintro - - hshort outcome houtcome
    rw [((hshort .any).dangling).bracketed htoken] at houtcome
    cases houtcome
    exact hshort
  | comment => exact .absent rfl

end Primary

/-! ## Steps to the right -/

section Step

variable {left : Expr}

variable (hlt : p < inner.size)

include hlt

theorem dotMember_window : w.CarriesAll (Option.map (carry n (Expr.mapSpan w.move)))
    (dotMember inner left p) (dotMember outer (left.mapSpan w.move) (n + p)) := by
  unfold dotMember
  rw [Nat.add_assoc n p 1, w.reads hlt,
    w.startsLine (Nat.le_of_lt hlt), w.touchesPrevious (show p + 1 ≤ inner.size from hlt)]
  by_cases hnext : p + 1 < inner.size
  · obtain ⟨name, hname⟩ := Stream.exists_token_of_lt hnext
    by_cases hword : name.kind = .word
    · simp only [hname, w.token hname, Token.shift_kind, hword, decide_true]
      split
      · refine .found ?_
        simp only [carry_mk, Expr.span_mapSpan]
        rfl
      · exact .absent rfl
    · simp only [hname, w.token hname, Token.shift_kind, hword, decide_false, Bool.and_false,
        Bool.false_and, Bool.false_eq_true, if_false]
      exact .absent rfl
  · -- the token behind the window touches none
    have hnone : inner.token? (p + 1) = none := Stream.token?_eq_none (by omega)
    have htouches : inner.touchesPrevious (p + 1) = false :=
      Stream.touchesPrevious_of_size_le (by omega)
    simp only [hnone, htouches, Bool.and_false, Bool.false_eq_true, if_false]
    cases outer.token? (n + (p + 1)) <;> exact .absent rfl

theorem trailingOperator_window : w.CarriesAll (Option.map (carry n (Expr.mapSpan w.move)))
    (trailingOperator inner left p) (trailingOperator outer (left.mapSpan w.move) (n + p)) := by
  obtain ⟨token, htoken⟩ := Stream.exists_token_of_lt hlt
  simp only [trailingOperator, htoken, w.token htoken, w.startsLine (Nat.le_of_lt hlt),
    Token.shift_text]
  split
  · refine .found ?_
    simp only [carry_mk, Expr.span_mapSpan]
    rfl
  · exact .absent rfl

variable (h : ∀ q, p ≤ q → q ≤ inner.size → ExprCarried w q)

include h

theorem indexMember_window : w.CarriesAll (Option.map (carry n (Expr.mapSpan w.move)))
    (indexMember inner (expression inner) left p)
    (indexMember outer (expression outer) (left.mapSpan w.move) (n + p)) := by
  unfold indexMember
  rw [w.reads hlt, w.startsLine (Nat.le_of_lt hlt)]
  split
  · refine ((h (p + 1) (Nat.le_succ p) hlt .any).required _ _).bind ?_ ?_
    · rintro ⟨property, next⟩ - - hshort read hread
      exact hshort.dangling.expect_ne (by decide) _ _ hread
    · rintro ⟨property, next⟩ -
      refine .expect fun hclose => .found ?_
      simp only [carry_mk, Expr.span_mapSpan, Nat.add_assoc,
        w.spanTo (Nat.succ_pos next) hclose.lt_size]
      rfl
  · exact .absent rfl

theorem call_window : w.CarriesAll (Option.map (carry n (Expr.mapSpan w.move)))
    (call inner (expression inner) left p)
    (call outer (expression outer) (left.mapSpan w.move) (n + p)) := by
  unfold call
  rw [w.reads hlt, w.touchesPrevious (Nat.le_of_lt hlt)]
  split
  · refine (list_window (show p + 1 ≤ inner.size from hlt) fun q hq => h q (by omega)).bind ?_ ?_
    · rintro ⟨arguments, next⟩ - hlost read hread
      exact (hlost.expect_ne (by decide) _ _ hread).elim
    · rintro ⟨arguments, next⟩ -
      refine Window.Carries.expect fun hclose => .found ?_
      simp only [carry_mk, Expr.span_mapSpan, Nat.add_assoc,
        w.spanTo (Nat.succ_pos next) hclose.lt_size]
      rfl
  · exact .absent rfl

/-- An operator between two operands is lost with the second. -/
theorem binary_window : w.Carries (ShortStep inner floor p)
    (Option.map (carry n (Expr.mapSpan w.move)))
    (binary inner (expression inner) floor left p)
    (binary outer (expression outer) floor (left.mapSpan w.move) (n + p)) := by
  obtain ⟨token, htoken⟩ := Stream.exists_token_of_lt hlt
  simp only [binary, htoken, w.token htoken, Token.shift_text]
  cases hprecedence : Operator.binary? token.text with
  | none => exact .absent rfl
  | some precedence =>
    have hoperator : IsOperator token.text := .inr (by simp [hprecedence])
    simp only
    split
    · next hadmits =>
      refine (h (p + 1) (Nat.le_succ p) hlt (.above precedence)).bind ?_ ?_
      · rintro (_ | ⟨right, next⟩) - - hshort read hread
        · cases hread
          exact stuck_of_binary (w.operator p token htoken hoperator) htoken hprecedence hadmits
            hshort.dangling
        · cases hread
          exact hshort.of_above
      · rintro (_ | ⟨right, next⟩) -
        · exact .absent rfl
        · refine .found ?_
          simp only [carry_mk, Expr.span_mapSpan]
          rfl
    · exact .absent rfl

theorem conditional_window : w.Carries (ShortStep inner floor p)
    (Option.map (carry n (Expr.mapSpan w.move)))
    (conditional inner (expression inner) floor left p)
    (conditional outer (expression outer) floor (left.mapSpan w.move) (n + p)) := by
  unfold conditional
  rw [w.reads hlt]
  split
  · refine ((h (p + 1) (Nat.le_succ p) hlt (.above Operator.comma)).required _ _).bind ?_ ?_
    · rintro ⟨consequent, colon⟩ - - hshort read hread
      exact (hshort.dangling.expect_ne (by decide) _ _ hread).elim
    · rintro ⟨consequent, colon⟩ hconsequent
      have hcolon := expression_advances inner _ _ _ _ (required_eq_ok.mp hconsequent)
      refine .expect fun hexpected => ?_
      refine ((h (colon + 1) (by omega) hexpected.lt_size
        (.above Operator.assignment)).required _ _).bind ?_ ?_
      · rintro ⟨alternate, next⟩ - - hshort read hread
        cases hread
        exact hshort.of_above
      · rintro ⟨alternate, next⟩ -
        refine .found ?_
        simp only [carry_mk, Expr.span_mapSpan]
        rfl
  · exact .absent rfl

theorem concatenation_window
    (htrailing : trailingOperator inner left p = .ok none) : w.Carries (ShortStep inner floor p)
    (Option.map (carry n (Expr.mapSpan w.move)))
    (concatenation inner (expression inner) floor left p)
    (concatenation outer (expression outer) floor (left.mapSpan w.move) (n + p)) := by
  unfold concatenation
  rw [w.startsLine (Nat.le_of_lt hlt)]
  split
  · refine (h p (Nat.le_refl p) (Nat.le_of_lt hlt) (.above Operator.concatenation)).bind ?_ ?_
    · rintro (_ | ⟨right, next⟩) - - hshort read hread
      · cases hread
        exact hshort.stuck hlt htrailing floor
      · cases hread
        exact hshort.of_above
    · rintro (_ | ⟨right, next⟩) -
      · exact .absent rfl
      · refine .found ?_
        simp only [carry_mk, Expr.span_mapSpan]
        rfl
  · exact .absent rfl

/-- A step to the right is carried over. Where the first rules find no operand, no later rule
does. -/
theorem extend_window : w.Carries (ShortStep inner floor p)
    (Option.map (carry n (Expr.mapSpan w.move)))
    (extend inner (expression inner) floor left p)
    (extend outer (expression outer) floor (left.mapSpan w.move) (n + p)) := by
  unfold extend
  rw [w.continues (Nat.le_of_lt hlt)]
  split
  · refine (dotMember_window hlt).orTryAll fun _ => ?_
    refine (indexMember_window hlt h).orTryAll fun _ => ?_
    refine (call_window hlt h).orTryAll fun _ => ?_
    refine (binary_window hlt h).orTry (fun _ _ => id) ?_ fun _ => ?_
    · rintro - - hstuck outcome houtcome
      rw [hstuck.trailingOperator, hstuck.dangling.conditional,
        hstuck.dangling.concatenation] at houtcome
      cases houtcome
      exact hstuck
    · refine .orTryAll (trailingOperator_window hlt) fun htrailing => ?_
      refine (conditional_window hlt h).orTry (fun _ _ => id) ?_
        fun _ => concatenation_window hlt h htrailing
      rintro - - hstuck outcome houtcome
      rw [hstuck.dangling.concatenation] at houtcome
      cases houtcome
      exact hstuck
  · exact .absent rfl

end Step

/-! ## Climbing -/

theorem climb_window {left : Expr} (hp : p ≤ inner.size)
    (h : ∀ q, p ≤ q → q ≤ inner.size → ExprCarried w q) :
    w.Carries (fun read => Stuck inner floor read.2) (carry n (Expr.mapSpan w.move))
      (climb inner (expression inner) floor left p)
      (climb outer (expression outer) floor (left.mapSpan w.move) (n + p)) := by
  induction hn : inner.size - p using Nat.strongRecOn generalizing p left with
  | ind m ih =>
    rw [climb_eq (expression_advances inner), climb_eq (expression_advances outer)]
    rcases Nat.eq_or_lt_of_le hp with rfl | hlt
    · rw [extend_eq_absent_of_size_le (Nat.le_refl _), extend, w.ends]
      exact .ok rfl
    · refine (extend_window hlt h).bind ?_ ?_
      · rintro (_ | ⟨longer, next⟩) - - hstuck read hread
        · cases hread
          exact hstuck
        · simp only [(hstuck floor).climb] at hread
          cases hread
          exact hstuck floor
      · rintro (_ | ⟨longer, next⟩) hextend
        · exact .ok rfl
        · have hnext := (extend_reads hextend).2.advances (expression_advances inner)
          exact ih _ (by omega) hnext.2 (fun q hq => h q (by omega)) rfl

/-- Expressions of a window are those of the outer stream, unless they are cut short. -/
theorem expression_window (w : Window inner outer n lines before after) (hp : p ≤ inner.size) :
    ExprCarried w p := by
  induction hn : inner.size - p using Nat.strongRecOn generalizing p with
  | ind m ih =>
    intro floor
    rcases Nat.eq_or_lt_of_le hp with rfl | hlt
    · have hlacking : Lacking inner inner.size := lacking_of_size_le (Nat.le_refl _)
      rw [hlacking.dangling.expression]
      by_cases hsupplied : w.Supplied
      · rintro _ ⟨⟩
        exact .inl ⟨hsupplied, hlacking⟩
      · exact .ok ((expression_eq_none_iff outer floor _).mpr (Bool.eq_false_iff.mpr hsupplied))
    · have h : ∀ q, p < q → q ≤ inner.size → ExprCarried w q :=
        fun q hq hle => ih _ (by omega) hle rfl
      rw [expression_eq, expression_eq]
      refine (primary_window hlt h).bind ?_ ?_
      · rintro (_ | ⟨left, next⟩) - - hshort read hread
        · cases hread
          exact hshort floor
        · have hstuck : Stuck inner floor next := hshort floor
          simp only [hstuck.climb] at hread
          cases hread
          exact hstuck
      · rintro (_ | ⟨left, next⟩) hprimary
        · exact .absent rfl
        · have hnext := (primary_reads hprimary).advances (expression_advances inner)
          exact .some_map (climb_window hnext.2 fun q hq => h q (by omega))

end Window

end HotkeyScript.Grammar
