import HotkeyScript.Proofs.Grammar.WrittenStatement
import HotkeyScript.Proofs.Tree.Grouping

/-!
# Parsed expressions respect precedence

What stands to the right of an operator respects precedence because it is read under the floor of
the operator. What stands to its left is checked nowhere: it respects precedence because the operand
at its end was read up to the very token at which the operator stands, under a floor of its own, and
would have taken the operator if that floor admitted it.
-/

namespace HotkeyScript.Grammar

open Node (ofExpr)

variable {stream : Stream} {floor : Floor} {left e : Expr} {p q m : Nat}

/-! ## Right operands -/

theorem Primary.rightOf {inner : ExprParser} (h : Primary stream inner p e q) (precedence : Nat) :
    e.RightOf precedence := by
  cases h <;> trivial

theorem rightOf_of_expression {precedence : Nat}
    (h : expression stream (.above precedence) p = .ok (some (e, q))) : e.RightOf precedence := by
  obtain ⟨hclimbs, -⟩ := expression_climbs h
  cases hclimbs with
  | start hprimary => exact hprimary.rightOf precedence
  | step hclimbs hcontinues hstep =>
    cases hstep with
    | @binary _ inner _ _ _ hinner hadmits _ =>
      simp only [Floor.admitsBinary, Floor.admits_above, Bool.or_eq_true, Bool.and_eq_true,
        decide_eq_true_eq, beq_iff_eq, Floor.above.injEq] at hadmits
      exact ⟨inner, hinner, by omega⟩
    | conditional _ hadmits =>
      simp only [Floor.admits_above, decide_eq_true_eq] at hadmits
      exact Nat.le_of_lt_succ hadmits
    | concat hadmits =>
      simp only [Floor.admits_above, decide_eq_true_eq] at hadmits
      exact hadmits
    | _ => trivial

/-! ## Left operands -/

/-- The operand at the end of an expression cannot be carried on where it ends. -/
theorem Climbs.stops (h : Climbs stream floor p e q) :
    e.Closed ∨ ∃ edge, e.edge? = some edge ∧ Stops stream (.above edge) q := by
  cases h with
  | start hprimary =>
    cases hprimary with
    | leading _ hprecedence hinner =>
      exact .inr ⟨_, hprecedence, (expression_climbs hinner).2⟩
    | _ => exact .inl trivial
  | step _ _ hstep =>
    cases hstep with
    | binary _ hprecedence _ hinner => exact .inr ⟨_, hprecedence, (expression_climbs hinner).2⟩
    | conditional _ _ _ _ halternate => exact .inr ⟨_, rfl, (expression_climbs halternate).2⟩
    | concat _ _ hinner => exact .inr ⟨_, rfl, (expression_climbs hinner).2⟩
    | _ => exact .inl trivial

/-- A step that was not taken under some floor is one that the floor does not admit. -/
theorem Step.level_of_stops {edge : Floor}
    (hstep : Step stream (expression stream) floor left m e q)
    (hcontinues : stream.continues m = true) (hstops : Stops stream edge m) :
    ∃ level, e.level? = some level ∧ edge.admitsBinary level = false := by
  obtain ⟨other, hextend⟩ := hstops
  simp only [extend, hcontinues, if_true, orTry_eq_absent] at hextend
  obtain ⟨hdot, hindex, hcall, hbinary, htrailing, hconditional, hconcat⟩ := hextend
  cases hstep with
  | dotMember hreads hname hword hline htouches =>
    simp [Grammar.dotMember, hname, hreads, hword, hline, htouches] at hdot
  | indexMember hreads hline hinner hclose =>
    simp [Grammar.indexMember, hreads, hline, hinner, required, hclose.expect, ok_bind] at hindex
  | call hreads htouches hlist hclose =>
    simp [Grammar.call, hreads, htouches, hlist, hclose.expect, ok_bind] at hcall
  | @binary token precedence _ _ htoken hprecedence _ hinner =>
    refine ⟨precedence, hprecedence, ?_⟩
    by_cases hadmits : edge.admitsBinary precedence = true
    · simp [Grammar.binary, htoken, hprecedence, hadmits, hinner, ok_bind] at hbinary
    · simpa using hadmits
  | trailing htoken htext hline =>
    simp [trailingOperator, htoken, htext, hline] at htrailing
  | conditional hreads _ hconsequent hcolon halternate =>
    refine ⟨Operator.conditional, rfl, ?_⟩
    by_cases hadmits : edge.admits Operator.conditional = true
    · simp [Grammar.conditional, hreads, hadmits, hconsequent, hcolon.expect, halternate,
        required, ok_bind] at hconditional
    · simpa [Floor.admitsBinary, Operator.conditional, Operator.assignment] using hadmits
  | concat _ hline hinner =>
    refine ⟨Operator.concatenation, rfl, ?_⟩
    by_cases hadmits : edge.admits Operator.concatenation = true
    · simp [concatenation, hadmits, hline, hinner, ok_bind] at hconcat
    · simpa [Floor.admitsBinary, Operator.concatenation, Operator.assignment] using hadmits

theorem leading?_ne_level {level inner : Nat} {op : String} (hlevel : e.level? = some level)
    (hinner : Operator.leading? op = some inner) : inner ≠ level := by
  cases e with
  | binary _ _ _ _ => exact Operator.leading?_ne_binary? hinner hlevel
  | conditional _ _ _ _ =>
    cases hlevel
    exact Nat.ne_of_gt (Operator.leading?_bounds hinner).1
  | concat _ _ _ =>
    cases hlevel
    exact (Operator.leading?_bounds hinner).2
  | _ => cases hlevel

/-- A step at some level has an operand of that level to its left, and any other step an operand
that is closed. -/
theorem Step.leftOf (hclimbs : Climbs stream floor p left m) (hcontinues : stream.continues m = true)
    (hstep : Step stream (expression stream) floor left m e q) :
    (e.level? = none → left.Closed) ∧ ∀ level, e.level? = some level → left.LeftOf level := by
  rcases hclimbs.stops with hclosed | ⟨edge, hedge, hstops⟩
  · exact ⟨fun _ => hclosed, fun level _ => hclosed.leftOf level⟩
  · obtain ⟨level, hlevel, hadmits⟩ := hstep.level_of_stops hcontinues hstops
    rw [hlevel]
    refine ⟨fun hnone => (by cases hnone), fun level' hlevel' => ?_⟩
    cases hlevel'
    exact Expr.leftOf_of_edge hedge hadmits fun _ _ => leading?_ne_level hlevel

/-! ## Expressions -/

theorem Primary.grouped (h : Primary stream (expression stream) p e q) : e.Grouped := by
  cases h with
  | leading _ hprecedence hinner => exact ⟨_, hprecedence, rightOf_of_expression hinner⟩
  | _ => trivial

theorem Step.grouped (hclimbs : Climbs stream floor p left m) (hcontinues : stream.continues m = true)
    (hstep : Step stream (expression stream) floor left m e q) : e.Grouped := by
  obtain ⟨hclosed, hleft⟩ := hstep.leftOf hclimbs hcontinues
  cases hstep with
  | binary _ hprecedence _ hinner =>
    exact ⟨_, hprecedence, hleft _ hprecedence, rightOf_of_expression hinner⟩
  | conditional _ _ hconsequent _ halternate =>
    exact ⟨(hleft _ rfl).rightOf_conditional, rightOf_of_expression hconsequent,
      rightOf_of_expression halternate⟩
  | concat _ _ hinner => exact ⟨hleft _ rfl, rightOf_of_expression hinner⟩
  | _ => exact hclosed rfl

/-- What an expression has to satisfy; other nodes are free. -/
def GroupedNode : Node → Prop
  | .expr e => e.Grouped
  | _ => True

theorem groupedNode_ofExpr (h : e.Grouped) : GroupedNode (ofExpr e) := by
  cases e <;> exact h

theorem upholds_grouped : Upholds stream fun node _ _ => GroupedNode node where
  primary hprimary := groupedNode_ofExpr hprimary.grouped
  step hclimbs hcontinues hstep := groupedNode_ofExpr (hstep.grouped hclimbs hcontinues)
  name _ := trivial
  text _ := trivial
  key _ := trivial
  block _ _ _ := trivial
  command _ := trivial
  hotkey _ := trivial
  assignment _ := trivial
  comparison _ := trivial
  plain {node _ _} hplain := by
    unfold isPlain at hplain
    split at hplain
    all_goals trivial

end HotkeyScript.Grammar

namespace HotkeyScript

open Grammar

/-- Every expression in a parsed source respects precedence. -/
theorem parse_grouped (source : Source) :
    (∀ script, parse source = .ok script →
      ∀ e, (Node.script script).Within (.expr e) → e.Grouped) ∧
    ∀ root, parseExpression source = .ok (some root) →
      ∀ e, (Node.ofExpr root).Within (.expr e) → e.Grouped := by
  constructor
  · intro script h e hwithin
    obtain ⟨hwritten, -⟩ := parse_written upholds_grouped h
    rcases hwritten.of_within hwithin with hroot | ⟨p, q, he⟩
    · cases hroot
    · exact he.holds
  · intro root h e hwithin
    have hwritten := expression_written upholds_grouped _ _ _ _ (Nat.zero_le _)
      (parseExpression_reads h)
    rcases hwritten.children.of_within hwithin with heq | ⟨p, q, he⟩
    · have hholds := hwritten.holds
      rwa [← heq] at hholds
    · exact he.holds

/-- Operators of many kinds, in a script and as an expression. -/
theorem parse_grouped_mixed :
    (∃ script, parse "x := -a . b * c ? d e : f(y)++, z".toList = .ok script ∧
      ∀ e, (Node.script script).Within (.expr e) → e.Grouped) ∧
    ∃ root, parseExpression "x := -a . b * c ? d e : f(y)++, z".toList = .ok (some root) ∧
      ∀ e, (Node.ofExpr root).Within (.expr e) → e.Grouped := by
  have hscript : (parse "x := -a . b * c ? d e : f(y)++, z".toList).toOption.map (·.body.length) =
      some 1 := by decide +kernel
  have hroot : (parseExpression "x := -a . b * c ? d e : f(y)++, z".toList).toOption.map
      (·.isSome) = some true := by decide +kernel
  obtain ⟨script, h, -⟩ := exists_of_toOption_map hscript
  obtain ⟨root, h', hsome⟩ := exists_of_toOption_map hroot
  obtain ⟨root, rfl⟩ := Option.isSome_iff_exists.mp hsome
  exact ⟨⟨script, h, (parse_grouped _).1 script h⟩, root, h', (parse_grouped _).2 root h'⟩

end HotkeyScript
