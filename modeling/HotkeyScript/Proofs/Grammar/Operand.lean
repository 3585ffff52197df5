import HotkeyScript.Proofs.Grammar.Dangling

/-!
# Where an operand starts

Whether an expression starts at a position is settled by the tokens there alone, before anything of
the expression is read: operators that stand before their operand, and behind them a name, a literal
or an opening bracket. What follows can make the expression fail, but not make it go missing.

## Main definitions

* `Grammar.startsOperand` — an operand starts at a position.
-/

namespace HotkeyScript.Grammar

variable {stream : Stream} {p : Nat} {floor : Floor}

/-- An operator that stands before its operand is at the position. -/
def atLeading (stream : Stream) (p : Nat) : Bool :=
  (stream.token? p).any fun token =>
    token.kind = .symbol && (Operator.leading? token.text).isSome

/-- The token at a position is a name, a literal or an opening bracket. -/
def opensOperand (stream : Stream) (p : Nat) : Bool :=
  (stream.token? p).any fun token =>
    match token.kind with
    | .word => !Keyword.isClause token
    | .number | .boolean | .string => true
    | .symbol =>
      token.text == "(" || token.text == "[" || (token.text == "\x7b" && !stream.endsLine p)
    | .comment => false

/-- An operand starts at a position, with any operators that stand before it. -/
def startsOperand (stream : Stream) (p : Nat) : Bool :=
  opensOperand stream (stream.skip (atLeading stream) p)

theorem startsOperand_eq (stream : Stream) (p : Nat) : startsOperand stream p =
    if atLeading stream p then startsOperand stream (p + 1) else opensOperand stream p := by
  have hend : ∀ i, stream.size ≤ i → atLeading stream i = false := by
    intro i hle
    simp [atLeading, Stream.token?_eq_none hle]
  rw [startsOperand, Stream.skip_eq hend, Stream.skipRound]
  split <;> rfl

theorem startsOperand_of_word {token : Token} (htoken : stream.token? p = some token)
    (hkind : token.kind = .word) (hclause : Keyword.isClause token = false) :
    startsOperand stream p = true := by
  simp [startsOperand_eq, atLeading, opensOperand, htoken, hkind, hclause]

theorem bracketed_eq_none_iff {token : Token} (htoken : stream.token? p = some token)
    (hkind : token.kind = .symbol) : bracketed stream (expression stream) token p = .ok none ↔
      opensOperand stream p = false := by
  have hsome : ∀ outcome : Checked (Read Expr), some <$> outcome ≠ .ok none := by
    rintro (error | read) h <;> cases h
  simp only [opensOperand, htoken, Option.any_some, hkind, bracketed]
  by_cases hparen : token.text == "("
  · simp [hparen, hsome]
  · by_cases hbracket : token.text == "["
    · simp [hparen, hbracket, hsome]
    · by_cases hbrace : (token.text == "\x7b" && !stream.endsLine p) = true
      · simp only [hparen, hbracket, hbrace, if_true, hsome, Bool.false_eq_true, if_false,
          Bool.or_true, Bool.true_eq_false]
      · simp only [hparen, hbracket, hbrace, Bool.false_eq_true, if_false, Bool.or_false,
          absent_eq]

theorem leadingOperator_eq_none_iff {token : Token} {precedence : Nat}
    (hleading : Operator.leading? token.text = some precedence) :
    leadingOperator (expression stream) token p = .ok none ↔
      expression stream (.above precedence) (p + 1) = .ok none := by
  simp only [leadingOperator, hleading, bind_eq_ok]
  constructor
  · rintro ⟨_ | ⟨argument, next⟩, hinner, h⟩
    · exact hinner
    · cases h
  · intro hinner
    exact ⟨none, hinner, rfl⟩

theorem expression_eq_none_iff_primary :
    expression stream floor p = .ok none ↔ primary stream (expression stream) p = .ok none := by
  rw [expression_eq, bind_eq_ok]
  constructor
  · rintro ⟨_ | ⟨left, next⟩, hprimary, h⟩
    · exact hprimary
    · obtain ⟨_, -, h⟩ := map_eq_ok.mp h
      cases h
  · intro hprimary
    exact ⟨none, hprimary, rfl⟩

/-- There is no expression exactly where no operand starts. -/
theorem expression_eq_none_iff (stream : Stream) (floor : Floor) (p : Nat) :
    expression stream floor p = .ok none ↔ startsOperand stream p = false := by
  induction hn : stream.size - p using Nat.strongRecOn generalizing p floor with
  | ind n ih =>
    rw [expression_eq_none_iff_primary, startsOperand_eq]
    cases htoken : stream.token? p with
    | none => simp [primary, htoken, atLeading, opensOperand]
    | some token =>
      have hlt := Stream.lt_size_of_token? htoken
      cases hkind : token.kind with
      | word =>
        by_cases hclause : Keyword.isClause token = true <;>
          simp [primary, htoken, hkind, atLeading, opensOperand, hclause]
      | number | boolean | string =>
        have hsome : literal stream token p ≠ .ok none := by
          intro h
          obtain ⟨_, -, h⟩ := bind_eq_ok.mp h
          cases h
        simp [primary, htoken, hkind, hsome, atLeading, opensOperand]
      | comment => simp [primary, htoken, hkind, atLeading, opensOperand]
      | symbol =>
        have hat : atLeading stream p = (Operator.leading? token.text).isSome := by
          simp [atLeading, htoken, hkind]
        simp only [primary, htoken, hkind, hat, orTry_eq_absent, bracketed_eq_none_iff htoken hkind]
        cases hleading : Operator.leading? token.text with
        | none => simp [leadingOperator, hleading]
        | some precedence =>
          -- an operator opens no bracket
          have hopens : opensOperand stream p = false := by
            have htext : ∀ text, Operator.leading? text = none → token.text ≠ text := by
              rintro text hnone rfl
              cases hleading.symm.trans hnone
            simp [opensOperand, htoken, hkind, htext "(" (by decide), htext "[" (by decide),
              htext "\x7b" (by decide)]
          have hinner := ih _ (by omega) (.above precedence) (p + 1) rfl
          simp [leadingOperator_eq_none_iff hleading, hinner, hopens]

theorem lt_size_of_startsOperand (h : startsOperand stream p = true) : p < stream.size := by
  refine Nat.lt_of_not_le fun hle => ?_
  have hnone := (lacking_of_size_le hle).dangling.expression .any
  rw [expression_eq_none_iff, h] at hnone
  cases hnone

end HotkeyScript.Grammar
