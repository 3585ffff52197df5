import HotkeyScript.Proofs.Grammar.StatementEquation
import HotkeyScript.Proofs.Token.Kind

/-!
# Operators without an operand

Where the rest of a stream is made up of operators, the grammar has nothing to read: no expression
starts there, nothing extends an expression, and no statement starts. A rule that comes to such a
rest leaves it, or fails.

## Main definitions

* `Grammar.Dangling` — only operators stand from a position on.
* `Grammar.Lacking` — only operators that stand before their operand do.
* `Grammar.Stuck` — an expression ends before such a rest.
-/

namespace HotkeyScript.Grammar

open Operator (IsOperator)

variable {stream : Stream} {p q i : Nat} {text : String} {floor : Floor} {token : Token}

/-- From the position on, all tokens are operators. -/
def Dangling (stream : Stream) (p : Nat) : Prop :=
  ∀ i token, p ≤ i → stream.token? i = some token → token.kind = .symbol ∧ IsOperator token.text

/-- From the position on, all tokens are operators that stand before their operand. -/
def Lacking (stream : Stream) (p : Nat) : Prop :=
  ∀ i token, p ≤ i → stream.token? i = some token →
    token.kind = .symbol ∧ (Operator.leading? token.text).isSome = true

/-- Only operators are left behind an expression: an operator that could step back to the expression
starts a line, and a comma is admitted by every operator. -/
structure Stuck (stream : Stream) (floor : Floor) (p : Nat) : Prop where
  dangling : Dangling stream p
  lt : p < stream.size
  step : ∀ token, stream.token? p = some token → (token.text == "++" || token.text == "--") = true →
    stream.startsLine p = true
  comma : stream.reads p "," = true → floor = .any

theorem Lacking.dangling (h : Lacking stream p) : Dangling stream p :=
  fun i token hle htoken => ⟨(h i token hle htoken).1, .inl (h i token hle htoken).2⟩

theorem lacking_of_size_le (h : stream.size ≤ p) : Lacking stream p := by
  intro i token hle htoken
  have := Stream.lt_size_of_token? htoken
  omega

theorem Lacking.cons (h : Lacking stream (p + 1)) (htoken : stream.token? p = some token)
    (hkind : token.kind = .symbol) (hleading : (Operator.leading? token.text).isSome = true) :
    Lacking stream p := by
  intro i other hle hother
  rcases Nat.eq_or_lt_of_le hle with rfl | hlt
  · cases htoken.symm.trans hother
    exact ⟨hkind, hleading⟩
  · exact h i other hlt hother

theorem Dangling.cons (h : Dangling stream (p + 1)) (htoken : stream.token? p = some token)
    (hkind : token.kind = .symbol) (hoperator : IsOperator token.text) : Dangling stream p := by
  intro i other hle hother
  rcases Nat.eq_or_lt_of_le hle with rfl | hlt
  · cases htoken.symm.trans hother
    exact ⟨hkind, hoperator⟩
  · exact h i other hlt hother

namespace Dangling

variable (h : Dangling stream p)

include h

theorem mono (hle : p ≤ q) : Dangling stream q :=
  fun i token hi => h i token (Nat.le_trans hle hi)

/-- What is no operator is not read there. -/
theorem reads (hle : p ≤ i) (htext : ¬ IsOperator text) : stream.reads i text = false := by
  rw [Bool.eq_false_iff]
  intro hreads
  obtain ⟨token, htoken, rfl⟩ := Stream.reads_iff.mp hreads
  exact htext (h i token hle htoken).2

theorem not_expected (hle : p ≤ i) (htext : ¬ IsOperator text) : ¬ Expected stream i text := by
  rintro ⟨token, htoken, his⟩
  exact htext ((Operator.isOperator_congr his).mp (h i token hle htoken).2)

theorem atKeyword (hle : p ≤ i) (keyword : Keyword) : atKeyword stream i keyword = false := by
  cases htoken : stream.token? i with
  | none => simp [Grammar.atKeyword, htoken]
  | some token => simp [Grammar.atKeyword, htoken, Keyword.ofToken?, (h i token hle htoken).1]

theorem isDoubleColon (hle : p ≤ i) : stream.isDoubleColon i = false := by
  simp [Stream.isDoubleColon, h.reads hle (show ¬ IsOperator ":" by decide)]

/-! ## Expressions -/

theorem bracketed (htoken : stream.token? p = some token) :
    bracketed stream (expression stream) token p = .ok none := by
  obtain ⟨-, hoperator⟩ := h p token (Nat.le_refl p) htoken
  have hparen : token.text ≠ "(" := fun htext => absurd (htext ▸ hoperator) (by decide)
  have hbracket : token.text ≠ "[" := fun htext => absurd (htext ▸ hoperator) (by decide)
  have hbrace : token.text ≠ "\x7b" := fun htext => absurd (htext ▸ hoperator) (by decide)
  simp [Grammar.bracketed, hparen, hbracket, hbrace]

/-- No expression starts at an operator without an operand. -/
theorem expression (floor : Floor) : expression stream floor p = .ok none := by
  induction hn : stream.size - p using Nat.strongRecOn generalizing p floor with
  | ind n ih =>
    have hprimary : primary stream (Grammar.expression stream) p = .ok none := by
      cases htoken : stream.token? p with
      | none => simp [primary, htoken]
      | some token =>
        have hlt := Stream.lt_size_of_token? htoken
        have hleading : leadingOperator (Grammar.expression stream) token p = .ok none := by
          unfold leadingOperator
          split
          · rfl
          · next precedence _ =>
            rw [ih _ (by omega) (h.mono (Nat.le_succ p)) (.above precedence) rfl]
            rfl
        simp [primary, htoken, (h p token (Nat.le_refl p) htoken).1, hleading, h.bracketed htoken,
          orTry]
    rw [expression_eq, hprimary]
    rfl

theorem conditional (floor : Floor) (left : Expr) :
    conditional stream (Grammar.expression stream) floor left p = .ok none := by
  simp [Grammar.conditional, h.reads (Nat.le_refl p) (show ¬ IsOperator "?" by decide)]

theorem concatenation (floor : Floor) (left : Expr) :
    concatenation stream (Grammar.expression stream) floor left p = .ok none := by
  unfold Grammar.concatenation
  split
  · rw [h.expression]
    rfl
  · rfl

/-- The places of a list that starts at an operator without an operand are all empty. -/
theorem slots {elements : List (Option Expr)}
    (hslots : slots stream (Grammar.expression stream) p = .ok (elements, q)) :
    Dangling stream q ∧ elements.getLast?.join = none := by
  induction hn : stream.size - p using Nat.strongRecOn generalizing p elements with
  | ind n ih =>
    have hslot : slot stream (Grammar.expression stream) p = .ok (none, p) := by
      rw [slot, h.expression]
      rfl
    rw [slots_eq (expression_advances stream), slotsRound, hslot, ok_bind] at hslots
    simp only at hslots
    split at hslots
    · next hreads =>
      have hlt := Stream.lt_size_of_reads hreads
      obtain ⟨⟨rest, stop⟩, hrest, hslots⟩ := bind_eq_ok.mp hslots
      cases hslots
      obtain ⟨hstop, hlast⟩ := ih _ (by omega) (h.mono (Nat.le_succ p)) hrest rfl
      refine ⟨hstop, ?_⟩
      cases rest with
      | nil => rfl
      | cons first rest => rwa [List.getLast?_cons_cons]
    · cases hslots
      exact ⟨h, rfl⟩

/-! ## Statements -/

theorem trigger : trigger stream p = none := by
  have hcloses : ∀ i, p ≤ i → closesTrigger stream i = false := by
    intro i hle
    simp [closesTrigger, h.isDoubleColon hle]
  have hle := stream.le_skip (inModifiers stream p) p
  rw [← modifiersEnd_eq] at hle
  simp only [Grammar.trigger]
  split
  · rfl
  · rw [hcloses _ hle, hcloses _ (Nat.le_succ_of_le hle)]
    simp only [Bool.and_false, Bool.false_eq_true, if_false, Bool.false_and]
    split
    · rfl
    · split
      · -- a combination of keys ends behind its start
        rcases hcombination : combination stream (modifiersEnd stream p) with _ | ⟨keys, next⟩
        · rfl
        · obtain ⟨first, second⟩ := keys
          obtain ⟨m, n, hfirst, hmn, hsecond⟩ := combination_reads hcombination
          have hsecond := (hsecond.written upholds_true).lt
          have hfirst := (hfirst.written .key fun _ _ _ => (·.written upholds_true)).le
          simp [hcloses next (by omega)]
      · rfl

/-- No statement starts at an operator without an operand. -/
theorem statement : statement stream p = .ok none := by
  have hreads : ∀ i text, p ≤ i → ¬ IsOperator text → stream.reads i text = false :=
    fun i text hle htext => h.reads hle htext
  have hkind : ∀ token, stream.token? p = some token → token.kind ≠ .word := by
    intro token htoken
    rw [(h p token (Nat.le_refl p) htoken).1]
    exact fun hword => by cases hword
  have hhotstring : hotstring stream (Grammar.statement stream) p = .ok none := by
    simp [hotstring, hreads p ":" (Nat.le_refl p) (by decide)]
  have hhotkey : hotkey stream (Grammar.statement stream) p = .ok none := by
    simp [hotkey, h.trigger]
  have hlabel : label stream p = .ok none := by
    have hle := stream.le_skip (inLabel stream) (p + 1)
    simp [label, labelEnd?_eq, hreads (stream.skip (inLabel stream) (p + 1)) ":" (by omega)
      (by decide)]
  have hblock : blockStatement stream (Grammar.statement stream) p = .ok none := by
    simp [blockStatement, block, hreads p "\x7b" (Nat.le_refl p) (by decide), ok_bind]
  have hflow : flow stream (Grammar.statement stream) p = .ok none := by
    cases htoken : stream.token? p with
    | none => simp [flow, htoken]
    | some token => simp [flow, htoken, Keyword.ofToken?, hkind token htoken]
  have hcommand : command stream p = .ok none := by
    rw [command_eq, commandHead]
    simp only [isHash, hreads p "#" (Nat.le_refl p) (by decide), Bool.false_and, Bool.false_eq_true,
      if_false]
    split
    · rfl
    · next token htoken => simp [hkind token htoken]
  have hassignment : legacyAssignment stream p = none := by
    unfold legacyAssignment
    split
    · rfl
    · next token htoken => simp [hkind token htoken]
  have hexpression : expressionStatement stream (Grammar.statement stream) p = .ok none := by
    simp [expressionStatement, hassignment, plainExpression, h.expression, ok_bind]
  rw [statement_eq, statementRules, hhotstring, hhotkey, hlabel, hblock, hflow, hcommand,
    hexpression]
  simp [orTry]

theorem requiredStatement_ne {α : Type} (rest : Read Stmt → Checked α) (a : α) :
    (requiredStatement stream (Grammar.statement stream) p >>= rest) ≠ .ok a := by
  simp [requiredStatement, h.statement, required, bind, Except.bind]

theorem body : body stream (Grammar.statement stream) p = .ok ([], p) := by
  rw [body_eq, bodyRound, h.statement]
  rfl

theorem clause (keyword : Keyword) :
    clause stream (Grammar.statement stream) keyword p = .ok (none, p) := by
  simp [Grammar.clause, h.atKeyword (Nat.le_refl p)]

theorem catchClause : catchClause stream (Grammar.statement stream) p = .ok (none, p) := by
  simp [Grammar.catchClause, h.atKeyword (Nat.le_refl p)]

theorem untilClause : untilClause stream p = .ok (none, p) := by
  simp [Grammar.untilClause, h.atKeyword (Nat.le_refl p)]

end Dangling

/-! ## The end of an expression -/

/-- An operator between two operands is stuck if there is no second one. -/
theorem stuck_of_binary {precedence : Nat} (hkind : token.kind = .symbol)
    (htoken : stream.token? p = some token)
    (hprecedence : Operator.binary? token.text = some precedence)
    (hadmits : floor.admitsBinary precedence = true) (h : Dangling stream (p + 1)) :
    Stuck stream floor p where
  dangling := h.cons htoken hkind (.inr (by simp [hprecedence]))
  lt := Stream.lt_size_of_token? htoken
  step other hother hstep := by
    cases htoken.symm.trans hother
    have hnone : Operator.binary? token.text = none := by
      rcases Bool.or_eq_true_iff.mp hstep with hstep | hstep <;> rw [eq_of_beq hstep] <;> decide
    rw [hprecedence] at hnone
    cases hnone
  comma hcomma := by
    obtain ⟨other, hother, htext⟩ := Stream.reads_iff.mp hcomma
    cases htoken.symm.trans hother
    rw [htext, show Operator.binary? "," = some 0 by decide] at hprecedence
    cases hprecedence
    cases floor with
    | any => rfl
    | above precedence => simp [Floor.admitsBinary, Operator.assignment] at hadmits
    | closed => cases hadmits

/-- Operators that lack an operand are stuck behind an expression to which none steps back. -/
theorem Lacking.stuck {left : Expr} (h : Lacking stream p) (hlt : p < stream.size)
    (htrailing : trailingOperator stream left p = .ok none) (floor : Floor) :
    Stuck stream floor p where
  dangling := h.dangling
  lt := hlt
  step token htoken hstep := by
    simp only [trailingOperator, htoken, hstep, Bool.true_and] at htrailing
    split at htrailing
    · cases htrailing
    · next hline => simpa using hline
  comma hcomma := by
    obtain ⟨token, htoken, htext⟩ := Stream.reads_iff.mp hcomma
    have hleading := (h p token (Nat.le_refl p) htoken).2
    rw [htext] at hleading
    exact absurd hleading (by decide)

namespace Stuck

/-- Behind an operand, an operator is stuck whatever may extend the expression around it. -/
theorem of_above {precedence : Nat} (h : Stuck stream (.above precedence) p) (floor : Floor) :
    Stuck stream floor p where
  dangling := h.dangling
  lt := h.lt
  step := h.step
  comma hcomma := by cases h.comma hcomma

variable (h : Stuck stream floor p)

include h

theorem trailingOperator (left : Expr) : trailingOperator stream left p = .ok none := by
  unfold Grammar.trailingOperator
  split
  · rfl
  · next token htoken =>
    split
    · next hguard =>
      rw [Bool.and_eq_true] at hguard
      simp [h.step token htoken hguard.1] at hguard
    · rfl

/-- Nothing extends an expression at an operator without an operand. -/
theorem extend (floor : Floor) (left : Expr) :
    extend stream (expression stream) floor left p = .ok none := by
  have hnext := h.dangling.mono (Nat.le_succ p)
  have hreads : ∀ text, ¬ IsOperator text → stream.reads p text = false :=
    fun text htext => h.dangling.reads (Nat.le_refl p) htext
  have hdot : dotMember stream left p = .ok none := by
    unfold dotMember
    split
    · rfl
    · next name hname => simp [(hnext (p + 1) name (Nat.le_refl _) hname).1]
  have hindex : indexMember stream (expression stream) left p = .ok none := by
    simp [indexMember, hreads "[" (by decide)]
  have hcall : call stream (expression stream) left p = .ok none := by
    simp [call, hreads "(" (by decide)]
  have hbinary : binary stream (expression stream) floor left p = .ok none := by
    unfold binary
    split
    · rfl
    · split
      · rfl
      · split
        · rw [hnext.expression]
          rfl
        · rfl
  unfold Grammar.extend
  rw [hdot, hindex, hcall, hbinary, h.trailingOperator, h.dangling.conditional,
    h.dangling.concatenation]
  simp [orTry]

theorem climb (floor : Floor) (left : Expr) :
    climb stream (expression stream) floor left p = .ok (left, p) := by
  rw [climb_eq (expression_advances stream), h.extend]
  rfl

end Stuck

end HotkeyScript.Grammar
