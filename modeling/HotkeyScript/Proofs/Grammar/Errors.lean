import HotkeyScript.Parse
import HotkeyScript.Proofs.Grammar.Outcome
import HotkeyScript.Proofs.Grammar.Parts

/-!
# Where the grammar fails

A rule that fails does so at a position of the stream: it refuses the token there, or misses one
behind the last token. This goes through every combinator of the grammar, and so through every rule.

## Main definitions

* `Grammar.FailsInStream` — an outcome whose error, if it has one, is that of a position.
-/

namespace HotkeyScript.Grammar

variable {α β : Type} {stream : Stream} {p : Nat}

/-- If the outcome is an error, it is the error at some position of the stream. -/
def FailsInStream (stream : Stream) (outcome : Checked α) : Prop :=
  ∀ error, outcome = .error error → ∃ p, error = stream.errorAt p

/-! ## Combinators -/

namespace FailsInStream

theorem ok (a : α) : FailsInStream stream (.ok a) := by
  rintro error ⟨⟩

theorem errorAt (p : Nat) : FailsInStream stream (.error (stream.errorAt p) : Checked α) := by
  rintro error ⟨⟩
  exact ⟨p, rfl⟩

theorem bind {x : Checked α} {f : α → Checked β} (h : FailsInStream stream x)
    (hf : ∀ a, FailsInStream stream (f a)) : FailsInStream stream (x >>= f) := by
  cases x with
  | error error =>
    rintro _ ⟨⟩
    exact h error rfl
  | ok a => exact hf a

theorem map {x : Checked α} (f : α → β) (h : FailsInStream stream x) :
    FailsInStream stream (f <$> x) := by
  cases x with
  | error error =>
    rintro _ ⟨⟩
    exact h error rfl
  | ok a => exact ok (f a)

theorem orTry {outcome : Checked (Option (Read α))} {next : Unit → Checked (Option (Read α))}
    (h : FailsInStream stream outcome) (hnext : FailsInStream stream (next ())) :
    FailsInStream stream (orTry outcome next) := by
  rcases outcome with error | _ | result
  · exact h
  · exact hnext
  · exact ok _

theorem required {outcome : Checked (Option (Read α))} (h : FailsInStream stream outcome)
    (p : Nat) : FailsInStream stream (required outcome (stream.errorAt p)) := by
  rcases outcome with error | _ | result
  · rintro _ ⟨⟩
    exact h error rfl
  · exact errorAt p
  · exact ok _

theorem ifElse {c : Prop} [Decidable c] {x y : Checked α} (hx : FailsInStream stream x)
    (hy : FailsInStream stream y) : FailsInStream stream (if c then x else y) := by
  split
  · exact hx
  · exact hy

theorem expect (p : Nat) (text : String) : FailsInStream stream (expect stream p text) :=
  ifElse (ok ()) (errorAt p)

end FailsInStream

open FailsInStream (ok errorAt ifElse)

/-! ## Expressions -/

section Expressions

variable {inner : ExprParser} (h : ∀ floor p, FailsInStream stream (inner floor p))

include h

theorem slot_fails (p : Nat) : FailsInStream stream (slot stream inner p) := by
  refine (h _ p).bind ?_
  rintro (_ | ⟨element, next⟩)
  · exact ok _
  · exact ifElse (ok _) (ok _)

theorem slotsWithin_fails (bound p : Nat) :
    FailsInStream stream (slotsWithin stream inner bound p) := by
  induction bound generalizing p with
  | zero => exact ok _
  | succ bound ih =>
    refine (slot_fails h p).bind ?_
    rintro ⟨element, next⟩
    exact ifElse ((ih (next + 1)).bind fun _ => ok _) (ok _)

theorem list_fails (p : Nat) : FailsInStream stream (list stream inner p) := by
  refine (slotsWithin_fails h _ p).bind fun read => ?_
  split <;> exact ok _

theorem group_fails (p : Nat) : FailsInStream stream (group stream inner p) := by
  refine (FailsInStream.expect p _).bind fun _ => ((h _ _).required _).bind ?_
  rintro ⟨e, next⟩
  exact (FailsInStream.expect next _).bind fun _ => ok _

theorem array_fails (opening : Token) (p : Nat) :
    FailsInStream stream (array stream inner opening p) := by
  refine (list_fails h _).bind ?_
  rintro ⟨elements, next⟩
  exact (FailsInStream.expect next _).bind fun _ => ok _

theorem propertiesWithin_fails (bound p : Nat) :
    FailsInStream stream (propertiesWithin stream inner bound p) := by
  induction bound generalizing p with
  | zero => exact errorAt p
  | succ bound ih =>
    refine ((h _ _).required _).bind ?_
    rintro ⟨key, colon⟩
    refine (FailsInStream.expect colon _).bind fun _ => ((h _ _).required _).bind ?_
    rintro ⟨value, next⟩
    exact ifElse ((ih _).bind fun _ => ok _) (ifElse (ok _) (errorAt _))

theorem object_fails (opening : Token) (p : Nat) :
    FailsInStream stream (object stream inner opening p) :=
  ifElse (ok _) ((propertiesWithin_fails h _ _).bind fun _ => ok _)

theorem leadingOperator_fails (token : Token) (p : Nat) :
    FailsInStream stream (leadingOperator inner token p) := by
  unfold leadingOperator
  split
  · exact ok _
  · refine (h _ _).bind ?_
    rintro (_ | ⟨argument, next⟩) <;> exact ok _

theorem bracketed_fails (token : Token) (p : Nat) :
    FailsInStream stream (bracketed stream inner token p) :=
  ifElse ((group_fails h p).map _) (ifElse ((array_fails h token p).map _)
    (ifElse ((object_fails h token p).map _) (ok _)))

omit h in
/-- A literal is refused at its own token. -/
theorem literal_fails {token : Token} (htoken : stream.token? p = some token) :
    FailsInStream stream (literal stream token p) := by
  refine FailsInStream.bind ?_ fun _ => ok _
  unfold literalValue
  split
  · exact ok _
  · exact ok _
  · split
    · exact ok _
    · have herror : SyntaxError.atToken token = stream.errorAt p := by simp [Stream.errorAt, htoken]
      rw [herror]
      exact errorAt p

theorem primary_fails (p : Nat) : FailsInStream stream (primary stream inner p) := by
  unfold primary
  split
  · exact ok _
  · next token htoken =>
    split
    · exact ifElse (ok _) (ok _)
    · exact literal_fails htoken
    · exact literal_fails htoken
    · exact literal_fails htoken
    · exact (leadingOperator_fails h token p).orTry (bracketed_fails h token p)
    · exact ok _

omit h in
theorem dotMember_fails (left : Expr) (p : Nat) :
    FailsInStream stream (dotMember stream left p) := by
  unfold dotMember
  split
  · exact ok _
  · exact ifElse (ok _) (ok _)

theorem indexMember_fails (left : Expr) (p : Nat) :
    FailsInStream stream (indexMember stream inner left p) := by
  refine ifElse (((h _ _).required _).bind ?_) (ok _)
  rintro ⟨property, next⟩
  exact (FailsInStream.expect next _).bind fun _ => ok _

theorem call_fails (left : Expr) (p : Nat) : FailsInStream stream (call stream inner left p) := by
  refine ifElse ((list_fails h _).bind ?_) (ok _)
  rintro ⟨arguments, next⟩
  exact (FailsInStream.expect next _).bind fun _ => ok _

theorem binary_fails (floor : Floor) (left : Expr) (p : Nat) :
    FailsInStream stream (binary stream inner floor left p) := by
  unfold binary
  split
  · exact ok _
  split
  · exact ok _
  · refine ifElse ((h _ _).bind ?_) (ok _)
    rintro (_ | ⟨right, next⟩) <;> exact ok _

omit h in
theorem trailingOperator_fails (left : Expr) (p : Nat) :
    FailsInStream stream (trailingOperator stream left p) := by
  unfold trailingOperator
  split
  · exact ok _
  · exact ifElse (ok _) (ok _)

theorem conditional_fails (floor : Floor) (left : Expr) (p : Nat) :
    FailsInStream stream (conditional stream inner floor left p) := by
  refine ifElse (((h _ _).required _).bind ?_) (ok _)
  rintro ⟨consequent, colon⟩
  exact (FailsInStream.expect colon _).bind fun _ => ((h _ _).required _).bind fun _ => ok _

theorem concatenation_fails (floor : Floor) (left : Expr) (p : Nat) :
    FailsInStream stream (concatenation stream inner floor left p) := by
  refine ifElse ((h _ _).bind ?_) (ok _)
  rintro (_ | ⟨right, next⟩) <;> exact ok _

theorem extend_fails (floor : Floor) (left : Expr) (p : Nat) :
    FailsInStream stream (extend stream inner floor left p) :=
  ifElse ((dotMember_fails left p).orTry <| (indexMember_fails h left p).orTry <|
    (call_fails h left p).orTry <| (binary_fails h floor left p).orTry <|
    (trailingOperator_fails left p).orTry <| (conditional_fails h floor left p).orTry <|
    concatenation_fails h floor left p) (ok _)

theorem climb_fails (floor : Floor) (left : Expr) (p : Nat) :
    FailsInStream stream (climb stream inner floor left p) := by
  unfold climb
  generalize stream.size - p = bound
  induction bound generalizing left p with
  | zero => exact ok _
  | succ bound ih =>
    refine (extend_fails h floor left p).bind ?_
    rintro (_ | ⟨longer, next⟩)
    · exact ok _
    · exact ih longer next

end Expressions

theorem expression_fails (stream : Stream) (floor : Floor) (p : Nat) :
    FailsInStream stream (expression stream floor p) := by
  unfold expression
  generalize stream.size - p = bound
  induction bound generalizing floor p with
  | zero => exact ok _
  | succ bound ih =>
    refine (primary_fails ih p).bind ?_
    rintro (_ | ⟨left, next⟩)
    · exact ok _
    · exact (climb_fails ih floor left next).map _

/-! ## Parameters and commands -/

theorem param_fails (halt : Nat → Bool) (p : Nat) : FailsInStream stream (param stream halt p) := by
  refine ifElse (((expression_fails stream _ _).required _).bind ?_) ?_
  · rintro ⟨e, next⟩
    exact ifElse (errorAt next) (ok _)
  · split <;> exact ok _

theorem params_fails (halt : Nat → Bool) (p : Nat) :
    FailsInStream stream (params stream halt p) := by
  unfold params
  generalize stream.size - p = bound
  induction bound generalizing p with
  | zero => exact ok _
  | succ bound ih =>
    refine ifElse (ok _) (ifElse ((ih _).bind fun _ => ok _) ((param_fails halt p).bind ?_))
    rintro ⟨first, next⟩
    exact (ih _).bind fun _ => ok _

theorem expressionArguments_fails (p : Nat) :
    FailsInStream stream (expressionArguments stream p) := by
  have hrest : ∀ read : Read (List (Option Expr)), FailsInStream stream
      (if stream.continues read.2 then .error (stream.errorAt read.2) else .ok read) :=
    fun read => ifElse (errorAt read.2) (ok read)
  exact ifElse ((list_fails (expression_fails stream) p).bind hrest) (hrest ([], p))

theorem command_fails (p : Nat) : FailsInStream stream (command stream p) := by
  unfold command
  dsimp only
  split
  · exact ok _
  · exact ifElse (ifElse ((expressionArguments_fails _).bind fun _ => ok _)
      ((params_fails _ _).bind fun _ => ok _)) (ok _)

/-! ## Statements -/

section Statements

variable {statement : StmtParser} (h : ∀ p, FailsInStream stream (statement p))

include h

theorem hotkey_fails (p : Nat) : FailsInStream stream (hotkey stream statement p) := by
  unfold hotkey
  split
  · exact ok _
  · refine ifElse (ifElse (ok _) (errorAt _)) ((h _).bind ?_)
    rintro (_ | ⟨action, next⟩) <;> exact ifElse (ok _) (errorAt _)

theorem hotstring_fails (p : Nat) : FailsInStream stream (hotstring stream statement p) := by
  unfold hotstring
  split
  · exact ok _
  · refine ifElse (ifElse (ok _) (errorAt _)) (ifElse ((h _).bind ?_) ?_)
    · rintro (_ | ⟨action, next⟩) <;> exact ifElse (ok _) (errorAt _)
    · split <;> exact ifElse (ok _) (errorAt _)

omit h in
theorem label_fails (p : Nat) : FailsInStream stream (label stream p) := by
  unfold label
  split <;> exact ok _

theorem body_fails (p : Nat) : FailsInStream stream (body stream statement p) := by
  unfold body
  generalize stream.size - p = bound
  induction bound generalizing p with
  | zero => exact ok _
  | succ bound ih =>
    refine (h p).bind ?_
    rintro (_ | ⟨first, next⟩)
    · exact ok _
    · exact ifElse ((ih next).bind fun _ => ok _) (ok _)

theorem block_fails (p : Nat) : FailsInStream stream (block stream statement p) := by
  refine ifElse ((body_fails h _).bind ?_) (ok _)
  rintro ⟨statements, close⟩
  exact (FailsInStream.expect close _).bind fun _ => ok _

theorem blockStatement_fails (p : Nat) :
    FailsInStream stream (blockStatement stream statement p) := by
  refine (block_fails h p).bind ?_
  rintro (_ | ⟨braces, stop⟩) <;> exact ok _

theorem requiredStatement_fails (p : Nat) :
    FailsInStream stream (requiredStatement stream statement p) :=
  (h p).required p

omit h in
theorem expressionOnLine_fails (p : Nat) : FailsInStream stream (expressionOnLine stream p) :=
  ifElse ((expression_fails stream _ p).required p) (errorAt p)

omit h in
theorem condition_fails (p : Nat) : FailsInStream stream (condition stream p) := by
  refine ifElse ((group_fails (expression_fails stream) p).bind ?_) (expressionOnLine_fails p)
  rintro ⟨inside, next⟩
  exact ifElse (climb_fails (expression_fails stream) _ inside next) (ok _)

omit h in
theorem legacyComparison_fails (p : Nat) : FailsInStream stream (legacyComparison stream p) := by
  unfold legacyComparison
  split
  · exact ok _
  · refine ifElse ?_ (ok _)
    split
    · exact ok _
    · dsimp only
      split
      · exact errorAt _
      · exact ok _

theorem clause_fails (keyword : Keyword) (p : Nat) :
    FailsInStream stream (clause stream statement keyword p) :=
  ifElse ((requiredStatement_fails h _).bind fun _ => ok _) (ok _)

theorem ifStatement_fails (start : Span) (p : Nat) :
    FailsInStream stream (ifStatement stream statement start p) := by
  have htest : FailsInStream stream (ifTest stream (p + 1)) := by
    refine (legacyComparison_fails _).bind ?_
    rintro (_ | read)
    · exact condition_fails _
    · exact ok read
  rw [ifStatement_eq]
  refine htest.bind ?_
  rintro ⟨test, behind⟩
  refine (requiredStatement_fails h behind).bind ?_
  rintro ⟨consequent, next⟩
  exact (clause_fails h _ next).bind fun _ => ok _

theorem whileStatement_fails (start : Span) (p : Nat) :
    FailsInStream stream (whileStatement stream statement start p) := by
  refine (condition_fails _).bind ?_
  rintro ⟨test, next⟩
  exact (requiredStatement_fails h next).bind fun _ => ok _

omit h in
theorem untilClause_fails (p : Nat) : FailsInStream stream (untilClause stream p) :=
  ifElse ((expressionOnLine_fails _).bind fun _ => ok _) (ok _)

theorem loopStatement_fails (start : Span) (p : Nat) :
    FailsInStream stream (loopStatement stream statement start p) := by
  unfold loopStatement
  dsimp only
  refine (params_fails _ _).bind ?_
  rintro ⟨arguments, behind⟩
  refine (requiredStatement_fails h behind).bind ?_
  rintro ⟨body, next⟩
  exact (untilClause_fails next).bind fun _ => ok _

omit h in
theorem nameOnLine_fails (p : Nat) : FailsInStream stream (nameOnLine stream p) := by
  unfold nameOnLine
  split
  · exact ifElse (ok _) (errorAt p)
  · exact errorAt p

theorem forStatement_fails (start : Span) (p : Nat) :
    FailsInStream stream (forStatement stream statement start p) := by
  rw [forStatement_eq]
  refine (nameOnLine_fails _).bind ?_
  rintro ⟨key, behind⟩
  refine (ifElse ((nameOnLine_fails _).bind fun _ => ok _) (ok _)).bind ?_
  rintro ⟨value, word⟩
  refine ifElse ((expressionOnLine_fails _).bind ?_) (errorAt word)
  rintro ⟨iterable, first⟩
  refine (requiredStatement_fails h first).bind ?_
  rintro ⟨body, next⟩
  exact (untilClause_fails next).bind fun _ => ok _

theorem catchClause_fails (p : Nat) : FailsInStream stream (catchClause stream statement p) :=
  ifElse ((requiredStatement_fails h _).bind fun _ => ok _) (ok _)

theorem tryStatement_fails (start : Span) (p : Nat) :
    FailsInStream stream (tryStatement stream statement start p) := by
  refine (requiredStatement_fails h _).bind ?_
  rintro ⟨body, behind⟩
  refine (catchClause_fails h behind).bind ?_
  rintro ⟨handler, next⟩
  exact (clause_fails h _ next).bind fun _ => ok _

theorem flow_fails (p : Nat) : FailsInStream stream (flow stream statement p) := by
  unfold flow
  dsimp only
  split
  · exact (ifStatement_fails h _ p).map _
  · exact (whileStatement_fails h _ p).map _
  · exact (loopStatement_fails h _ p).map _
  · exact (forStatement_fails h _ p).map _
  · exact (tryStatement_fails h _ p).map _
  · exact ok _

theorem plainExpression_fails (p : Nat) :
    FailsInStream stream (plainExpression stream statement p) := by
  refine (expression_fails stream _ p).bind ?_
  rintro (_ | ⟨e, next⟩)
  · exact ok _
  · dsimp only
    generalize (if stream.startsLine p && stream.reads next "\x7b" then declarationHead? e
      else none) = declaration
    rcases declaration with _ | ⟨name, params⟩
    · exact ok _
    · exact ((block_fails h next).required next).bind fun _ => ok _

theorem expressionStatement_fails (p : Nat) :
    FailsInStream stream (expressionStatement stream statement p) := by
  unfold expressionStatement
  split
  · exact ok _
  · exact plainExpression_fails h p

theorem statementRules_fails (p : Nat) :
    FailsInStream stream (statementRules stream statement p) :=
  (hotstring_fails h p).orTry <| (hotkey_fails h p).orTry <| (label_fails p).orTry <|
    (blockStatement_fails h p).orTry <| (flow_fails h p).orTry <| (command_fails p).orTry <|
    expressionStatement_fails h p

end Statements

theorem statement_fails (stream : Stream) (p : Nat) :
    FailsInStream stream (statement stream p) := by
  unfold statement
  generalize stream.size - p = bound
  induction bound generalizing p with
  | zero => exact ok _
  | succ bound ih => exact statementRules_fails ih p

/-- A source that does not parse is refused at a position of its stream. -/
theorem parse_fails (source : Source) :
    FailsInStream (Stream.ofSource source) (parse source) := by
  refine (body_fails (statement_fails _) 0).bind ?_
  rintro ⟨statements, stop⟩
  exact ifElse (errorAt stop) (ok _)

/-- A source that is no expression is refused at a position of its stream. -/
theorem parseExpression_fails (source : Source) :
    FailsInStream (Stream.ofSource source) (parseExpression source) := by
  refine (expression_fails _ .any 0).bind ?_
  rintro (_ | ⟨expr, stop⟩)
  · exact ifElse (errorAt 0) (ok _)
  · exact ifElse (errorAt stop) (ok _)

end HotkeyScript.Grammar
