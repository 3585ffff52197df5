import HotkeyScript.Proofs.Grammar.Loops
import HotkeyScript.Proofs.Grammar.Parts

/-!
# Statements without a bound

`Grammar.statement` is defined with a bound on the nesting, and `Grammar.body` with a bound on the
number of statements. A rule asks for the statements inside only behind its first token, so neither
bound is ever reached: `statement` is the parser that calls itself for the statements inside
(`statement_eq`), and `body` goes on for as long as there are statements (`body_eq`).

## Main definitions

* `Grammar.StmtAdvances` — a parser that matches reads a token at least, and none behind the end.
* `Grammar.AgreeBehind` — two parsers give the same answers behind a position.
* `Grammar.bodyRound` — one round of the loop over statements.
-/

namespace HotkeyScript.Grammar

variable {stream : Stream} {statement statement' : StmtParser} {p q m n : Nat}

/-! ## Reading on -/

/-- Where the parser matches, it reads a token at least, and no token behind the last one. -/
def StmtAdvances (stream : Stream) (statement : StmtParser) : Prop :=
  ∀ s p q, Reads statement s p q → p < q ∧ q ≤ stream.size

theorem upholds_true : Upholds stream fun _ _ _ => True where
  primary _ := trivial
  step _ _ _ := trivial
  name _ := trivial
  text _ := trivial
  key _ := trivial
  block _ _ _ := trivial
  command _ := trivial
  hotkey _ := trivial
  assignment _ := trivial
  comparison _ := trivial
  plain _ := trivial

theorem statementWithin_advances (stream : Stream) (bound : Nat) :
    StmtAdvances stream (statementWithin stream bound) := by
  have hwritten : StatementsWritten stream (fun _ _ _ => True) (statementWithin stream bound) := by
    induction bound with
    | zero =>
      intro s p q h
      cases h
    | succ bound ih =>
      intro s p q h
      exact (statementRules_reads h).written ih upholds_true
  exact hwritten.bounds

theorem statement_advances (stream : Stream) : StmtAdvances stream (Grammar.statement stream) :=
  fun s p => statementWithin_advances stream (stream.size - p) s p

theorem IsTest.bounds {test : Expr} (h : IsTest stream test p q) : p < q ∧ q ≤ stream.size :=
  ⟨(h.written upholds_true).lt, (h.written upholds_true).le_size⟩

theorem le_skipComma (stream : Stream) (p : Nat) : p ≤ skipComma stream p := by
  unfold skipComma
  split <;> omega

theorem lt_loopHead (stream : Stream) (p : Nat) : p < (loopHead stream p).2 := by
  have hword := le_skipComma stream (p + 1)
  have hfirst := le_skipComma stream (skipComma stream (p + 1) + 1)
  unfold loopHead
  split <;> simp only <;> omega

theorem loopHead_le (h : p < stream.size) : (loopHead stream p).2 ≤ stream.size := by
  have hword := skipComma_bounds (show p + 1 ≤ stream.size from h)
  unfold loopHead
  split
  · next hkind =>
    have hlt : skipComma stream (p + 1) < stream.size := by
      unfold loopKind? at hkind
      split at hkind
      · next hcontinues => exact Stream.lt_size_of_continues hcontinues
      · cases hkind
    exact (skipComma_bounds hlt).2
  · exact hword.2

theorem ifTest_reads {test : Expr} (h : ifTest stream p = .ok (test, q)) :
    IsTest stream test p q := by
  obtain ⟨_ | ⟨test', behind⟩, hcomparison, h⟩ := bind_eq_ok.mp h
  · exact condition_reads h
  · cases h
    exact legacyComparison_reads hcomparison

theorem secondName_bounds {name : Option Identifier} (h : secondName stream p = .ok (name, q)) :
    p ≤ q ∧ (p ≤ stream.size → q ≤ stream.size) := by
  unfold secondName at h
  split at h
  · obtain ⟨⟨name, next⟩, hname, h⟩ := bind_eq_ok.mp h
    obtain ⟨token, htoken, -, -, rfl⟩ := nameOnLine_reads hname
    have := Stream.lt_size_of_token? htoken
    cases h
    omega
  · cases h
    exact ⟨Nat.le_refl p, id⟩

theorem IsCatch.bounds {clause : CatchClause} (hadv : StmtAdvances stream statement)
    (h : IsCatch stream statement clause p q) : p < q ∧ q ≤ stream.size := by
  cases h with
  | bare hsize hbody =>
    have := hadv _ _ _ hbody
    omega
  | named hsize htoken hword hbody =>
    have := hadv _ _ _ hbody
    omega

theorem lt_of_trigger {trigger : Trigger} (h : Grammar.trigger stream p = some (trigger, q)) :
    p < q := by
  obtain ⟨⟨m, n, hm, hfirst, n', hn, hsecond⟩, -⟩ := trigger_reads h
  have hsecond := (hsecond.written upholds_true).lt
  have hfirst := (hfirst.written .key fun _ _ _ => (·.written upholds_true)).le
  omega

theorem Body.bounds {statements : List Stmt}
    (hadv : StmtAdvances stream statement) (h : Body stream statement statements p q)
    (hle : p ≤ stream.size) : p ≤ q ∧ q ≤ stream.size := by
  induction h with
  | nil => exact ⟨Nat.le_refl _, hle⟩
  | last hs =>
    have := hadv _ _ _ hs
    omega
  | cons hs hline hrest ih =>
    have hs := hadv _ _ _ hs
    have := ih hs.2
    omega

theorem Braces.bounds {braces : Block}
    (hadv : StmtAdvances stream statement) (h : Braces stream statement braces p q) :
    p < q ∧ q ≤ stream.size := by
  obtain ⟨hopen, hbody, hclose⟩ := h
  have hbody := hbody.bounds hadv (Stream.lt_size_of_reads hopen)
  have hclose := hclose.lt_size
  omega

theorem labelEnd?_bounds (h : labelEnd? stream p = some q) : p < q ∧ q < stream.size := by
  simp only [labelEnd?_eq] at h
  split at h
  · split at h
    · next hguard =>
      simp only [Bool.and_eq_true] at hguard
      cases h
      exact ⟨stream.le_skip _ (p + 1), Stream.lt_size_of_reads hguard.1.2⟩
    · cases h
  · cases h

theorem commandHead_bounds (h : p < stream.size) :
    p ≤ commandHead stream p ∧ commandHead stream p < stream.size := by
  unfold commandHead
  split
  · next hhash =>
    simp only [isHash, Bool.and_eq_true] at hhash
    obtain ⟨name, hname, -⟩ := (Option.any_eq_true _ _).mp hhash.1.2
    exact ⟨Nat.le_succ p, Stream.lt_size_of_token? hname⟩
  · exact ⟨Nat.le_refl p, h⟩

theorem commandArguments_reads {name : Token} {arguments : List (Option Expr)}
    (h : commandArguments stream name p = .ok (arguments, q)) : Arguments stream arguments p q := by
  unfold commandArguments at h
  split at h
  · exact expressionArguments_reads h
  · exact .params (paramsWithin_reads h)

theorem action_bounds {a : Option Stmt} (hadv : StmtAdvances stream statement)
    (h : action statement p = .ok (a, q)) (hp : p ≤ stream.size) : p ≤ q ∧ q ≤ stream.size := by
  obtain ⟨_ | ⟨s, next⟩, hs, h⟩ := bind_eq_ok.mp h
  · cases h
    exact ⟨Nat.le_refl p, hp⟩
  · cases h
    have := hadv _ _ _ hs
    omega

theorem hotstringRest_bounds {options : List String} {rest : Option Stmt × Option LegacyLiteral}
    (hadv : StmtAdvances stream statement)
    (h : hotstringRest stream statement options p = .ok (rest, q)) (hp : p ≤ stream.size) :
    p ≤ q ∧ q ≤ stream.size := by
  unfold hotstringRest at h
  split at h
  · cases h
    exact ⟨Nat.le_refl p, hp⟩
  · split at h
    · obtain ⟨⟨a, next⟩, haction, h⟩ := bind_eq_ok.mp h
      cases h
      exact action_bounds hadv haction hp
    · split at h
      · cases h
        exact ⟨Nat.le_refl p, hp⟩
      · next text next htext =>
        cases h
        have := (legacyText?_reads htext).bounds
        omega

/-! ## Parsers that agree behind a position -/

/-- The two parsers give the same answers behind position `p`. -/
def AgreeBehind (p : Nat) (statement statement' : StmtParser) : Prop :=
  ∀ i, p < i → statement i = statement' i

section Congruence

variable (h : AgreeBehind p statement statement')

include h

theorem requiredStatement_congr (hlt : p < q) :
    requiredStatement stream statement q = requiredStatement stream statement' q := by
  simp only [requiredStatement, h q hlt]

theorem clause_congr (keyword : Keyword) (hle : p ≤ q) :
    clause stream statement keyword q = clause stream statement' keyword q := by
  simp only [clause, requiredStatement_congr h (Nat.lt_succ_of_le hle)]

theorem catchClause_congr (hle : p ≤ q) :
    catchClause stream statement q = catchClause stream statement' q := by
  unfold catchClause
  split
  · rcases hparam : catchParam stream (q + 1) with ⟨param, first⟩
    have hlt : p < first := by
      rcases catchParam_reads hparam with ⟨-, rfl⟩ | ⟨name, -, token, -, -, -, rfl⟩ <;> omega
    simp only [requiredStatement_congr h hlt]
  · rfl

theorem hotkey_congr : hotkey stream statement p = hotkey stream statement' p := by
  unfold hotkey
  split
  · rfl
  · next modifiers first second colons htrigger =>
    have hlt := lt_of_trigger htrigger
    simp only [h (colons + 2) (by omega)]

theorem hotstring_congr : hotstring stream statement p = hotstring stream statement' p := by
  unfold hotstring
  split
  · rfl
  · next options trigger colons hhead =>
    split at hhead
    · obtain ⟨first, hfirst, htext, -⟩ := hotstringHead_reads hhead
      have hlt := htext.1
      simp only [h (colons + 2) (by omega)]
    · cases hhead

theorem whileStatement_congr (start : Span) :
    whileStatement stream statement start p = whileStatement stream statement' start p := by
  refine bind_congr_ok ?_
  rintro ⟨test, next⟩ htest
  have hlt := (condition_reads htest).bounds
  simp only [requiredStatement_congr h (show p < next by omega)]

theorem loopStatement_congr (start : Span) :
    loopStatement stream statement start p = loopStatement stream statement' start p := by
  simp only [loopStatement_eq]
  refine bind_congr_ok ?_
  rintro ⟨arguments, behind⟩ harguments
  have hlt := lt_loopHead stream p
  have hle := (paramsWithin_reads harguments).bounds.1
  simp only [requiredStatement_congr h (show p < behind by omega)]

theorem forStatement_congr (start : Span) :
    forStatement stream statement start p = forStatement stream statement' start p := by
  simp only [forStatement_eq]
  refine bind_congr_ok ?_
  rintro ⟨key, behind⟩ hkey
  obtain ⟨-, -, -, -, rfl⟩ := nameOnLine_reads hkey
  refine bind_congr_ok ?_
  rintro ⟨value, word⟩ hvalue
  have hword := (secondName_bounds hvalue).1
  simp only [forRest]
  split
  · refine bind_congr_ok ?_
    rintro ⟨iterable, first⟩ hiterable
    have hfirst := expression_advances stream _ _ _ _ (expressionOnLine_reads hiterable)
    simp only [requiredStatement_congr h (show p < first by omega)]
  · rfl

variable (hadv : StmtAdvances stream statement)

include hadv

theorem ifStatement_congr (start : Span) :
    ifStatement stream statement start p = ifStatement stream statement' start p := by
  simp only [ifStatement_eq]
  refine bind_congr_ok ?_
  rintro ⟨test, behind⟩ htest
  have hbehind := (ifTest_reads htest).bounds
  simp only
  rw [← requiredStatement_congr h (show p < behind by omega)]
  refine bind_congr_ok ?_
  rintro ⟨consequent, next⟩ hconsequent
  have hnext := hadv _ _ _ (requiredStatement_reads hconsequent)
  simp only [clause_congr h .elseWord (show p ≤ next by omega)]

theorem tryStatement_congr (start : Span) :
    tryStatement stream statement start p = tryStatement stream statement' start p := by
  unfold tryStatement
  rw [← requiredStatement_congr h (Nat.lt_succ_self p)]
  refine bind_congr_ok ?_
  rintro ⟨body, behind⟩ hbody
  have hbehind := hadv _ _ _ (requiredStatement_reads hbody)
  simp only
  rw [← catchClause_congr h (show p ≤ behind by omega)]
  refine bind_congr_ok ?_
  rintro ⟨handler, next⟩ hhandler
  have hnext := ((catchClause_reads hhandler).bounds fun _ _ _ => IsCatch.bounds hadv).1
  simp only [clause_congr h .finallyWord (show p ≤ next by omega)]

theorem flow_congr : flow stream statement p = flow stream statement' p := by
  simp only [flow, ifStatement_congr h hadv, whileStatement_congr h, loopStatement_congr h,
    forStatement_congr h, tryStatement_congr h hadv]

end Congruence

/-! ## Statements one after the other -/

/-- The first statement of a body and, at the start of a line behind it, the others. -/
def bodyRound (stream : Stream) (statement : StmtParser)
    (rest : Nat → Checked (Read (List Stmt))) (p : Nat) : Checked (Read (List Stmt)) := do
  match ← statement p with
  | none => .ok ([], p)
  | some (first, next) =>
    if stream.startsLine next then
      let (more, stop) ← rest next
      .ok (first :: more, stop)
    else .ok ([first], next)

theorem bodyRound_congr {rest rest' : Nat → Checked (Read (List Stmt))}
    (hadv : StmtAdvances stream statement) (h : ∀ q, p < q → q ≤ stream.size → rest q = rest' q) :
    bodyRound stream statement rest p = bodyRound stream statement rest' p := by
  refine bind_congr_ok ?_
  rintro (_ | ⟨first, next⟩) hfirst
  · rfl
  · obtain ⟨hlt, hle⟩ := hadv _ _ _ hfirst
    simp only [h next hlt hle]

theorem bodyWithin_congr (hadv : StmtAdvances stream statement)
    (h : AgreeBehind p statement statement') (hlt : p < q) {bound : Nat} :
    bodyWithin stream statement bound q = bodyWithin stream statement' bound q := by
  induction bound generalizing q with
  | zero => rfl
  | succ bound ih =>
    simp only [bodyWithin]
    rw [← h q hlt]
    refine bind_congr_ok ?_
    rintro (_ | ⟨first, next⟩) hfirst
    · rfl
    · have hnext := (hadv _ _ _ hfirst).1
      simp only [ih (show p < next by omega)]

theorem block_congr (hadv : StmtAdvances stream statement)
    (h : AgreeBehind p statement statement') (hle : p ≤ q) :
    block stream statement q = block stream statement' q := by
  simp only [block, body, bodyWithin_congr hadv h (Nat.lt_succ_of_le hle)]

theorem plainExpression_congr (hadv : StmtAdvances stream statement)
    (h : AgreeBehind p statement statement') :
    plainExpression stream statement p = plainExpression stream statement' p := by
  refine bind_congr_ok ?_
  rintro (_ | ⟨expr, next⟩) hexpression
  · rfl
  · have hlt := (expression_advances stream _ _ _ _ hexpression).1
    simp only [block_congr hadv h (Nat.le_of_lt hlt)]

/-! ## The bounds are never reached -/

/-- The rules ask for the statements inside only behind the position at which they start. -/
theorem statementRules_congr (hadv : StmtAdvances stream statement)
    (h : AgreeBehind p statement statement') :
    statementRules stream statement p = statementRules stream statement' p := by
  simp only [statementRules, hotstring_congr h, hotkey_congr h, blockStatement,
    block_congr hadv h (Nat.le_refl p), flow_congr h hadv, expressionStatement,
    plainExpression_congr hadv h]

/-- Behind the last token no rule applies. -/
theorem statementRules_of_size_le (statement : StmtParser) (hle : stream.size ≤ p) :
    statementRules stream statement p = .ok none := by
  have htoken : stream.token? p = none := Stream.token?_eq_none hle
  have hreads : ∀ text, stream.reads p text = false := by simp [Stream.reads, htoken]
  have htrigger : trigger stream p = none := by
    have hstop : modifiersEnd stream p = p := by
      simp [modifiersEnd, Stream.skip, Nat.sub_eq_zero_of_le hle, Stream.skipWithin]
    simp [trigger, hstop, htoken]
  have hexpression : expression stream .any p = .ok none := by
    simp [expression_eq, primary, htoken, bind, Except.bind]
  simp [statementRules, hotstring, hreads, hotkey, htrigger, label, labelEnd?, htoken,
    blockStatement, block, flow, command, isHash, expressionStatement, legacyAssignment,
    plainExpression, hexpression, ok_bind, orTry]

theorem statementWithin_bound {bound bound' : Nat} (h : stream.size - p ≤ bound)
    (h' : stream.size - p ≤ bound') :
    statementWithin stream bound p = statementWithin stream bound' p := by
  have hend : ∀ bound p, stream.size ≤ p → statementWithin stream bound p = .ok none := by
    intro bound p hle
    cases bound with
    | zero => rfl
    | succ bound => exact statementRules_of_size_le _ hle
  induction bound generalizing bound' p with
  | zero => rw [hend 0 p (by omega), hend bound' p (by omega)]
  | succ bound ih =>
    cases bound' with
    | zero => rw [hend 0 p (by omega), hend (bound + 1) p (by omega)]
    | succ bound' =>
      exact statementRules_congr (statementWithin_advances stream bound)
        fun i hi => ih (by omega) (by omega)

/-- A statement is what the rules make of it, where the statements inside are read by the same
parser. -/
theorem statement_eq (stream : Stream) (p : Nat) :
    Grammar.statement stream p = statementRules stream (Grammar.statement stream) p := by
  have hunroll : Grammar.statement stream p = statementWithin stream (stream.size - p + 1) p :=
    statementWithin_bound (Nat.le_refl _) (Nat.le_succ _)
  rw [hunroll]
  exact statementRules_congr (statementWithin_advances stream _)
    fun i hi => statementWithin_bound (by omega) (Nat.le_refl _)

theorem statement_of_size_le (hle : stream.size ≤ p) : Grammar.statement stream p = .ok none := by
  rw [statement_eq, statementRules_of_size_le _ hle]

theorem bodyWithin_bound {bound bound' : Nat} (h : stream.size - p ≤ bound)
    (h' : stream.size - p ≤ bound') :
    bodyWithin stream (Grammar.statement stream) bound p =
      bodyWithin stream (Grammar.statement stream) bound' p := by
  have hend : ∀ bound p, stream.size ≤ p →
      bodyWithin stream (Grammar.statement stream) bound p = .ok ([], p) := by
    intro bound p hle
    cases bound with
    | zero => rfl
    | succ bound => simp [bodyWithin, statement_of_size_le hle, ok_bind]
  induction bound generalizing bound' p with
  | zero => rw [hend 0 p (by omega), hend bound' p (by omega)]
  | succ bound ih =>
    cases bound' with
    | zero => rw [hend 0 p (by omega), hend (bound + 1) p (by omega)]
    | succ bound' =>
      exact bodyRound_congr (statement_advances stream) fun q hlt _ => ih (by omega) (by omega)

/-- A body is its first statement with the body behind it. -/
theorem body_eq (stream : Stream) (p : Nat) :
    body stream (Grammar.statement stream) p =
      bodyRound stream (Grammar.statement stream) (body stream (Grammar.statement stream)) p := by
  have hunroll : body stream (Grammar.statement stream) p =
      bodyWithin stream (Grammar.statement stream) (stream.size - p + 1) p :=
    bodyWithin_bound (Nat.le_refl _) (Nat.le_succ _)
  rw [hunroll]
  exact bodyRound_congr (statement_advances stream)
    fun q hlt _ => bodyWithin_bound (by omega) (Nat.le_refl _)

/-- A body has a first statement, and the others are the body behind it if a line starts there. -/
theorem body_eq_cons_iff {s : Stmt} {statements : List Stmt} :
    body stream (Grammar.statement stream) p = .ok (s :: statements, q) ↔
      ∃ next, Grammar.statement stream p = .ok (some (s, next)) ∧
        if stream.startsLine next then
          body stream (Grammar.statement stream) next = .ok (statements, q)
        else statements = [] ∧ q = next := by
  rw [body_eq, bodyRound, bind_eq_ok]
  constructor
  · rintro ⟨_ | ⟨first, next⟩, hfirst, h⟩
    · cases h
    · simp only at h
      split at h
      · next hline =>
        obtain ⟨⟨more, stop⟩, hmore, h⟩ := bind_eq_ok.mp h
        cases h
        exact ⟨_, hfirst, by rwa [if_pos hline]⟩
      · next hline =>
        cases h
        exact ⟨_, hfirst, by rw [if_neg hline]; exact ⟨rfl, rfl⟩⟩
  · rintro ⟨next, hfirst, h⟩
    refine ⟨_, hfirst, ?_⟩
    simp only
    split at h
    · next hline => rw [if_pos hline, h, ok_bind]
    · next hline =>
      obtain ⟨rfl, rfl⟩ := h
      rw [if_neg hline]

theorem eq_of_body_nil (h : body stream (Grammar.statement stream) p = .ok ([], q)) : q = p := by
  rw [body_eq, bodyRound, bind_eq_ok] at h
  obtain ⟨_ | ⟨first, next⟩, -, h⟩ := h
  · cases h
    rfl
  · simp only at h
    split at h
    · obtain ⟨⟨more, stop⟩, -, h⟩ := bind_eq_ok.mp h
      cases h
    · cases h

end HotkeyScript.Grammar
