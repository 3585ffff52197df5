import HotkeyScript.Proofs.Grammar.StatementEquation
import HotkeyScript.Proofs.Tree.Places

/-!
# The places of parsed expressions

The parser keeps to the grammar of trees: whatever it reads, the kinds of expressions that belong to
one place stand there only. An expression that it reads is an operand, so it may stand anywhere; the
other kinds come from rules of their own, each of which is tried at one place.

## Main definitions

* `Grammar.ReadsOperands` — the parser of expressions reads operands.
* `Grammar.ReadsFitting` — the statements that the parser reads fit.
-/

namespace HotkeyScript

namespace Grammar

variable {stream : Stream} {inner : ExprParser} {statement : StmtParser} {e : Expr} {s : Stmt}
  {p q : Nat}

/-! ## Expressions -/

/-- The expressions that the parser reads may stand anywhere. -/
def ReadsOperands (inner : ExprParser) : Prop :=
  ∀ floor p e q, inner floor p = .ok (some (e, q)) → e.Fits .operand

section Inside

variable (h : ReadsOperands inner)

include h

theorem Slot.fits {slot : Option Expr} (hslot : Slot stream inner slot p q) :
    ∀ e ∈ slot, e.Fits .element := by
  cases hslot with
  | empty => nofun
  | element hinner =>
    rintro e ⟨⟩
    exact (h _ _ _ _ hinner).anywhere
  | variadic hinner hstar =>
    rintro e ⟨⟩
    exact ⟨rfl, h _ _ _ _ hinner⟩

theorem Slots.fit {slots : List (Option Expr)} (hslots : Slots stream inner slots p q) :
    SlotsFit .element slots := by
  induction hslots with
  | last hlast => exact slotsFit_cons.mpr ⟨hlast.fits h, trivial⟩
  | cons hfirst hcomma hrest ih => exact slotsFit_cons.mpr ⟨hfirst.fits h, ih⟩

theorem list_fit {elements : List (Option Expr)}
    (hlist : list stream inner p = .ok (elements, q)) : SlotsFit .element elements := by
  rcases list_reads hlist with ⟨rfl, rfl⟩ | hslots
  · trivial
  · exact hslots.fit h

theorem Properties.fit {properties : List Property}
    (hproperties : Properties stream inner properties p q) : PropertiesFit properties := by
  induction hproperties with
  | last hpair hbrace =>
    obtain ⟨hkey, hcolon, hvalue⟩ := hpair
    exact ⟨h _ _ _ _ hkey, h _ _ _ _ hvalue, trivial⟩
  | cons hpair hcomma hrest ih =>
    obtain ⟨hkey, hcolon, hvalue⟩ := hpair
    exact ⟨h _ _ _ _ hkey, h _ _ _ _ hvalue, ih⟩

theorem Primary.fits (hprimary : Primary stream inner p e q) : e.Fits .operand := by
  cases hprimary with
  | identifier | literal | emptyObject => trivial
  | leading htoken hprecedence hinner =>
    have hargument := h _ _ _ _ hinner
    exact hargument
  | group hopen hinner hclose =>
    have hinside := h _ _ _ _ hinner
    exact hinside
  | array htoken hlist hclose => exact list_fit h hlist
  | object htoken hproperties => exact hproperties.fit h

theorem Step.fits {floor : Floor} {left : Expr} (hleft : left.Fits .operand)
    (hstep : Step stream inner floor left p e q) : e.Fits .operand := by
  cases hstep with
  | dotMember => exact ⟨hleft, trivial, fun _ => ⟨_, rfl⟩⟩
  | indexMember hopen hline hinner hclose => exact ⟨hleft, h _ _ _ _ hinner, nofun⟩
  | call hopen htouches hlist hclose => exact ⟨hleft, list_fit h hlist⟩
  | binary htoken hprecedence hadmits hinner => exact ⟨hleft, h _ _ _ _ hinner⟩
  | trailing => exact hleft
  | conditional hreads hadmits hconsequent hcolon halternate =>
    exact ⟨hleft, h _ _ _ _ hconsequent, h _ _ _ _ halternate⟩
  | concat hadmits hline hinner => exact ⟨hleft, h _ _ _ _ hinner⟩

theorem climbWithin_fits {floor : Floor} {bound : Nat} {left : Expr} (hleft : left.Fits .operand)
    (hclimb : climbWithin stream inner floor bound left p = .ok (e, q)) : e.Fits .operand := by
  induction bound generalizing left p with
  | zero =>
    cases hclimb
    exact hleft
  | succ bound ih =>
    simp only [climbWithin, bind_eq_ok] at hclimb
    obtain ⟨_ | ⟨longer, next⟩, hextend, hclimb⟩ := hclimb
    · cases hclimb
      exact hleft
    · exact ih ((extend_reads hextend).2.fits h hleft) hclimb

end Inside

theorem expressionWithin_fits (stream : Stream) (bound : Nat) :
    ReadsOperands (expressionWithin stream bound) := by
  induction bound with
  | zero =>
    intro floor p e q h
    cases h
  | succ bound ih =>
    intro floor p e q h
    simp only [expressionWithin, bind_eq_ok] at h
    obtain ⟨_ | ⟨left, next⟩, hprimary, h⟩ := h
    · cases h
    · obtain ⟨⟨e', q'⟩, hclimb, ⟨⟩⟩ := map_eq_ok.mp h
      exact climbWithin_fits ih ((primary_reads hprimary).fits ih) hclimb

/-- An expression that is read may stand anywhere. -/
theorem expression_fits (stream : Stream) : ReadsOperands (expression stream) :=
  fun floor p => expressionWithin_fits stream (stream.size - p) floor p

/-! ## Parts of statements -/

theorem Param.fits {param : Option Expr} (h : Param stream param p q) :
    ∀ e ∈ param, e.Fits .argument := by
  cases h with
  | empty => nofun
  | text =>
    rintro e ⟨⟩
    rfl
  | forced hexpression =>
    rintro e ⟨⟩
    exact (expression_fits stream _ _ _ _ hexpression).anywhere

theorem Params.fit {arguments : List (Option Expr)} (h : Params stream arguments p q) :
    SlotsFit .argument arguments := by
  induction h with
  | nil => trivial
  | cons hfirst hrest ih | delimited hfirst hdelimiter hrest ih =>
    exact slotsFit_cons.mpr ⟨hfirst.fits, ih⟩

theorem expressionArguments_fit {arguments : List (Option Expr)}
    (h : expressionArguments stream p = .ok (arguments, q)) : SlotsFit .element arguments := by
  rw [expressionArguments_eq, bind_eq_ok] at h
  obtain ⟨⟨arguments, next⟩, harguments, h⟩ := h
  simp only at h
  split at h
  · cases h
  · cases h
    unfold argumentsOnLine at harguments
    split at harguments
    · exact list_fit (expression_fits stream) harguments
    · cases harguments
      trivial

theorem condition_fits (h : condition stream p = .ok (e, q)) : e.Fits .operand := by
  unfold condition at h
  split at h
  · obtain ⟨⟨inside, next⟩, hgroup, h⟩ := bind_eq_ok.mp h
    have hinside := (group_reads hgroup).fits (expression_fits stream)
    simp only at h
    split at h
    · exact climbWithin_fits (expression_fits stream) hinside h
    · cases h
      exact hinside
  · exact expression_fits stream _ _ _ _ (expressionOnLine_reads h)

theorem legacyComparison_fits (h : legacyComparison stream p = .ok (some (e, q))) :
    e.Fits .test := by
  unfold legacyComparison at h
  split at h
  · cases h
  split at h
  · split at h
    · cases h
    · simp only at h
      split at h
      · cases h
      · cases h
        rfl
  · cases h

theorem ifTest_fits (h : ifTest stream p = .ok (e, q)) : e.Fits .test := by
  obtain ⟨_ | ⟨test, behind⟩, hcomparison, h⟩ := bind_eq_ok.mp h
  · exact (condition_fits h).anywhere
  · cases h
    exact legacyComparison_fits hcomparison

theorem untilClause_fits {stop : Option Expr} (h : untilClause stream p = .ok (stop, q)) :
    ∀ test ∈ stop, test.Fits .operand := by
  cases untilClause_reads h with
  | none => nofun
  | some hle htest =>
    rintro test ⟨⟩
    exact expression_fits stream _ _ _ _ htest

/-! ## Statements -/

/-- The statements that the parser reads fit. -/
def ReadsFitting (statement : StmtParser) : Prop :=
  ∀ s p q, Reads statement s p q → s.Fits

section Statements

variable (h : ReadsFitting statement)

include h

theorem Body.fit {body : List Stmt} (hbody : Body stream statement body p q) : BodyFits body := by
  induction hbody with
  | nil => trivial
  | last hs => exact ⟨h _ _ _ hs, trivial⟩
  | cons hs hline hrest ih => exact ⟨h _ _ _ hs, ih⟩

theorem Braces.fits {braces : Block} (hbraces : Braces stream statement braces p q) :
    braces.Fits := by
  obtain ⟨-, hbody, -⟩ := hbraces
  exact hbody.fit h

theorem Maybe.actionFits {action : Option Stmt} (haction : Maybe (Reads statement) action p q) :
    ActionFits action := by
  cases haction with
  | none => trivial
  | some hle hs => exact h _ _ _ hs

theorem Maybe.handlerFits {handler : Option CatchClause}
    (hhandler : Maybe (IsCatch stream statement) handler p q) : HandlerFits handler := by
  cases hhandler with
  | none => trivial
  | some hle hclause =>
    cases hclause with
    | bare hsize hbody => exact h _ _ _ hbody
    | named hsize htoken hword hbody => exact h _ _ _ hbody

theorem action_fits {a : Option Stmt} (haction : action statement p = .ok (a, q)) :
    ActionFits a := by
  obtain ⟨_ | ⟨s, next⟩, hs, haction⟩ := bind_eq_ok.mp haction
  · cases haction
    trivial
  · cases haction
    exact h _ _ _ hs

theorem hotstring_fits (hs : hotstring stream statement p = .ok (some (s, q))) : s.Fits := by
  rw [hotstring_eq] at hs
  split at hs
  · cases hs
  · next options trigger colons _ =>
    obtain ⟨⟨⟨action, replacement⟩, stop⟩, hrest, hs⟩ := bind_eq_ok.mp hs
    obtain ⟨-, rfl, -⟩ := guard_eq_found hs
    unfold hotstringRest at hrest
    split at hrest
    · cases hrest
      exact ⟨nofun, nofun, trivial⟩
    · split at hrest
      · next hruns =>
        obtain ⟨⟨a, next⟩, haction, ⟨⟩⟩ := bind_eq_ok.mp hrest
        exact ⟨nofun, fun _ => hruns, action_fits h haction⟩
      · next hruns =>
        split at hrest
        · cases hrest
          exact ⟨nofun, nofun, trivial⟩
        · cases hrest
          exact ⟨fun _ => Bool.eq_false_iff.mpr hruns, nofun, trivial⟩

theorem hotkey_fits (hs : hotkey stream statement p = .ok (some (s, q))) : s.Fits := by
  rw [hotkey_eq] at hs
  split at hs
  · cases hs
  · simp only at hs
    split at hs
    · obtain ⟨-, rfl, -⟩ := guard_eq_found hs
      trivial
    · obtain ⟨⟨a, stop⟩, haction, hs⟩ := bind_eq_ok.mp hs
      obtain ⟨-, rfl, -⟩ := guard_eq_found hs
      exact action_fits h haction

omit h in
theorem label_fits (hs : label stream p = .ok (some (s, q))) : s.Fits := by
  unfold label at hs
  split at hs
  · cases hs
  · cases hs
    trivial

theorem blockStatement_fits (hs : blockStatement stream statement p = .ok (some (s, q))) :
    s.Fits := by
  obtain ⟨_ | ⟨braces, stop⟩, hbraces, hs⟩ := bind_eq_ok.mp hs
  · cases hs
  · cases hs
    exact (block_reads hbraces).fits h

omit h in
theorem command_fits (hs : command stream p = .ok (some (s, q))) : s.Fits := by
  obtain ⟨name, arguments, -, -, harguments, rfl⟩ := exists_of_command hs
  unfold commandArguments at harguments
  split at harguments
  · next hname =>
    have htakes : takesExpressions (identifier name) = true := hname
    simpa [Stmt.Fits, htakes] using expressionArguments_fit harguments
  · next hname =>
    have htakes : takesExpressions (identifier name) = false := Bool.eq_false_iff.mpr hname
    simpa [Stmt.Fits, htakes] using (paramsWithin_reads harguments).fit

omit h in
theorem legacyAssignment_fits (hs : legacyAssignment stream p = some (e, q)) :
    e.Fits .statement := by
  unfold legacyAssignment at hs
  split at hs
  · cases hs
  split at hs
  · cases hs
    rfl
  · cases hs

theorem expressionStatement_fits
    (hs : expressionStatement stream statement p = .ok (some (s, q))) : s.Fits := by
  unfold expressionStatement at hs
  split at hs
  · next hassignment =>
    cases hs
    exact legacyAssignment_fits hassignment
  · obtain ⟨_ | ⟨e, next⟩, hexpression, hs⟩ := bind_eq_ok.mp hs
    · cases hs
    · have he := expression_fits stream _ _ _ _ hexpression
      simp only at hs
      split at hs
      · cases hs
        exact he.anywhere
      · next name params hhead =>
        obtain ⟨⟨braces, stop⟩, hbraces, hs⟩ := bind_eq_ok.mp hs
        cases hs
        split at hhead
        · -- the parameters are the arguments of a call
          obtain ⟨span, rfl⟩ := declarationHead?_eq_some hhead
          exact ⟨he.2, (block_reads (required_eq_ok.mp hbraces)).fits h⟩
        · cases hhead

theorem ifStatement_fits {start : Span}
    (hs : ifStatement stream statement start p = .ok (s, q)) : s.Fits := by
  simp only [ifStatement_eq, bind_eq_ok] at hs
  obtain ⟨⟨test, m⟩, htest, ⟨consequent, n⟩, hconsequent, ⟨alternate, stop⟩, halternate, ⟨⟩⟩ := hs
  exact ⟨ifTest_fits htest, h _ _ _ (requiredStatement_reads hconsequent),
    (clause_reads halternate).actionFits h⟩

theorem whileStatement_fits {start : Span}
    (hs : whileStatement stream statement start p = .ok (s, q)) : s.Fits := by
  simp only [whileStatement, bind_eq_ok] at hs
  obtain ⟨⟨test, m⟩, htest, ⟨body, n⟩, hbody, ⟨⟩⟩ := hs
  exact ⟨condition_fits htest, h _ _ _ (requiredStatement_reads hbody)⟩

theorem loopStatement_fits {start : Span}
    (hs : loopStatement stream statement start p = .ok (s, q)) : s.Fits := by
  simp only [loopStatement_eq, bind_eq_ok] at hs
  obtain ⟨⟨arguments, m⟩, harguments, ⟨body, n⟩, hbody, ⟨test, stop⟩, htest, ⟨⟩⟩ := hs
  exact ⟨(paramsWithin_reads harguments).fit, h _ _ _ (requiredStatement_reads hbody),
    untilClause_fits htest⟩

theorem forStatement_fits {start : Span}
    (hs : forStatement stream statement start p = .ok (s, q)) : s.Fits := by
  simp only [forStatement_eq, bind_eq_ok] at hs
  obtain ⟨⟨name, k⟩, -, ⟨value, l⟩, -, hs⟩ := hs
  simp only [forRest] at hs
  split at hs
  · simp only [bind_eq_ok] at hs
    obtain ⟨⟨iterable, m⟩, hiterable, ⟨body, n⟩, hbody, ⟨test, stop⟩, htest, ⟨⟩⟩ := hs
    exact ⟨expression_fits stream _ _ _ _ (expressionOnLine_reads hiterable),
      h _ _ _ (requiredStatement_reads hbody), untilClause_fits htest⟩
  · cases hs

theorem tryStatement_fits {start : Span}
    (hs : tryStatement stream statement start p = .ok (s, q)) : s.Fits := by
  simp only [tryStatement, bind_eq_ok] at hs
  obtain ⟨⟨body, m⟩, hbody, ⟨handler, n⟩, hhandler, ⟨finalizer, stop⟩, hfinalizer, ⟨⟩⟩ := hs
  exact ⟨h _ _ _ (requiredStatement_reads hbody), (catchClause_reads hhandler).handlerFits h,
    (clause_reads hfinalizer).actionFits h⟩

theorem flow_fits (hs : flow stream statement p = .ok (some (s, q))) : s.Fits := by
  rcases flow_cases hs with hs | hs | hs | hs | hs
  · exact ifStatement_fits h hs
  · exact whileStatement_fits h hs
  · exact loopStatement_fits h hs
  · exact forStatement_fits h hs
  · exact tryStatement_fits h hs

/-- What a rule reads fits if the statements inside do. -/
theorem statementRules_fits (hs : statementRules stream statement p = .ok (some (s, q))) :
    s.Fits := by
  simp only [statementRules, orTry_eq_found] at hs
  rcases hs with hs | ⟨-, hs | ⟨-, hs | ⟨-, hs | ⟨-, hs | ⟨-, hs | ⟨-, hs⟩⟩⟩⟩⟩⟩
  · exact hotstring_fits h hs
  · exact hotkey_fits h hs
  · exact label_fits hs
  · exact blockStatement_fits h hs
  · exact flow_fits h hs
  · exact command_fits hs
  · exact expressionStatement_fits h hs

end Statements

theorem statement_fits (stream : Stream) : ReadsFitting (Grammar.statement stream) := by
  have hwithin : ∀ bound, ReadsFitting (statementWithin stream bound) := by
    intro bound
    induction bound with
    | zero =>
      intro s p q h
      cases h
    | succ bound ih =>
      intro s p q h
      exact statementRules_fits ih h
  exact fun s p => hwithin (stream.size - p) s p

end Grammar

variable {source : Source} {script : Script}

/-- In a parsed source every kind of expression stands at a place for it. -/
theorem parse_fits (h : parse source = .ok script) : ∀ s ∈ script.body, s.Fits := by
  obtain ⟨stop, -, hbody, -⟩ := Grammar.parse_reads h
  exact bodyFits_iff.mp (hbody.fit (Grammar.statement_fits _))

/-- An older assignment, and a hotstring that runs a call with an element that is spread over the
list. -/
theorem parse_fits_mixed :
    ∃ script, parse "x = a\n:x:b::c(d*)".toList = .ok script ∧
      script.body.map Stmt.kind = [.legacyAssignment, .hotstring] ∧ ∀ s ∈ script.body, s.Fits := by
  have hkinds : (parse "x = a\n:x:b::c(d*)".toList).toOption.map (·.body.map Stmt.kind) =
      some [.legacyAssignment, .hotstring] := by decide +kernel
  obtain ⟨script, h, hbody⟩ := Grammar.exists_of_toOption_map hkinds
  exact ⟨script, h, hbody, parse_fits h⟩

end HotkeyScript
