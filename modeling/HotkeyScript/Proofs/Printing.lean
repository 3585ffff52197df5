import HotkeyScript.Parse
import HotkeyScript.Proofs.Grammar.ExpressionEquation
import HotkeyScript.Proofs.Stream.Spaced
import HotkeyScript.Proofs.Tree.Printable
import HotkeyScript.Proofs.Tree.Shape

/-!
# Printed expressions are read back

The text of a printable expression parses to the expression. Along the words the parser takes every
operator at one level of its recursion only: where the operand before an operator ends, all the
levels below that were opened for it halt at the operator, and the level at which the operator
belongs takes it.

## Main definitions

* `Grammar.Halts` — no step leads on from a position, whatever stands to its left.
* `Grammar.Reaches` — the parser passes through an expression on its way up.
* `Grammar.Passes` — it does so wherever the words of the expression stand.
-/

namespace HotkeyScript.Grammar

open Token (Word)

variable {stream : Stream} {words rest : List Word} {floor : Floor} {left e : Expr}
  {p q m level precedence : Nat} {text op : String}

/-! ## Where the parser halts -/

/-- No step leads on from the position under the floor. -/
def Halts (stream : Stream) (floor : Floor) (p : Nat) : Prop :=
  ∀ left, extend stream (expression stream) floor left p = .ok none

theorem Halts.climb (h : Halts stream floor p) (e : Expr) :
    climb stream (expression stream) floor e p = .ok (e, p) := by
  rw [climb_eq (expression_advances stream), h e]
  rfl

theorem halts_of_size_le (h : stream.size ≤ p) : Halts stream floor p := by
  intro left
  exact extend_eq_absent_of_size_le h

/-- The symbols that start no operand. -/
def startsNoOperand (text : String) : Bool :=
  (Operator.leading? text).isNone && text != "(" && text != "[" && text != "\x7b"

theorem expression_eq_absent (hs : stream.Spaced words)
    (hword : words[p]? = some ⟨.symbol, text⟩) (htext : startsNoOperand text = true) :
    expression stream floor p = .ok none := by
  obtain ⟨token, htoken, hkind, rfl⟩ := hs.token hword
  simp only [startsNoOperand, Bool.and_eq_true, Option.isNone_iff_eq_none, bne_iff_ne, ne_eq]
    at htext
  obtain ⟨⟨⟨hleading, hparen⟩, hbracket⟩, hbrace⟩ := htext
  have hprimary : primary stream (expression stream) p = .ok none := by
    simp [primary, htoken, hkind, leadingOperator, hleading, orTry, bracketed, hparen, hbracket,
      hbrace]
  rw [expression_eq, hprimary]
  rfl

theorem members_absent (hs : stream.Spaced words) (hword : words[p]? = some ⟨.symbol, text⟩)
    (htext : text ≠ "[") (left : Expr) :
    dotMember stream left p = .ok none ∧
      indexMember stream (expression stream) left p = .ok none ∧
      call stream (expression stream) left p = .ok none := by
  refine ⟨?_, ?_, ?_⟩
  · unfold dotMember
    split
    · rfl
    · simp [hs.apart]
  · simp [indexMember, hs.reads hword, htext]
  · simp [call, hs.apart]

/-- The parser halts at a symbol that the floor does not admit, unless the symbol could start an
operand that is concatenated. -/
theorem halts_of_symbol (hs : stream.Spaced words) (hpos : 0 < p)
    (hword : words[p]? = some ⟨.symbol, text⟩)
    (hbinary : ∀ precedence, Operator.binary? text = some precedence →
      floor.admitsBinary precedence = false)
    (hconditional : text = "?" → floor.admits Operator.conditional = false)
    (hoperand : floor.admits Operator.concatenation = true → startsNoOperand text = true)
    (htext : text ≠ "[" ∧ text ≠ "++" ∧ text ≠ "--") : Halts stream floor p := by
  intro left
  have hline := hs.line hpos (hs.lt_size hword)
  obtain ⟨hdot, hindex, hcall⟩ := members_absent hs hword htext.1 left
  obtain ⟨token, htoken, -, hrepr⟩ := hs.token hword
  have hbin : binary stream (expression stream) floor left p = .ok none := by
    unfold binary
    rw [htoken]
    simp only [hrepr]
    cases hprecedence : Operator.binary? text with
    | none => rfl
    | some precedence => simp [hbinary precedence hprecedence]
  have htrailing : trailingOperator stream left p = .ok none := by
    simp [trailingOperator, htoken, hrepr, htext.2.1, htext.2.2]
  have hcond : conditional stream (expression stream) floor left p = .ok none := by
    unfold conditional
    rw [hs.reads hword]
    by_cases hmark : text = "?"
    · simp [hconditional hmark]
    · simp [hmark]
  have hconcat : concatenation stream (expression stream) floor left p = .ok none := by
    unfold concatenation
    by_cases hadmits : floor.admits Operator.concatenation = true
    · rw [expression_eq_absent hs hword (hoperand hadmits)]
      simp [hadmits, hline, ok_bind]
    · simp [hadmits]
  simp [extend, hdot, hindex, hcall, hbin, htrailing, hcond, hconcat, orTry]

/-- The parser halts at a parenthesis or a colon that closes something. -/
theorem halts_of_closing (hs : stream.Spaced words) (hpos : 0 < p)
    (hword : words[p]? = some ⟨.symbol, text⟩) (htext : text = ")" ∨ text = ":") :
    Halts stream floor p := by
  have hnone : ∀ text ∈ [")", ":"], Operator.binary? text = none ∧ text ≠ "?" ∧
      startsNoOperand text = true ∧ text ≠ "[" ∧ text ≠ "++" ∧ text ≠ "--" := by decide
  obtain ⟨hbinary, hmark, hoperand, hbrackets⟩ := hnone text (by simpa using htext)
  refine halts_of_symbol hs hpos hword ?_ (fun h => absurd h hmark) (fun _ => hoperand) hbrackets
  intro precedence hprecedence
  rw [hbinary] at hprecedence
  cases hprecedence

/-- The parser halts at a question mark under a floor that is above conditions. -/
theorem halts_of_question (hs : stream.Spaced words) (hpos : 0 < p)
    (hword : words[p]? = some ⟨.symbol, "?"⟩)
    (hfloor : floor.admits Operator.conditional = false) : Halts stream floor p := by
  refine halts_of_symbol hs hpos hword ?_ (fun _ => hfloor) (fun _ => by decide) (by decide)
  intro precedence hprecedence
  rw [show Operator.binary? "?" = none by decide] at hprecedence
  cases hprecedence

/-- What the table of operators says of each of its entries. -/
theorem binaryTable_entry (h : (op, precedence) ∈ Operator.binaryTable) :
    Operator.binary? op = some precedence ∧ op ≠ "?" ∧
      (precedence < Operator.concatenation → startsNoOperand op = true) ∧
      op ≠ "[" ∧ op ≠ "++" ∧ op ≠ "--" := by
  have hall : ∀ entry ∈ Operator.binaryTable, Operator.binary? entry.1 = some entry.2 ∧
      entry.1 ≠ "?" ∧ (entry.2 < Operator.concatenation → startsNoOperand entry.1 = true) ∧
      entry.1 ≠ "[" ∧ entry.1 ≠ "++" ∧ entry.1 ≠ "--" := by decide +kernel
  exact hall _ h

/-- The parser halts at an operator that the floor does not admit. An operator that could also stand
before an operand binds tighter than a concatenation, so none is read there. -/
theorem halts_of_operator (hs : stream.Spaced words) (hpos : 0 < p)
    (hword : words[p]? = some ⟨.symbol, op⟩) (hop : (op, precedence) ∈ Operator.binaryTable)
    (hfloor : (Floor.above level).admitsBinary precedence = false) :
    Halts stream (.above level) p := by
  obtain ⟨hbinary, hmark, hoperand, hbrackets⟩ := binaryTable_entry hop
  refine halts_of_symbol hs hpos hword ?_ (fun h => absurd h hmark) ?_ hbrackets
  · intro other hother
    rw [hbinary] at hother
    cases hother
    exact hfloor
  · intro hadmits
    simp only [Floor.admits_above, decide_eq_true_eq] at hadmits
    simp [Floor.admitsBinary] at hfloor
    exact hoperand (by omega)

/-! ## Steps that are taken -/

theorem primary_group {inner : Expr} (hs : stream.Spaced words)
    (hopen : words[p]? = some ⟨.symbol, "("⟩)
    (hinner : expression stream .any (p + 1) = .ok (some (inner, q)))
    (hclose : words[q]? = some ⟨.symbol, ")"⟩) :
    primary stream (expression stream) p =
      .ok (some (.group inner (stream.spanTo (stream.spanAt p) (q + 1)), q + 1)) := by
  obtain ⟨token, htoken, hkind, hrepr⟩ := hs.token hopen
  have hleading : Operator.leading? "(" = none := by decide
  have hexpected : expect stream p "(" = .ok () := by simp [expect, hs.expected hopen]
  have hexpected' : expect stream q ")" = .ok () := by simp [expect, hs.expected hclose]
  have hgroup : group stream (expression stream) p =
      .ok (.group inner (stream.spanTo (stream.spanAt p) (q + 1)), q + 1) := by
    simp [group, hexpected, hinner, required, hexpected', ok_bind]
  simp [primary, htoken, hkind, leadingOperator, hrepr, hleading, orTry, bracketed, hgroup]

theorem extend_operator {right : Expr} (hs : stream.Spaced words) (hpos : 0 < m)
    (hword : words[m]? = some ⟨.symbol, op⟩) (hop : (op, precedence) ∈ Operator.binaryTable)
    (hadmits : floor.admitsBinary precedence = true)
    (hright : expression stream (.above precedence) (m + 1) = .ok (some (right, q)))
    (left : Expr) :
    extend stream (expression stream) floor left m =
      .ok (some (.binary op left right (left.span.to right.span.stop), q)) := by
  obtain ⟨hbinary, -, -, hbracket, -⟩ := binaryTable_entry hop
  obtain ⟨hdot, hindex, hcall⟩ := members_absent hs hword hbracket left
  have hcontinues := Stream.continues_of_not_startsLine (hs.line hpos (hs.lt_size hword))
  obtain ⟨token, htoken, -, hrepr⟩ := hs.token hword
  have hstep : binary stream (expression stream) floor left m =
      .ok (some (.binary op left right (left.span.to right.span.stop), q)) := by
    simp [binary, htoken, hrepr, hbinary, hadmits, hright, ok_bind]
  simp [extend, hcontinues, hdot, hindex, hcall, hstep, orTry]

theorem extend_condition {consequent alternate : Expr} {colon : Nat} (hs : stream.Spaced words)
    (hpos : 0 < m) (hword : words[m]? = some ⟨.symbol, "?"⟩)
    (hadmits : floor.admits Operator.conditional = true)
    (hconsequent : expression stream (.above Operator.comma) (m + 1) =
      .ok (some (consequent, colon)))
    (hcolon : words[colon]? = some ⟨.symbol, ":"⟩)
    (halternate : expression stream (.above Operator.assignment) (colon + 1) =
      .ok (some (alternate, q)))
    (left : Expr) :
    extend stream (expression stream) floor left m =
      .ok (some (.conditional left consequent alternate (left.span.to alternate.span.stop), q)) := by
  obtain ⟨hdot, hindex, hcall⟩ := members_absent hs hword (by decide) left
  have hcontinues := Stream.continues_of_not_startsLine (hs.line hpos (hs.lt_size hword))
  obtain ⟨token, htoken, -, hrepr⟩ := hs.token hword
  have hnone : Operator.binary? "?" = none := by decide
  have hbinary : binary stream (expression stream) floor left m = .ok none := by
    simp [binary, htoken, hrepr, hnone]
  have htrailing : trailingOperator stream left m = .ok none := by
    simp [trailingOperator, htoken, hrepr]
  have hexpected : expect stream colon ":" = .ok () := by
    simp [expect, hs.expected hcolon]
  have hstep : conditional stream (expression stream) floor left m =
      .ok (some (.conditional left consequent alternate
        (left.span.to alternate.span.stop), q)) := by
    simp [conditional, hs.reads hword, hadmits, hconsequent, hexpected, halternate, required,
      ok_bind]
  simp [extend, hcontinues, hdot, hindex, hcall, hbinary, htrailing, hstep, orTry]

/-! ## The way through an expression -/

/-- On its way up from `p` the parser passes through the expression, at `q`. -/
def Reaches (stream : Stream) (floor : Floor) (p : Nat) (e : Expr) (q : Nat) : Prop :=
  ∃ e', e'.bare = e.bare ∧
    expression stream floor p = some <$> climb stream (expression stream) floor e' q

theorem Reaches.read (h : Reaches stream floor p e q) (hhalts : Halts stream floor q) :
    ∃ e', e'.bare = e.bare ∧ expression stream floor p = .ok (some (e', q)) := by
  obtain ⟨e', hbare, hexpression⟩ := h
  exact ⟨e', hbare, by rw [hexpression, hhalts.climb]; rfl⟩

theorem Reaches.step (h : Reaches stream floor p left m)
    (hstep : ∀ left', left'.bare = left.bare → ∃ e', e'.bare = e.bare ∧
      extend stream (expression stream) floor left' m = .ok (some (e', q))) :
    Reaches stream floor p e q := by
  obtain ⟨left', hleft, hexpression⟩ := h
  obtain ⟨e', hbare, hextend⟩ := hstep left' hleft
  refine ⟨e', hbare, ?_⟩
  rw [hexpression, climb_eq (expression_advances stream), hextend]
  rfl

theorem reaches_of_primary {e' : Expr} (hbare : e'.bare = e.bare)
    (h : primary stream (expression stream) p = .ok (some (e', q))) :
    Reaches stream floor p e q := by
  refine ⟨e', hbare, ?_⟩
  rw [expression_eq, h]
  rfl

theorem drop_add {front : List Word} (h : words.drop p = front ++ rest) :
    words.drop (p + front.length) = rest := by
  rw [← List.drop_drop, h, List.drop_left]

theorem drop_succ {word : Word} (h : words.drop p = word :: rest) : words.drop (p + 1) = rest := by
  rw [← List.drop_drop, h, List.drop_one, List.tail_cons]

theorem getElem?_of_drop {word : Word} (h : words.drop p = word :: rest) :
    words[p]? = some word := by
  rw [← List.head?_drop, h]
  rfl

/-- The operand at the end of a printable operand was read above at least the precedence of the
operator to its left. -/
theorem le_edge {edge : Nat} (he : e.Printable) (h : e.RightOf precedence)
    (hedge : e.edge? = some edge) : precedence ≤ edge := by
  cases he with
  | identifier => cases hedge
  | group => cases hedge
  | binary hop =>
    obtain ⟨inner, hinner, hle⟩ := h
    have heq : inner = edge := Option.some.inj (hinner.symm.trans hedge)
    omega
  | conditional =>
    cases hedge
    exact h

theorem rightOf_assignment (h : e.RightOf Operator.comma) : e.RightOf Operator.assignment := by
  cases e with
  | binary op left right span =>
    obtain ⟨inner, hinner, hle⟩ := h
    refine ⟨inner, hinner, ?_⟩
    simp only [Operator.comma, Operator.assignment, and_true] at hle ⊢
    omega
  | conditional _ _ _ _ => exact Nat.le_refl Operator.assignment
  | concat _ _ _ =>
    show Operator.assignment < Operator.concatenation
    decide
  | _ => trivial

/-- Wherever the words of the expression stand, the parser passes through the expression, if the
floor admits it and the operand at its end cannot be carried on. -/
def Passes (stream : Stream) (words : List Word) (e : Expr) : Prop :=
  ∀ {floor : Floor} {p : Nat} {rest : List Word}, words.drop p = e.words ++ rest →
    (∀ level, e.level? = some level → floor.admitsBinary level = true) →
    (∀ edge, e.edge? = some edge → ∀ level, edge ≤ level →
      Halts stream (.above level) (p + e.words.length)) →
    Reaches stream floor p e (p + e.words.length)

theorem passes_identifier {name : Identifier} (hs : stream.Spaced words)
    (hname : Expr.IsName name.name) : Passes stream words (.identifier name) := by
  intro floor p rest hwords _ _
  obtain ⟨token, htoken, hkind, hrepr⟩ := hs.token (getElem?_of_drop hwords)
  have hclause : Keyword.isClause token = false := Expr.IsName.isClause (hrepr ▸ hname)
  have hbare : (Expr.identifier (identifier token)).bare = (Expr.identifier name).bare := by
    simp [identifier, hrepr]
  refine reaches_of_primary hbare ?_
  simp [primary, htoken, hkind, hclause, Expr.words]

theorem passes_group {inner : Expr} (hs : stream.Spaced words) (ih : Passes stream words inner)
    (span : Span) : Passes stream words (.group inner span) := by
  intro floor p rest hwords _ _
  have hopen : words.drop p = ⟨.symbol, "("⟩ :: (inner.words ++ ⟨.symbol, ")"⟩ :: rest) := by
    rw [hwords]
    simp [Expr.words]
  have hinside := drop_succ hopen
  have hclose := getElem?_of_drop (drop_add hinside)
  have hclosing : ∀ {floor}, Halts stream floor (p + 1 + inner.words.length) :=
    halts_of_closing hs (by omega) hclose (.inl rfl)
  have hreaches : Reaches stream .any (p + 1) inner (p + 1 + inner.words.length) :=
    ih hinside (fun _ _ => rfl) fun _ _ _ _ => hclosing
  obtain ⟨inner', hbare, hread⟩ := hreaches.read hclosing
  have hlength : p + (Expr.group inner span).words.length = p + 1 + inner.words.length + 1 := by
    simp only [Expr.words, List.length_cons, List.length_append, List.length_nil]
    omega
  rw [hlength]
  refine reaches_of_primary ?_ (primary_group hs (getElem?_of_drop hopen) hread hclose)
  simp [hbare]

theorem passes_binary {op : String} {left right : Expr} (hs : stream.Spaced words)
    (hop : (op, precedence) ∈ Operator.binaryTable) (hleft : left.LeftOf precedence)
    (hright : right.RightOf precedence) (hl : left.Printable) (hr : right.Printable)
    (ihleft : Passes stream words left) (ihright : Passes stream words right) (span : Span) :
    Passes stream words (.binary op left right span) := by
  intro floor p rest hwords hadmits hhalts
  have hlevel : Operator.binary? op = some precedence := (binaryTable_entry hop).1
  have hfront : words.drop p = left.words ++ ⟨.symbol, op⟩ :: (right.words ++ rest) := by
    rw [hwords]
    simp [Expr.words]
  have hrest := drop_add hfront
  have hop' := getElem?_of_drop hrest
  have hpos := hl.words_pos
  have hlength : p + (Expr.binary op left right span).words.length =
      p + left.words.length + 1 + right.words.length := by
    simp only [Expr.words, List.length_cons, List.length_append]
    omega
  rw [hlength] at hhalts ⊢
  -- the operand to the left ends at the operator, which belongs to this level
  have hreachesLeft := ihleft hfront
    (fun level h => hleft.admits_of_admits h (hadmits precedence hlevel))
    fun edge hedge level hle => halts_of_operator hs (by omega) hop' hop
      (Floor.admitsBinary_eq_false_of_le (hleft.not_admits hedge) hle)
  -- the operand to the right ends where the whole does
  have hreachesRight := ihright (drop_succ hrest) (fun level h => hright.admits h)
    fun edge hedge level hle => hhalts precedence hlevel level
      (Nat.le_trans (le_edge hr hright hedge) hle)
  obtain ⟨right', hbare, hread⟩ :=
    hreachesRight.read (hhalts precedence hlevel precedence (Nat.le_refl _))
  refine hreachesLeft.step fun left' hleft' => ?_
  exact ⟨_, by simp [hbare, hleft'],
    extend_operator hs (by omega) hop' hop (hadmits precedence hlevel) hread left'⟩

theorem passes_conditional {test consequent alternate : Expr} (hs : stream.Spaced words)
    (ht : test.RightOf Operator.conditional) (hc : consequent.RightOf Operator.comma)
    (ha : alternate.RightOf Operator.comma) (htest : test.Printable)
    (halternate : alternate.Printable) (ihtest : Passes stream words test)
    (ihconsequent : Passes stream words consequent) (ihalternate : Passes stream words alternate)
    (span : Span) : Passes stream words (.conditional test consequent alternate span) := by
  intro floor p rest hwords hadmits hhalts
  have hadmits := hadmits Operator.conditional rfl
  have hfront : words.drop p = test.words ++ ⟨.symbol, "?"⟩ ::
      (consequent.words ++ ⟨.symbol, ":"⟩ :: (alternate.words ++ rest)) := by
    rw [hwords]
    simp [Expr.words]
  have hmark := drop_add hfront
  have hmark' := getElem?_of_drop hmark
  have hcolon := drop_add (drop_succ hmark)
  have hcolon' := getElem?_of_drop hcolon
  have hpos := htest.words_pos
  have hlength : p + (Expr.conditional test consequent alternate span).words.length =
      p + test.words.length + 1 + consequent.words.length + 1 + alternate.words.length := by
    simp only [Expr.words, List.length_cons, List.length_append]
    omega
  rw [hlength] at hhalts ⊢
  have hreachesTest := ihtest hfront (fun level h => ht.admits_of_admits h hadmits)
    fun edge hedge level hle => by
      have hedge' := le_edge htest ht hedge
      refine halts_of_question hs (by omega) hmark' ?_
      simp only [Floor.admits_above, decide_eq_false_iff_not]
      omega
  have hclosing : ∀ {floor}, Halts stream floor
      (p + test.words.length + 1 + consequent.words.length) :=
    halts_of_closing hs (by omega) hcolon' (.inr rfl)
  have hreachesConsequent := ihconsequent (drop_succ hmark) (fun level h => hc.admits h)
    fun _ _ _ _ => hclosing
  obtain ⟨consequent', hbare, hread⟩ := hreachesConsequent.read hclosing
  -- an alternate is no comma, so it is read above the assignments
  have hassignment := rightOf_assignment ha
  have hreachesAlternate := ihalternate (drop_succ hcolon) (fun level h => hassignment.admits h)
    fun edge hedge level hle => hhalts Operator.assignment rfl level
      (Nat.le_trans (le_edge halternate hassignment hedge) hle)
  obtain ⟨alternate', hbare', hread'⟩ :=
    hreachesAlternate.read (hhalts Operator.assignment rfl _ (Nat.le_refl _))
  refine hreachesTest.step fun test' htest' => ?_
  exact ⟨_, by simp [hbare, hbare', htest'], extend_condition hs (by omega) hmark'
    ((Floor.admitsBinary_conditional floor).symm.trans hadmits) hread hcolon' hread' test'⟩

theorem passes_of_printable (hs : stream.Spaced words) (he : e.Printable) :
    Passes stream words e := by
  induction he with
  | identifier hname => exact passes_identifier hs hname
  | group _ ih => exact passes_group hs ih _
  | binary hop hleft hright hl hr ihleft ihright =>
    exact passes_binary hs hop hleft hright hl hr ihleft ihright _
  | conditional ht hc ha htest _ halternate ihtest ihconsequent ihalternate =>
    exact passes_conditional hs ht hc ha htest halternate ihtest ihconsequent ihalternate _

end HotkeyScript.Grammar

namespace HotkeyScript

open Grammar

/-- A printable expression is read back from its text, up to the places of its parts. -/
theorem parseExpression_print {e : Expr} (h : e.Printable) :
    ∃ e', parseExpression e.print = .ok (some e') ∧ e'.bare = e.bare := by
  have hs : (Stream.ofSource e.print).Spaced e.words :=
    Stream.spaced_ofSource (fun word hword => (h.lexes word hword).1)
      fun word hword => (h.lexes word hword).2
  have hsize : (Stream.ofSource e.print).size = 0 + e.words.length := by rw [hs.size, Nat.zero_add]
  have hend : ∀ {floor}, Halts (Stream.ofSource e.print) floor (0 + e.words.length) :=
    halts_of_size_le (Nat.le_of_eq hsize)
  have hreaches : Reaches (Stream.ofSource e.print) .any 0 e (0 + e.words.length) :=
    passes_of_printable hs h (List.append_nil _).symm (fun _ _ => rfl) fun _ _ _ _ => hend
  obtain ⟨e', hbare, hread⟩ := hreaches.read hend
  refine ⟨e', ?_, hbare⟩
  simp [parseExpression, hread, ok_bind, hsize]

/-- An assignment to the right of which stands a condition. -/
theorem parseExpression_print_assignment :
    ∃ e', parseExpression "x := a + b ? ( c ) : d".toList = .ok (some e') ∧
      e'.bare = .binary ":=" (.identifier ⟨"x", {}⟩)
        (.conditional (.binary "+" (.identifier ⟨"a", {}⟩) (.identifier ⟨"b", {}⟩) {})
          (.group (.identifier ⟨"c", {}⟩) {}) (.identifier ⟨"d", {}⟩) {}) {} := by
  have hname : ∀ text ∈ ["x", "a", "b", "c", "d"], Token.lexeme none true text.toList =
      (.word, text.toList.length) ∧
        ∀ keyword ∈ Expr.clauseWords, Text.sameText text keyword = false := by decide
  have hprintable : ∀ text ∈ ["x", "a", "b", "c", "d"],
      (Expr.identifier ⟨text, {}⟩).Printable :=
    fun text htext => .identifier ⟨(hname text htext).1, (hname text htext).2⟩
  have hplus : ("+", 12) ∈ Operator.binaryTable := by decide
  have hassign : (":=", 1) ∈ Operator.binaryTable := by decide
  have hsum : (Expr.binary "+" (.identifier ⟨"a", {}⟩) (.identifier ⟨"b", {}⟩) {}).Printable :=
    .binary hplus trivial trivial (hprintable "a" (by decide)) (hprintable "b" (by decide))
  have hcondition : (Expr.conditional
      (.binary "+" (.identifier ⟨"a", {}⟩) (.identifier ⟨"b", {}⟩) {})
      (.group (.identifier ⟨"c", {}⟩) {}) (.identifier ⟨"d", {}⟩) {}).Printable :=
    .conditional ⟨12, by decide, by decide⟩ trivial trivial hsum
      (.group (hprintable "c" (by decide))) (hprintable "d" (by decide))
  have hwhole : (Expr.binary ":=" (.identifier ⟨"x", {}⟩)
      (.conditional (.binary "+" (.identifier ⟨"a", {}⟩) (.identifier ⟨"b", {}⟩) {})
        (.group (.identifier ⟨"c", {}⟩) {}) (.identifier ⟨"d", {}⟩) {}) {}).Printable :=
    .binary hassign trivial (Nat.le_refl 1) (hprintable "x" (by decide)) hcondition
  obtain ⟨e', hparse, hbare⟩ := parseExpression_print hwhole
  refine ⟨e', ?_, by simpa using hbare⟩
  rw [← hparse]
  congr 1

end HotkeyScript
