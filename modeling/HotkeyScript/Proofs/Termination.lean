import HotkeyScript.Proofs.Grammar.StatementEquation

/-!
# The cursor and termination

A rule of the grammar starts at a position, the cursor, and leaves the cursor behind what it has
read. A rule that matches moves it on, and never behind the last token. So a loop that reads on, and
a rule that asks for parts behind its first token, comes to an end.

That a rule that does not apply leaves the cursor where it was needs no proof: its outcome holds no
position, so there is nothing to undo, and whatever is tried next starts from the same one.

A loop and a recursion are both given by what they do in one round, with the calls that they make
as an argument. `Terminates` says that the rounds come to an end within as many calls as there are
tokens left: below them nothing is asked any more, whatever would be answered there.

## Main definitions

* `Grammar.cursor?`, `Grammar.MovesOn`, `Grammar.MovesForward` — where a rule leaves the cursor.
* `Grammar.CursorDiscipline` — what each rule does to the cursor.
* `Grammar.Terminates`, `Grammar.GrammarTerminates` — the ends of the loops and of the recursion.
-/

namespace HotkeyScript.Grammar

variable {α ι A : Type} {stream : Stream} {p q : Nat}

/-! ## The cursor -/

/-- The cursor behind a rule that starts at `p`, and none behind a rule that fails. The outcome of a
rule that does not apply has no position of its own, and the cursor is `p` by definition. -/
def cursor? (p : Nat) : Checked (Option (Read α)) → Option Nat
  | .ok none => some p
  | .ok (some (_, q)) => some q
  | .error _ => none

/-- The rule leaves the cursor where it was if it does not apply, and moves it on if it matches, to
the end of the stream at most. Only the second half says something about the rule. The first holds
of every outcome, by `cursor?`, so that it is enough to look at matches (`movesOn_of_found`). -/
def MovesOn (stream : Stream) (p : Nat) (outcome : Checked (Option (Read α))) : Prop :=
  ∀ q, cursor? p outcome = some q →
    outcome = .ok none ∧ q = p ∨
      (∃ a, outcome = .ok (some (a, q))) ∧ p < q ∧ q ≤ stream.size

/-- The rule never moves the cursor back, nor behind the end of the stream. -/
def MovesForward (stream : Stream) (p : Nat) (outcome : Checked (Read α)) : Prop :=
  ∀ a q, outcome = .ok (a, q) → p ≤ q ∧ q ≤ stream.size

theorem movesOn_of_found {outcome : Checked (Option (Read α))}
    (h : ∀ a q, outcome = .ok (some (a, q)) → p < q ∧ q ≤ stream.size) :
    MovesOn stream p outcome := by
  intro q hq
  rcases outcome with error | _ | ⟨a, next⟩
  · cases hq
  · cases hq
    exact .inl ⟨rfl, rfl⟩
  · cases hq
    exact .inr ⟨⟨a, rfl⟩, h a q rfl⟩

/-- Where the rules of the grammar leave the cursor, from every position up to the end. -/
structure CursorDiscipline (stream : Stream) : Prop where
  statement {p : Nat} : p ≤ stream.size → MovesOn stream p (statement stream p)
  expression (floor : Floor) {p : Nat} : p ≤ stream.size →
    MovesOn stream p (expression stream floor p)
  blockStatement {p : Nat} : p ≤ stream.size →
    MovesOn stream p (blockStatement stream (Grammar.statement stream) p)
  group {p : Nat} : p ≤ stream.size →
    MovesForward stream p (group stream (Grammar.expression stream) p)
  object (opening : Token) {p : Nat} : p ≤ stream.size →
    MovesForward stream p (object stream (Grammar.expression stream) opening p)
  climb (floor : Floor) (left : Expr) {p : Nat} : p ≤ stream.size →
    MovesForward stream p (climb stream (Grammar.expression stream) floor left p)
  list {p : Nat} : p ≤ stream.size →
    MovesForward stream p (list stream (Grammar.expression stream) p)
  params (halt : Nat → Bool) {p : Nat} : p ≤ stream.size →
    MovesForward stream p (params stream halt p)
  body {p : Nat} : p ≤ stream.size →
    MovesForward stream p (body stream (Grammar.statement stream) p)

theorem cursorDiscipline (stream : Stream) : CursorDiscipline stream where
  statement _ := movesOn_of_found fun s q h => statement_advances stream s _ q h
  expression floor p _ := movesOn_of_found (expression_advances stream floor p)
  blockStatement _ := by
    refine movesOn_of_found fun s q h => ?_
    obtain ⟨_ | ⟨braces, stop⟩, hbraces, h⟩ := bind_eq_ok.mp h
    · cases h
    · cases h
      exact (block_reads hbraces).bounds (statement_advances stream)
  group _ e q h := by
    have := (group_reads h).advances (expression_advances stream)
    omega
  object opening {p} hle e q h := by
    unfold Grammar.object at h
    split at h
    · next hbrace =>
      cases h
      have := Stream.lt_size_of_reads hbrace
      omega
    · obtain ⟨⟨properties, stop⟩, hproperties, h⟩ := bind_eq_ok.mp h
      cases h
      have := (propertiesWithin_reads hproperties).advances (expression_advances stream)
      omega
  climb floor left p hle e q h := climbWithin_advances (expression_advances stream) hle h
  list hle elements q h := by
    obtain ⟨hle', hsize⟩ := list_advances (expression_advances stream) h
    exact ⟨hle', hsize hle⟩
  params halt p hle arguments q h := by
    obtain ⟨hle', hsize⟩ := (paramsWithin_reads h).bounds
    exact ⟨hle', hsize hle⟩
  body hle statements q h := (bodyWithin_reads h).bounds (statement_advances stream) hle

/-! ## Termination -/

/-- The recursion with the given round ends with the answers of `f`: a call at a position makes
calls nested no deeper than there are tokens left, so that it does not matter what `base` answers
below. -/
def Terminates (stream : Stream) (position : ι → Nat) (round : (ι → A) → ι → A) (f : ι → A) :
    Prop :=
  ∀ base n i, stream.size - position i < n → Nat.repeat round n base i = f i

/-- A recursion terminates if it makes no call at the end of the stream, and only calls at later
positions before. -/
theorem terminates_of_later {position : ι → Nat} {round : (ι → A) → ι → A} {f : ι → A}
    (hend : ∀ g i, stream.size ≤ position i → round g i = f i)
    (hlater : ∀ g i, (∀ j, position i < position j → g j = f j) → round g i = f i) :
    Terminates stream position round f := by
  intro base n
  induction n with
  | zero =>
    intro i hlt
    omega
  | succ n ih =>
    intro i hlt
    by_cases hsize : stream.size ≤ position i
    · exact hend _ i hsize
    · exact hlater _ i fun j hj => ih j (by omega)

/-- The calls of a round in which a call has two arguments. -/
def onPairs {κ : Type} (round : (κ → Nat → A) → κ → Nat → A) (g : κ × Nat → A) (i : κ × Nat) : A :=
  round (Function.curry g) i.1 i.2

/-- A step to the right and, from where it leads, the others. -/
def climbRound (stream : Stream) (inner : ExprParser) (floor : Floor)
    (rest : Expr → Nat → Checked (Read Expr)) (left : Expr) (p : Nat) : Checked (Read Expr) := do
  match ← extend stream inner floor left p with
  | none => .ok (left, p)
  | some (longer, next) => rest longer next

/-- An expression whose parts are read by the given parser. -/
def expressionRound (stream : Stream) (inner : ExprParser) : ExprParser := fun floor p => do
  match ← primary stream inner p with
  | none => absent
  | some (left, next) => some <$> climb stream inner floor left next

/-- The loops of the grammar and its recursion come to an end. -/
structure GrammarTerminates (stream : Stream) : Prop where
  body : Terminates stream id (bodyRound stream (Grammar.statement stream))
    (body stream (Grammar.statement stream))
  list : Terminates stream id (slotsRound stream (Grammar.expression stream))
    (slots stream (Grammar.expression stream))
  params (halt : Nat → Bool) : Terminates stream id (paramsRound stream halt) (params stream halt)
  climb (floor : Floor) : Terminates stream Prod.snd
    (onPairs (climbRound stream (Grammar.expression stream) floor))
    (Function.uncurry (climb stream (Grammar.expression stream) floor))
  object : Terminates stream id (propertiesRound stream (Grammar.expression stream))
    (properties stream (Grammar.expression stream))
  modifiers (first : Nat) : Terminates stream id (Stream.skipRound (inModifiers stream first))
    (stream.skip (inModifiers stream first))
  options : Terminates stream id (Stream.skipRound (inOptions stream))
    (stream.skip (inOptions stream))
  triggerText : Terminates stream Prod.snd (onPairs (triggerRound stream))
    (Function.uncurry (triggerEnd? stream))
  label : Terminates stream id (Stream.skipRound (inLabel stream)) (stream.skip (inLabel stream))
  expression : Terminates stream Prod.snd (onPairs (expressionRound stream))
    (Function.uncurry (Grammar.expression stream))
  statement : Terminates stream id (statementRules stream) (Grammar.statement stream)

theorem terminates_skip {condition : Nat → Bool}
    (hend : ∀ i, stream.size ≤ i → condition i = false) :
    Terminates stream id (Stream.skipRound condition) (stream.skip condition) := by
  refine terminates_of_later (fun g i hle => ?_) (fun g i h => ?_)
  · rw [Stream.skip_eq hend]
    simp [Stream.skipRound, hend i hle]
  · rw [Stream.skip_eq hend]
    simp only [Stream.skipRound, h (i + 1) (Nat.lt_succ_self i)]

theorem terminates_climb (stream : Stream) (floor : Floor) :
    Terminates stream Prod.snd (onPairs (climbRound stream (Grammar.expression stream) floor))
      (Function.uncurry (climb stream (Grammar.expression stream) floor)) := by
  refine terminates_of_later ?_ ?_
  · rintro g ⟨left, p⟩ hle
    simp only [onPairs, climbRound, Function.uncurry_apply_pair,
      climb_eq (expression_advances stream) floor left p]
    rw [extend_eq_absent_of_size_le hle]
    rfl
  · rintro g ⟨left, p⟩ h
    simp only [onPairs, climbRound, Function.uncurry_apply_pair,
      climb_eq (expression_advances stream) floor left p]
    refine bind_congr_ok ?_
    rintro (_ | ⟨longer, next⟩) hextend
    · rfl
    · have hlt := ((extend_reads hextend).2.advances (expression_advances stream)).1
      exact h (longer, next) hlt

theorem terminates_triggerText (stream : Stream) :
    Terminates stream Prod.snd (onPairs (triggerRound stream))
      (Function.uncurry (triggerEnd? stream)) := by
  refine terminates_of_later ?_ ?_
  · rintro g ⟨escaped, p⟩ hle
    simp [onPairs, Function.uncurry_apply_pair, triggerEnd?_eq stream escaped p, triggerRound,
      Stream.startsLine_of_size_le hle]
  · rintro g ⟨escaped, p⟩ h
    have hrest : ∀ escaped, Function.curry g escaped (p + 1) = triggerEnd? stream escaped (p + 1) :=
      fun escaped => h (escaped, p + 1) (Nat.lt_succ_self p)
    simp only [onPairs, Function.uncurry_apply_pair, triggerEnd?_eq stream escaped p, triggerRound,
      hrest]

theorem terminates_expression (stream : Stream) :
    Terminates stream Prod.snd (onPairs (expressionRound stream))
      (Function.uncurry (Grammar.expression stream)) := by
  refine terminates_of_later ?_ ?_
  · rintro g ⟨floor, p⟩ hle
    have hnone : ∀ inner, primary stream inner p = .ok none := by
      simp [primary, Stream.token?_eq_none hle]
    simp only [onPairs, expressionRound, Function.uncurry_apply_pair, expression_eq stream floor p,
      hnone]
    rfl
  · rintro g ⟨floor, p⟩ h
    have hadv := expression_advances stream
    have hagree : AgreeFrom (p + 1) (Grammar.expression stream) (Function.curry g) :=
      fun floor p' hlt => (h (floor, p') hlt).symm
    simp only [onPairs, expressionRound, Function.uncurry_apply_pair, expression_eq stream floor p]
    rw [← primary_congr hadv hagree]
    refine bind_congr_ok ?_
    rintro (_ | ⟨left, next⟩) hprimary
    · rfl
    · have hlt := ((primary_reads hprimary).advances hadv).1
      simp only [climb]
      rw [climbWithin_congr hadv hagree (by omega)]

theorem terminates_statement (stream : Stream) :
    Terminates stream id (statementRules stream) (Grammar.statement stream) := by
  refine terminates_of_later (fun g p hle => ?_) (fun g p h => ?_)
  · exact (statementRules_of_size_le g hle).trans (statement_of_size_le hle).symm
  · rw [statement_eq]
    exact (statementRules_congr (statement_advances stream) fun i hlt => (h i hlt).symm).symm

/-- A recursion terminates if its round only depends on calls at later positions up to the end. -/
theorem terminates_of_congr {round : (Nat → A) → Nat → A} {f : Nat → A} (heq : ∀ p, f p = round f p)
    (hcongr : ∀ g p, (∀ q, p < q → q ≤ stream.size → g q = f q) → round g p = round f p) :
    Terminates stream id round f := by
  refine terminates_of_later (fun g p hle => ?_) (fun g p h => ?_)
  · rw [heq]
    refine hcongr g p fun q hlt hq => ?_
    simp only [id] at hle
    omega
  · rw [heq]
    exact hcongr g p fun q hlt _ => h q hlt

theorem grammarTerminates (stream : Stream) : GrammarTerminates stream where
  body := terminates_of_congr (body_eq stream)
    fun g p => bodyRound_congr (statement_advances stream)
  list := terminates_of_congr (slots_eq (expression_advances stream))
    fun g p => slotsRound_congr (expression_advances stream)
  params halt := terminates_of_congr (params_eq stream halt) fun g p => paramsRound_congr
  climb := terminates_climb stream
  object := terminates_of_congr (properties_eq (expression_advances stream))
    fun g p => propertiesRound_congr (expression_advances stream)
  modifiers first := terminates_skip fun i hle => by simp [inModifiers, Stream.token?_eq_none hle]
  options := terminates_skip fun i hle => by simp [inOptions, linked_of_size_le hle]
  triggerText := terminates_triggerText stream
  label := terminates_skip fun i hle => by simp [inLabel, linked_of_size_le hle]
  expression := terminates_expression stream
  statement := terminates_statement stream

/-- Every rule that matches moves the cursor on, to the end of the stream at most; so the loops of
the grammar and its recursion come to an end on every stream. -/
theorem grammar_total (stream : Stream) : CursorDiscipline stream ∧ GrammarTerminates stream :=
  ⟨cursorDiscipline stream, grammarTerminates stream⟩

end HotkeyScript.Grammar
