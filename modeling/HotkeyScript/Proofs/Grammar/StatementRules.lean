import HotkeyScript.Grammar.Statement
import HotkeyScript.Proofs.Grammar.ExpressionEquation

/-!
# What the rules of statements read

For each rule of the statement grammar, what it has found where it matches. The parser of the
statements inside is an argument, as it is for the rules themselves. A proof about statements goes
through the cases of `Grammar.Rule` and never opens a rule.

## Main definitions

* `Grammar.Reads`, `Grammar.Maybe` — what a parser reads, and a part that may be missing.
* `Grammar.IsText`, `Grammar.Arguments`, `Grammar.IsTest`, `Grammar.IsKey` — parts of statements.
* `Grammar.Body`, `Grammar.Braces` — statements one after the other, and between braces.
* `Grammar.Rule` — the statements.
-/

namespace HotkeyScript.Grammar

variable {stream : Stream} {statement : StmtParser} {p q m : Nat}

/-- The parser reads the statement from `p` up to, and without, `q`. -/
def Reads (statement : StmtParser) (s : Stmt) (p q : Nat) : Prop :=
  statement p = .ok (some (s, q))

/-- A part that may be missing; if it is there, it may stand a few tokens further on. -/
inductive Maybe {α : Type} (R : α → Nat → Nat → Prop) : Option α → Nat → Nat → Prop
  | none {p : Nat} : Maybe R none p p
  | some {a : α} {p m q : Nat} : p ≤ m → R a m q → Maybe R (some a) p q

/-! ## Literal text and parameters -/

/-- The text is what the tokens from `p` up to, and without, `q` stand for. -/
def IsText (stream : Stream) (text : LegacyLiteral) (p q : Nat) : Prop :=
  p < q ∧ q ≤ stream.size ∧ text = assemble stream p q

theorem legacyText?_reads {halt : Nat → Bool} {text : LegacyLiteral}
    (h : legacyText? stream halt p = some (text, q)) : IsText stream text p q := by
  simp only [legacyText?] at h
  split at h
  · cases h
  · next hne =>
    cases h
    have hle := stream.le_skip (fun i => stream.continues i && !halt i) p
    refine ⟨by omega, ?_, rfl⟩
    by_cases hsize : p ≤ stream.size
    · exact stream.skip_le_size hsize
    · -- behind the end nothing is skipped
      have hzero : stream.size - p = 0 := by omega
      exact absurd (by simp [Stream.skip, hzero, Stream.skipWithin]) hne

/-- What one parameter holds. -/
inductive Param (stream : Stream) : Option Expr → Nat → Nat → Prop
  | empty {p : Nat} : Param stream none p p
  | text {text : LegacyLiteral} {p q : Nat} : IsText stream text p q →
      Param stream (some (.legacyLiteral text)) p q
  | forced {e : Expr} {p q : Nat} :
      expression stream (.above Operator.comma) (p + 1) = .ok (some (e, q)) →
      Param stream (some e) p q

/-- Parameters, with or without a comma behind each of them. -/
inductive Params (stream : Stream) : List (Option Expr) → Nat → Nat → Prop
  | nil {p : Nat} : Params stream [] p p
  | cons {param : Option Expr} {params : List (Option Expr)} {p m q : Nat} :
      Param stream param p m → Params stream params m q → Params stream (param :: params) p q
  | delimited {param : Option Expr} {params : List (Option Expr)} {p m q : Nat} :
      Param stream param p m → isDelimiter stream m = true → Params stream params (m + 1) q →
      Params stream (param :: params) p q

theorem param_reads {halt : Nat → Bool} {first : Option Expr}
    (h : param stream halt p = .ok (first, q)) : Param stream first p q := by
  unfold param at h
  split at h
  · simp only [bind_eq_ok, required_eq_ok] at h
    obtain ⟨⟨e, next⟩, hexpression, h⟩ := h
    simp only at h
    split at h
    · cases h
    · cases h
      exact .forced hexpression
  · split at h
    · cases h
      exact .empty
    · next text next htext =>
      cases h
      exact .text (legacyText?_reads htext)

theorem paramsWithin_reads {halt : Nat → Bool} {bound : Nat} {arguments : List (Option Expr)}
    (h : paramsWithin stream halt bound p = .ok (arguments, q)) : Params stream arguments p q := by
  induction bound generalizing arguments p with
  | zero =>
    cases h
    exact .nil
  | succ bound ih =>
    simp only [paramsWithin] at h
    split at h
    · cases h
      exact .nil
    · split at h
      · next hdelimiter =>
        obtain ⟨⟨rest, stop⟩, hrest, h⟩ := bind_eq_ok.mp h
        cases h
        exact .delimited .empty hdelimiter (ih hrest)
      · simp only [bind_eq_ok] at h
        obtain ⟨⟨first, next⟩, hfirst, ⟨rest, stop⟩, hrest, h⟩ := h
        cases h
        have hfirst := param_reads hfirst
        simp only at hrest
        split at hrest
        · next hdelimiter => exact .delimited hfirst hdelimiter (ih hrest)
        · exact .cons hfirst (ih hrest)

/-- The arguments of a command or a loop: none, a list of expressions, or parameters. -/
inductive Arguments (stream : Stream) : List (Option Expr) → Nat → Nat → Prop
  | none {p : Nat} : Arguments stream [] p p
  | slots {arguments : List (Option Expr)} {p q : Nat} :
      Slots stream (expression stream) arguments p q → Arguments stream arguments p q
  | params {arguments : List (Option Expr)} {p q : Nat} :
      Params stream arguments p q → Arguments stream arguments p q

theorem expressionArguments_reads {arguments : List (Option Expr)}
    (h : expressionArguments stream p = .ok (arguments, q)) : Arguments stream arguments p q := by
  unfold expressionArguments at h
  split at h
  · simp only [bind_eq_ok] at h
    obtain ⟨⟨elements, next⟩, hlist, h⟩ := h
    simp only at h
    split at h
    · cases h
    · cases h
      rcases list_reads hlist with ⟨rfl, rfl⟩ | hslots
      · exact .none
      · exact .slots hslots
  · simp only [bind_eq_ok, Except.ok.injEq, exists_eq_left'] at h
    split at h
    · cases h
    · cases h
      exact .none

theorem skipComma_bounds (h : p ≤ stream.size) :
    p ≤ skipComma stream p ∧ skipComma stream p ≤ stream.size := by
  unfold skipComma
  split
  · next hcomma =>
    simp only [Stream.continuesWith, Bool.and_eq_true] at hcomma
    have := Stream.lt_size_of_reads hcomma.2
    omega
  · exact ⟨Nat.le_refl p, h⟩

/-! ## Conditions -/

/-- The condition of a branch or a loop. -/
inductive IsTest (stream : Stream) : Expr → Nat → Nat → Prop
  | comparison {name : Token} {operator : String} {right : LegacyLiteral} {p m q : Nat} :
      legacyComparison stream p = .ok (some
        (.legacyComparison operator (identifier name) right (name.span.to right.span.stop), q)) →
      stream.token? p = some name → name.kind = .word → p < m → IsText stream right m q →
      IsTest stream
        (.legacyComparison operator (identifier name) right (name.span.to right.span.stop)) p q
  | expression {e : Expr} {p q : Nat} : Climbs stream .any p e q → IsTest stream e p q

theorem legacyComparison_reads {e : Expr}
    (h : legacyComparison stream p = .ok (some (e, q))) : IsTest stream e p q := by
  have hrule := h
  unfold legacyComparison at h
  split at h
  · cases h
  · next name hname =>
    split at h
    · next hguard =>
      simp only [Bool.and_eq_true, decide_eq_true_eq] at hguard
      split at h
      · cases h
      · next words hwords =>
        simp only at h
        split at h
        · cases h
        · next right stop hright =>
          cases h
          exact .comparison hrule hname hguard.1 (by omega) (legacyText?_reads hright)
    · cases h

theorem expressionOnLine_reads {e : Expr} (h : expressionOnLine stream p = .ok (e, q)) :
    expression stream .any p = .ok (some (e, q)) := by
  unfold expressionOnLine requiredExpression at h
  split at h
  · exact required_eq_ok.mp h
  · cases h

theorem condition_reads {e : Expr} (h : condition stream p = .ok (e, q)) :
    IsTest stream e p q := by
  unfold condition at h
  split at h
  · simp only [bind_eq_ok] at h
    obtain ⟨⟨inside, next⟩, hgroup, h⟩ := h
    have hgroup : Climbs stream .any p inside next := .start (group_reads hgroup)
    simp only at h
    split at h
    · exact .expression (climb_climbs hgroup h).1
    · cases h
      exact .expression hgroup
  · exact .expression (expression_climbs (expressionOnLine_reads h)).1

/-! ## Keys -/

/-- The key that the tokens name. -/
inductive IsKey (stream : Stream) : Key → Nat → Nat → Prop
  | token {token : Token} {p : Nat} : stream.token? p = some token →
      IsKey stream (keyOf token) p (p + 1)
  | numbered {token next : Token} {p : Nat} : stream.token? p = some token →
      stream.token? (p + 1) = some next → token.touches next = true →
      IsKey stream
        { name := token.text ++ next.text, up := false, span := token.span.to next.span.stop } p
        (p + 2)
  | released {token : Token} {p : Nat} : stream.token? p = some token → p + 1 < stream.size →
      IsKey stream { name := token.text, up := true, span := stream.spanTo token.span (p + 2) } p
        (p + 2)

theorem numberedKey_reads {k : Key} (h : numberedKey stream p = some (k, q)) :
    IsKey stream k p q := by
  unfold numberedKey at h
  split at h
  · next token next htoken hnext =>
    simp only at h
    split at h
    · next hguard =>
      simp only [Bool.and_eq_true] at hguard
      cases h
      exact .numbered htoken hnext hguard.1.2
    · cases h
  · cases h

theorem namedKey_reads {k : Key} (h : namedKey stream p = some (k, q)) : IsKey stream k p q := by
  unfold namedKey at h
  split at h
  · cases h
  · next token htoken =>
    split at h
    · simp only at h
      split at h
      · next hup =>
        cases h
        have hlt := hup
        simp only [Bool.and_eq_true] at hlt
        rw [hup]
        exact .released htoken (Stream.lt_size_of_continues hlt.1)
      · next hup =>
        cases h
        have hspan : stream.spanTo token.span (p + 1) = token.span := by
          simp [Stream.spanTo, Stream.endBefore_succ htoken, Span.to]
        rw [Bool.not_eq_true] at hup
        rw [hup, hspan]
        exact .token htoken
    · cases h

theorem key_reads {k : Key} (h : key stream p = some (k, q)) : IsKey stream k p q := by
  unfold key at h
  cases hnumbered : numberedKey stream p with
  | none =>
    rw [hnumbered] at h
    exact namedKey_reads h
  | some found =>
    rw [hnumbered] at h
    cases h
    exact numberedKey_reads hnumbered

theorem combination_reads {first : Option Key} {second : Key}
    (h : combination stream p = some ((first, second), q)) :
    ∃ m n, Maybe (IsKey stream) first p m ∧ m ≤ n ∧ IsKey stream second n q := by
  simp only [combination, Option.bind_eq_bind, Option.bind_eq_some_iff, Option.pure_def] at h
  obtain ⟨⟨k, next⟩, hkey, h⟩ := h
  simp only at h
  split at h
  · split at h
    · cases h
    · obtain ⟨⟨k', stop⟩, hkey', h⟩ := Option.bind_eq_some_iff.mp h
      cases h
      exact ⟨next, next + 1, .some (Nat.le_refl p) (key_reads hkey), Nat.le_succ next,
        key_reads hkey'⟩
  · cases h
    exact ⟨p, p, .none, Nat.le_refl p, key_reads hkey⟩

/-- The keys of a hotkey stand before its double colon, the first key before the second. -/
theorem trigger_reads {modifiers : String} {first : Option Key} {second : Key} {colons : Nat}
    (h : trigger stream p = some ({ modifiers, first, key := second }, colons)) :
    (∃ m n, p ≤ m ∧ Maybe (IsKey stream) first m n ∧
      ∃ n', n ≤ n' ∧ IsKey stream second n' colons) ∧ colons + 1 < stream.size := by
  have hend := stream.le_skip (fun i =>
    (i == p || (!stream.startsLine i && stream.touchesPrevious i)) &&
      (stream.token? i).any isModifier) p
  change p ≤ modifiersEnd stream p at hend
  simp only [trigger] at h
  split at h
  · cases h
  · next token htoken =>
    split at h
    · cases h
    · split at h
      · next hguard =>
        simp only [Bool.and_eq_true, closesTrigger, bne_iff_ne, ne_eq] at hguard
        obtain ⟨last, hlast, h⟩ := Option.map_eq_some_iff.mp h
        cases h
        have hkey : IsKey stream (keyOf last) (modifiersEnd stream p - 1)
            (modifiersEnd stream p - 1 + 1) := .token hlast
        have hsucc : modifiersEnd stream p - 1 + 1 = modifiersEnd stream p := by omega
        rw [hsucc] at hkey
        exact ⟨⟨p, p, Nat.le_refl p, .none, _, by omega, hkey⟩,
          Stream.add_one_lt_size_of_isDoubleColon hguard.2.2⟩
      · split at h
        · next hguard =>
          simp only [Bool.and_eq_true, closesTrigger] at hguard
          cases h
          exact ⟨⟨p, p, Nat.le_refl p, .none, _, hend, .token htoken⟩,
            Stream.add_one_lt_size_of_isDoubleColon hguard.1.1.2⟩
        · split at h
          · simp only [Option.bind_eq_bind, Option.bind_eq_some_iff] at h
            obtain ⟨⟨⟨first', second'⟩, next⟩, hcombination, h⟩ := h
            simp only at h
            split at h
            · next hcolons =>
              simp only [Bool.and_eq_true, closesTrigger] at hcolons
              cases h
              obtain ⟨m, n, hfirst, hle, hsecond⟩ := combination_reads hcombination
              exact ⟨⟨_, m, hend, hfirst, n, hle, hsecond⟩,
                Stream.add_one_lt_size_of_isDoubleColon hcolons.2⟩
            · cases h
          · cases h

/-! ## Statements one after the other -/

/-- Statements one after the other, each behind the first at the start of a line. -/
inductive Body (stream : Stream) (statement : StmtParser) : List Stmt → Nat → Nat → Prop
  | nil {p : Nat} : Body stream statement [] p p
  | last {s : Stmt} {p q : Nat} : Reads statement s p q → Body stream statement [s] p q
  | cons {s : Stmt} {body : List Stmt} {p m q : Nat} : Reads statement s p m →
      stream.startsLine m = true → Body stream statement body m q →
      Body stream statement (s :: body) p q

theorem bodyWithin_reads {bound : Nat} {statements : List Stmt}
    (h : bodyWithin stream statement bound p = .ok (statements, q)) :
    Body stream statement statements p q := by
  induction bound generalizing statements p with
  | zero =>
    cases h
    exact .nil
  | succ bound ih =>
    simp only [bodyWithin, bind_eq_ok] at h
    obtain ⟨_ | ⟨first, next⟩, hfirst, h⟩ := h
    · cases h
      exact .nil
    · simp only at h
      split at h
      · next hline =>
        obtain ⟨⟨rest, stop⟩, hrest, h⟩ := bind_eq_ok.mp h
        cases h
        exact .cons hfirst hline (ih hrest)
      · cases h
        exact .last hfirst

/-- Statements in braces. -/
inductive Braces (stream : Stream) (statement : StmtParser) : Block → Nat → Nat → Prop
  | mk {body : List Stmt} {p close : Nat} : stream.reads p "\x7b" = true →
      Body stream statement body (p + 1) close → Expected stream close "\x7d" →
      Braces stream statement (.mk body (stream.spanTo (stream.spanAt p) (close + 1))) p (close + 1)

theorem block_reads {braces : Block} (h : block stream statement p = .ok (some (braces, q))) :
    Braces stream statement braces p q := by
  unfold block at h
  split at h
  · next hopen =>
    simp only [bind_eq_ok, expect_eq_ok, exists_const] at h
    obtain ⟨⟨statements, close⟩, hbody, hclose, h⟩ := h
    cases h
    exact .mk hopen (bodyWithin_reads hbody) hclose
  · cases h

/-! ## Statements -/

/-- A catch clause, behind its keyword. -/
inductive IsCatch (stream : Stream) (statement : StmtParser) : CatchClause → Nat → Nat → Prop
  | bare {body : Stmt} {p q : Nat} : p < stream.size → Reads statement body (p + 1) q →
      IsCatch stream statement (.mk none body (stream.spanTo (stream.spanAt p) q)) p q
  | named {token : Token} {body : Stmt} {p q : Nat} : p < stream.size →
      stream.token? (p + 1) = some token → token.kind = .word → Reads statement body (p + 2) q →
      IsCatch stream statement
        (.mk (some (identifier token)) body (stream.spanTo (stream.spanAt p) q)) p q

/-- The name that stands at a position. -/
def IsName (stream : Stream) (name : Identifier) (p q : Nat) : Prop :=
  ∃ token, stream.token? p = some token ∧ token.kind = .word ∧ name = identifier token ∧ q = p + 1

/-- The condition that ends a loop. -/
def IsStop (stream : Stream) (test : Expr) (p q : Nat) : Prop :=
  expression stream .any p = .ok (some (test, q))

/-- The statements that start at `p`. -/
inductive Rule (stream : Stream) (statement : StmtParser) (p : Nat) : Stmt → Nat → Prop
  | hotstring {options : List String} {trigger : LegacyLiteral}
      {replacement : Option LegacyLiteral} {action : Option Stmt} {first colons m q : Nat} :
      stream.reads p ":" = true → p < first → IsText stream trigger first colons →
      colons + 1 < stream.size → Maybe (IsText stream) replacement (colons + 2) m →
      Maybe (Reads statement) action m q →
      Rule stream statement p
        (.hotstring options trigger replacement action (stream.spanTo (stream.spanAt p) q)) q
  | hotkey {modifiers : String} {first : Option Key} {second : Key} {action : Option Stmt}
      {m n n' colons q : Nat} :
      trigger stream p = some ({ modifiers, first, key := second }, colons) →
      p ≤ m → Maybe (IsKey stream) first m n → n ≤ n' → IsKey stream second n' colons →
      colons + 1 < stream.size → Maybe (Reads statement) action (colons + 2) q →
      Rule stream statement p
        (.hotkey modifiers first second action (stream.spanTo (stream.spanAt p) q)) q
  | label {name : String} {colon : Nat} : p < colon → colon < stream.size →
      Rule stream statement p (.label name (stream.spanTo (stream.spanAt p) (colon + 1)))
        (colon + 1)
  | block {braces : Block} {q : Nat} : Braces stream statement braces p q →
      Rule stream statement p (.block braces) q
  | branch {test : Expr} {consequent : Stmt} {alternate : Option Stmt} {m n q : Nat} :
      p < stream.size → IsTest stream test (p + 1) m → Reads statement consequent m n →
      Maybe (Reads statement) alternate n q →
      Rule stream statement p
        (.branch test consequent alternate (stream.spanTo (stream.spanAt p) q)) q
  | whileLoop {test : Expr} {body : Stmt} {m q : Nat} :
      p < stream.size → IsTest stream test (p + 1) m → Reads statement body m q →
      Rule stream statement p (.whileLoop test body (stream.spanTo (stream.spanAt p) q)) q
  | loop {kind : LoopKind} {arguments : List (Option Expr)} {body : Stmt} {stop : Option Expr}
      {first m n q : Nat} :
      p < first → first ≤ stream.size → Arguments stream arguments first m →
      Reads statement body m n → Maybe (IsStop stream) stop n q →
      Rule stream statement p
        (.loop kind arguments body stop (stream.spanTo (stream.spanAt p) q)) q
  | forLoop {name : Identifier} {value : Option Identifier} {iterable : Expr} {body : Stmt}
      {stop : Option Expr} {k l m n q : Nat} :
      p < stream.size → IsName stream name (p + 1) k → Maybe (IsName stream) value k l →
      expression stream .any (l + 1) = .ok (some (iterable, m)) → Reads statement body m n →
      Maybe (IsStop stream) stop n q →
      Rule stream statement p
        (.forLoop name value iterable body stop (stream.spanTo (stream.spanAt p) q)) q
  | attempt {body : Stmt} {handler : Option CatchClause} {finalizer : Option Stmt} {m n q : Nat} :
      p < stream.size → Reads statement body (p + 1) m →
      Maybe (IsCatch stream statement) handler m n → Maybe (Reads statement) finalizer n q →
      Rule stream statement p
        (.attempt body handler finalizer (stream.spanTo (stream.spanAt p) q)) q
  | command {name : Token} {hash : Bool} {arguments : List (Option Expr)} {head m q : Nat} :
      Grammar.command stream p = .ok (some
        (.command (identifier name) hash arguments (stream.spanTo (stream.spanAt p) q), q)) →
      p ≤ head → stream.token? head = some name → name.kind = .word → head < m →
      m ≤ stream.size → Arguments stream arguments m q →
      Rule stream statement p
        (.command (identifier name) hash arguments (stream.spanTo (stream.spanAt p) q)) q
  | assignment {name : Token} {right : Option LegacyLiteral} {q : Nat} :
      legacyAssignment stream p = some
        (.legacyAssignment (identifier name) right (stream.spanTo name.span q), q) →
      stream.token? p = some name → name.kind = .word → p + 2 ≤ stream.size →
      Maybe (IsText stream) right (p + 2) q →
      Rule stream statement p
        (.expression (.legacyAssignment (identifier name) right (stream.spanTo name.span q))) q
  | expression {e : Expr} {q : Nat} : expression stream .any p = .ok (some (e, q)) →
      Rule stream statement p (.expression e) q
  | function {name : Identifier} {params : List (Option Expr)} {span : Span} {braces : Block}
      {m q : Nat} :
      Grammar.expression stream .any p = .ok (some (.call (.identifier name) params span, m)) →
      Braces stream statement braces m q →
      Rule stream statement p
        (.function name params braces (name.span.to braces.span.stop)) q

/-! ## Hotstrings and hotkeys -/

variable {s : Stmt}

theorem optionsEnd?_lt {close : Nat} (h : optionsEnd? stream p = some close) : p < close := by
  simp only [optionsEnd?] at h
  split at h
  · cases h
    exact stream.le_skip _ (p + 1)
  · cases h

theorem triggerEndWithin?_reads {bound : Nat} {escaped : Bool} {colons : Nat}
    (h : triggerEndWithin? stream bound escaped p = some colons) :
    p ≤ colons ∧ colons + 1 < stream.size := by
  induction bound generalizing escaped p with
  | zero => cases h
  | succ bound ih =>
    simp only [triggerEndWithin?] at h
    repeat' split at h
    · cases h
    · have := ih h
      omega
    · next hcolons =>
      cases h
      exact ⟨Nat.le_refl _, Stream.add_one_lt_size_of_isDoubleColon hcolons⟩
    · have := ih h
      omega

theorem hotstringHead_reads {options : List String} {trigger : LegacyLiteral} {colons : Nat}
    (h : hotstringHead stream p = some ((options, trigger), colons)) :
    ∃ first, p < first ∧ IsText stream trigger first colons ∧ colons + 1 < stream.size := by
  simp only [hotstringHead, Option.bind_eq_bind, Option.bind_eq_some_iff] at h
  obtain ⟨close, hclose, options', -, stop, hstop, h⟩ := h
  have hclose := optionsEnd?_lt hclose
  have hstop := triggerEndWithin?_reads hstop
  split at h
  · cases h
  · cases h
    exact ⟨close + 1, by omega, ⟨by omega, by omega, rfl⟩, hstop.2⟩

theorem hotstring_reads (h : hotstring stream statement p = .ok (some (s, q))) :
    Rule stream statement p s q := by
  unfold hotstring at h
  split at h
  · cases h
  · next options trigger colons hhead =>
    split at hhead
    · next hcolon =>
      obtain ⟨first, hfirst, htext, hsize⟩ := hotstringHead_reads hhead
      simp only [ok_bind] at h
      -- what follows the double colon decides between a bare trigger, an action and a replacement
      split at h
      · obtain ⟨-, rfl, rfl⟩ := guard_eq_found h
        exact .hotstring hcolon hfirst htext hsize .none .none
      · split at h
        · obtain ⟨_ | ⟨action, next⟩, haction, h⟩ := bind_eq_ok.mp h
          · obtain ⟨-, rfl, rfl⟩ := guard_eq_found h
            exact .hotstring hcolon hfirst htext hsize .none .none
          · obtain ⟨-, rfl, rfl⟩ := guard_eq_found h
            exact .hotstring hcolon hfirst htext hsize .none (.some (Nat.le_refl _) haction)
        · split at h
          · obtain ⟨-, rfl, rfl⟩ := guard_eq_found h
            exact .hotstring hcolon hfirst htext hsize .none .none
          · next replacement next hreplacement =>
            obtain ⟨-, rfl, rfl⟩ := guard_eq_found h
            exact .hotstring hcolon hfirst htext hsize
              (.some (Nat.le_refl _) (legacyText?_reads hreplacement)) .none
    · cases hhead

theorem hotkey_reads (h : hotkey stream statement p = .ok (some (s, q))) :
    Rule stream statement p s q := by
  unfold hotkey at h
  split at h
  · cases h
  · next modifiers first second colons htrigger =>
    obtain ⟨⟨m, n, hm, hfirst, n', hn, hsecond⟩, hsize⟩ := trigger_reads htrigger
    simp only [ok_bind] at h
    split at h
    · cases h
      exact .hotkey htrigger hm hfirst hn hsecond hsize .none
    · obtain ⟨_ | ⟨action, next⟩, haction, h⟩ := bind_eq_ok.mp h
      · cases h
      · obtain ⟨-, rfl, rfl⟩ := guard_eq_found h
        exact .hotkey htrigger hm hfirst hn hsecond hsize (.some (Nat.le_refl _) haction)

/-! ## Labels, commands and expressions -/

theorem label_reads (h : label stream p = .ok (some (s, q))) : Rule stream statement p s q := by
  unfold label at h
  split at h
  · cases h
  · next colon hcolon =>
    cases h
    split at hcolon
    · simp only [labelEnd?] at hcolon
      split at hcolon
      · split at hcolon
        · next hguard =>
          simp only [Bool.and_eq_true] at hguard
          cases hcolon
          exact .label (stream.le_skip _ (p + 1)) (Stream.lt_size_of_reads hguard.1.2)
        · cases hcolon
      · cases hcolon
    · cases hcolon

theorem command_reads (h : command stream p = .ok (some (s, q))) :
    Rule stream statement p s q := by
  have hrule := h
  simp only [command] at h
  have hle : p ≤ if isHash stream p = true then p + 1 else p := by split <;> omega
  generalize (if isHash stream p = true then p + 1 else p) = head at h hle
  split at h
  · cases h
  · next name hname =>
    obtain ⟨hlt, hsize⟩ := skipComma_bounds (Stream.lt_size_of_token? hname)
    split at h
    · next hguard =>
      simp only [Bool.and_eq_true, decide_eq_true_eq] at hguard
      split at h
      · obtain ⟨⟨arguments, next⟩, harguments, h⟩ := bind_eq_ok.mp h
        cases h
        exact .command hrule hle hname hguard.1.1 hlt hsize (expressionArguments_reads harguments)
      · obtain ⟨⟨arguments, next⟩, harguments, h⟩ := bind_eq_ok.mp h
        cases h
        exact .command hrule hle hname hguard.1.1 hlt hsize (.params (paramsWithin_reads harguments))
    · cases h

theorem legacyAssignment_reads {e : Expr} (h : legacyAssignment stream p = some (e, q)) :
    Rule stream statement p (.expression e) q := by
  have hrule := h
  unfold legacyAssignment at h
  split at h
  · cases h
  · next name hname =>
    split at h
    · next hguard =>
      simp only [Bool.and_eq_true, decide_eq_true_eq, Stream.continuesWith] at hguard
      have hsize := Stream.lt_size_of_reads hguard.2.2
      rcases htext : legacyText? stream (fun _ => false) (p + 2) with _ | ⟨text, next⟩
      · simp only [htext] at h
        cases h
        exact .assignment hrule hname hguard.1 hsize .none
      · simp only [htext] at h
        cases h
        exact .assignment hrule hname hguard.1 hsize
          (.some (Nat.le_refl _) (legacyText?_reads htext))
    · cases h

theorem declarationHead?_eq_some {e : Expr} {name : Identifier} {params : List (Option Expr)}
    (h : declarationHead? e = some (name, params)) :
    ∃ span, e = .call (.identifier name) params span := by
  unfold declarationHead? at h
  split at h
  · cases h
    exact ⟨_, rfl⟩
  · cases h

theorem plainExpression_reads (h : plainExpression stream statement p = .ok (some (s, q))) :
    Rule stream statement p s q := by
  simp only [plainExpression, bind_eq_ok] at h
  obtain ⟨_ | ⟨e, next⟩, hexpression, h⟩ := h
  · cases h
  · simp only at h
    split at h
    · cases h
      exact .expression hexpression
    · next name params hhead =>
      split at hhead
      · obtain ⟨span, rfl⟩ := declarationHead?_eq_some hhead
        simp only [bind_eq_ok, required_eq_ok] at h
        obtain ⟨⟨braces, stop⟩, hbraces, h⟩ := h
        cases h
        exact .function hexpression (block_reads hbraces)
      · cases hhead

theorem expressionStatement_reads
    (h : expressionStatement stream statement p = .ok (some (s, q))) :
    Rule stream statement p s q := by
  unfold expressionStatement at h
  split at h
  · next e stop hassignment =>
    cases h
    exact legacyAssignment_reads hassignment
  · exact plainExpression_reads h

/-! ## Statements with a keyword -/

theorem requiredStatement_reads (h : requiredStatement stream statement p = .ok (s, q)) :
    Reads statement s p q :=
  required_eq_ok.mp h

theorem clause_reads {keyword : Keyword} {body : Option Stmt}
    (h : clause stream statement keyword p = .ok (body, q)) :
    Maybe (Reads statement) body p q := by
  unfold clause at h
  split at h
  · obtain ⟨⟨body', stop⟩, hbody, h⟩ := bind_eq_ok.mp h
    cases h
    exact .some (Nat.le_succ p) (requiredStatement_reads hbody)
  · cases h
    exact .none

theorem untilClause_reads {test : Option Expr} (h : untilClause stream p = .ok (test, q)) :
    Maybe (IsStop stream) test p q := by
  unfold untilClause at h
  split at h
  · obtain ⟨⟨test', stop⟩, htest, h⟩ := bind_eq_ok.mp h
    cases h
    exact .some (Nat.le_succ p) (expressionOnLine_reads htest)
  · cases h
    exact .none

theorem nameOnLine_reads {name : Identifier} (h : nameOnLine stream p = .ok (name, q)) :
    IsName stream name p q := by
  unfold nameOnLine at h
  split at h
  · next token htoken =>
    split at h
    · next hguard =>
      simp only [Bool.and_eq_true, decide_eq_true_eq] at hguard
      cases h
      exact ⟨token, htoken, hguard.1, rfl, rfl⟩
    · cases h
  · cases h

theorem catchParam_reads {param : Option Identifier} (h : catchParam stream p = (param, q)) :
    param = none ∧ q = p ∨ ∃ name, param = some name ∧ IsName stream name p q := by
  unfold catchParam at h
  split at h
  · next token htoken =>
    split at h
    · next hguard =>
      simp only [Bool.and_eq_true, decide_eq_true_eq] at hguard
      cases h
      exact .inr ⟨_, rfl, token, htoken, hguard.1.1, rfl, rfl⟩
    · cases h
      exact .inl ⟨rfl, rfl⟩
  · cases h
    exact .inl ⟨rfl, rfl⟩

theorem lt_size_of_atKeyword {keyword : Keyword} (h : atKeyword stream p keyword = true) :
    p < stream.size := by
  refine Nat.lt_of_not_le fun hle => ?_
  simp [atKeyword, Stream.token?_eq_none hle] at h

theorem catchClause_reads {handler : Option CatchClause}
    (h : catchClause stream statement p = .ok (handler, q)) :
    Maybe (IsCatch stream statement) handler p q := by
  unfold catchClause at h
  split at h
  · next hkeyword =>
    have hsize := lt_size_of_atKeyword hkeyword
    generalize hparam : catchParam stream (p + 1) = read at h
    obtain ⟨param, first⟩ := read
    obtain ⟨⟨body, stop⟩, hbody, h⟩ := bind_eq_ok.mp h
    cases h
    have hbody := requiredStatement_reads hbody
    rcases catchParam_reads hparam with
      ⟨rfl, rfl⟩ | ⟨name, rfl, token, htoken, hword, rfl, rfl⟩
    · exact .some (Nat.le_refl p) (.bare hsize hbody)
    · exact .some (Nat.le_refl p) (.named hsize htoken hword hbody)
  · cases h
    exact .none

theorem ifStatement_reads (hsize : p < stream.size)
    (h : ifStatement stream statement (stream.spanAt p) p = .ok (s, q)) :
    Rule stream statement p s q := by
  simp only [ifStatement, bind_eq_ok] at h
  obtain ⟨comparison, hcomparison, h⟩ := h
  -- the older comparison is tried first, and the rest is the same behind either condition
  rcases comparison with _ | ⟨test, behind⟩
  · simp only [bind_eq_ok] at h
    obtain ⟨⟨test, behind⟩, htest, ⟨body, next⟩, hbody, ⟨alternate, stop⟩, halternate, h⟩ := h
    cases h
    exact .branch hsize (condition_reads htest) (requiredStatement_reads hbody)
      (clause_reads halternate)
  · simp only [ok_bind, bind_eq_ok] at h
    obtain ⟨⟨body, next⟩, hbody, ⟨alternate, stop⟩, halternate, h⟩ := h
    cases h
    exact .branch hsize (legacyComparison_reads hcomparison) (requiredStatement_reads hbody)
      (clause_reads halternate)

theorem whileStatement_reads (hsize : p < stream.size)
    (h : whileStatement stream statement (stream.spanAt p) p = .ok (s, q)) :
    Rule stream statement p s q := by
  simp only [whileStatement, bind_eq_ok] at h
  obtain ⟨⟨test, next⟩, htest, ⟨body, stop⟩, hbody, h⟩ := h
  cases h
  exact .whileLoop hsize (condition_reads htest) (requiredStatement_reads hbody)

theorem loopStatement_reads (hsize : p < stream.size)
    (h : loopStatement stream statement (stream.spanAt p) p = .ok (s, q)) :
    Rule stream statement p s q := by
  obtain ⟨hword, hword'⟩ := skipComma_bounds (show p + 1 ≤ stream.size from hsize)
  simp only [loopStatement, bind_eq_ok] at h
  cases hkind : loopKind? stream (skipComma stream (p + 1)) with
  | none =>
    simp only [hkind] at h
    obtain ⟨⟨arguments, behind⟩, harguments, ⟨body, next⟩, hbody, ⟨test, stop⟩, htest, h⟩ := h
    cases h
    exact .loop hword hword' (.params (paramsWithin_reads harguments))
      (requiredStatement_reads hbody) (untilClause_reads htest)
  | some kind =>
    simp only [hkind] at h
    have hlt : skipComma stream (p + 1) < stream.size := by
      simp only [loopKind?] at hkind
      split at hkind
      · next hcontinues => exact Stream.lt_size_of_continues hcontinues
      · cases hkind
    obtain ⟨hfirst, hfirst'⟩ := skipComma_bounds (show skipComma stream (p + 1) + 1 ≤ _ from hlt)
    obtain ⟨⟨arguments, behind⟩, harguments, ⟨body, next⟩, hbody, ⟨test, stop⟩, htest, h⟩ := h
    cases h
    exact .loop (by omega) hfirst' (.params (paramsWithin_reads harguments))
      (requiredStatement_reads hbody) (untilClause_reads htest)

theorem forStatement_reads (hsize : p < stream.size)
    (h : forStatement stream statement (stream.spanAt p) p = .ok (s, q)) :
    Rule stream statement p s q := by
  simp only [forStatement, bind_eq_ok] at h
  obtain ⟨⟨name, behind⟩, hname, h⟩ := h
  have hname := nameOnLine_reads hname
  simp only at h
  split at h
  · simp only [bind_eq_ok, Except.ok.injEq, exists_eq_left'] at h
    obtain ⟨⟨value, word⟩, hvalue, h⟩ := h
    split at h
    · simp only [bind_eq_ok] at h
      obtain ⟨⟨iterable, first⟩, hiterable, ⟨body, next⟩, hbody, ⟨test, stop⟩, htest, h⟩ := h
      cases h
      exact .forLoop hsize hname (.some (Nat.le_succ behind) (nameOnLine_reads hvalue))
        (expressionOnLine_reads hiterable) (requiredStatement_reads hbody)
        (untilClause_reads htest)
    · cases h
  · simp only [ok_bind] at h
    split at h
    · simp only [bind_eq_ok] at h
      obtain ⟨⟨iterable, first⟩, hiterable, ⟨body, next⟩, hbody, ⟨test, stop⟩, htest, h⟩ := h
      cases h
      exact .forLoop hsize hname .none (expressionOnLine_reads hiterable)
        (requiredStatement_reads hbody) (untilClause_reads htest)
    · cases h

theorem tryStatement_reads (hsize : p < stream.size)
    (h : tryStatement stream statement (stream.spanAt p) p = .ok (s, q)) :
    Rule stream statement p s q := by
  simp only [tryStatement, bind_eq_ok] at h
  obtain ⟨⟨body, behind⟩, hbody, ⟨handler, next⟩, hhandler, ⟨finalizer, stop⟩, hfinalizer, h⟩ := h
  cases h
  exact .attempt hsize (requiredStatement_reads hbody) (catchClause_reads hhandler)
    (clause_reads hfinalizer)

/-- A statement that starts with a keyword comes from the rule for that keyword. -/
theorem flow_cases (h : flow stream statement p = .ok (some (s, q))) :
    ifStatement stream statement (stream.spanAt p) p = .ok (s, q) ∨
      whileStatement stream statement (stream.spanAt p) p = .ok (s, q) ∨
      loopStatement stream statement (stream.spanAt p) p = .ok (s, q) ∨
      forStatement stream statement (stream.spanAt p) p = .ok (s, q) ∨
      tryStatement stream statement (stream.spanAt p) p = .ok (s, q) := by
  have hmap : ∀ {result : Checked (Read Stmt)},
      some <$> result = .ok (some (s, q)) → result = .ok (s, q) := by
    intro result h
    obtain ⟨read, hread, ⟨⟩⟩ := map_eq_ok.mp h
    exact hread
  simp only [flow] at h
  split at h
  · exact .inl (hmap h)
  · exact .inr (.inl (hmap h))
  · exact .inr (.inr (.inl (hmap h)))
  · exact .inr (.inr (.inr (.inl (hmap h))))
  · exact .inr (.inr (.inr (.inr (hmap h))))
  · cases h

theorem flow_reads (h : flow stream statement p = .ok (some (s, q))) :
    Rule stream statement p s q := by
  have hsize : p < stream.size := by
    refine Nat.lt_of_not_le fun hle => ?_
    simp [flow, Stream.token?_eq_none hle] at h
  rcases flow_cases h with h | h | h | h | h
  · exact ifStatement_reads hsize h
  · exact whileStatement_reads hsize h
  · exact loopStatement_reads hsize h
  · exact forStatement_reads hsize h
  · exact tryStatement_reads hsize h

/-! ## All statements -/

/-- Where a statement is read, one of the rules has read it. -/
theorem statementRules_reads (h : statementRules stream statement p = .ok (some (s, q))) :
    Rule stream statement p s q := by
  simp only [statementRules, orTry_eq_found] at h
  rcases h with h | ⟨-, h | ⟨-, h | ⟨-, h | ⟨-, h | ⟨-, h | ⟨-, h⟩⟩⟩⟩⟩⟩
  · exact hotstring_reads h
  · exact hotkey_reads h
  · exact label_reads h
  · simp only [blockStatement, bind_eq_ok] at h
    obtain ⟨_ | ⟨braces, stop⟩, hbraces, h⟩ := h
    · cases h
    · cases h
      exact .block (block_reads hbraces)
  · exact flow_reads h
  · exact command_reads h
  · exact expressionStatement_reads h

/-- What every rule passes on from the statements inside holds of all statements. -/
theorem statement_induction {P : Stmt → Nat → Nat → Prop}
    (hrule : ∀ statement, (∀ s p q, Reads statement s p q → P s p q) →
      ∀ s p q, Rule stream statement p s q → P s p q)
    (h : Reads (Grammar.statement stream) s p q) : P s p q := by
  have hwithin : ∀ bound s p q, Reads (statementWithin stream bound) s p q → P s p q := by
    intro bound
    induction bound with
    | zero =>
      intro s p q h
      cases h
    | succ bound ih =>
      intro s p q h
      exact hrule _ ih s p q (statementRules_reads h)
  exact hwithin (stream.size - p) s p q h

end HotkeyScript.Grammar
