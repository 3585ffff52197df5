import HotkeyScript.Proofs.Grammar.Window.Expression
import HotkeyScript.Proofs.Grammar.Window.Trigger

/-!
# Parts of statements in a window

Parameters, conditions and names in a window are those of the outer stream, unless operators that
lack an operand are left behind them. The arguments of a command that takes expressions are a list,
which what follows the window may carry on if it ends there; nothing does if the window is closed.

## Main definitions

* `Grammar.JoinsList` — what follows the window carries on a list of arguments.
-/

namespace HotkeyScript.Grammar

open HotkeyScript.Stream (ClosedWindow Window)
open Source (byteLength)
open Operator (IsOperator)

variable {inner outer : Stream} {n lines : Nat} {before after : Source} {p q i : Nat}

section Line

variable {w : Window inner outer n lines before after}

/-! ## Parameters -/

theorem Stuck.isDelimiter {stream : Stream} {precedence : Nat}
    (h : Stuck stream (.above precedence) p) : isDelimiter stream p = false := by
  rw [Bool.eq_false_iff]
  intro hdelimiter
  simp only [Grammar.isDelimiter, Stream.continuesWith, Bool.and_eq_true] at hdelimiter
  cases h.comma hdelimiter.1.1.2

/-- An expression that is cut short is the last parameter. -/
theorem param_window {halt halt' : Nat → Bool} (hlt : p < inner.size)
    (hhalt : ∀ i, i ≤ inner.size → halt' (n + i) = halt i) :
    w.Carries
      (fun read => Stuck inner (.above Operator.comma) read.2 ∧
        (!inner.continues read.2 || halt read.2) = true)
      (carry n (Option.map (Expr.mapSpan w.move)))
      (param inner halt p) (param outer halt' (n + p)) := by
  unfold param
  rw [forcesExpression_window w hlt]
  split
  · refine ((expression_window w (show p + 1 ≤ inner.size from hlt)
      (.above Operator.comma)).required _ _).bind ?_ ?_
    · rintro ⟨e, next⟩ - - hstuck read hread
      simp only [Stuck.isDelimiter hstuck, Bool.not_false, Bool.and_true] at hread
      split at hread
      · cases hread
      · next hguard =>
        cases hread
        refine ⟨hstuck, ?_⟩
        rwa [Bool.not_eq_true, ← Bool.not_eq_true', Bool.not_and, Bool.not_not] at hguard
    · rintro ⟨e, next⟩ hread
      have hnext := expression_advances inner _ _ _ _ (required_eq_ok.mp hread)
      simp only [w.continues hnext.2, isDelimiter_window w hnext.2, hhalt next hnext.2]
      split
      · exact .error _
      · exact .ok rfl
  · have htext : legacyText? outer (fun i => isDelimiter outer i || halt' i) (n + p) =
        (legacyText? inner (fun i => isDelimiter inner i || halt i) p).map
          (carry n (LegacyLiteral.mapSpan w.move)) := by
      refine legacyText?_window w (Nat.le_of_lt hlt) fun i hi => ?_
      rw [isDelimiter_window w (Nat.le_of_lt hi), hhalt i (Nat.le_of_lt hi)]
    rw [htext]
    rcases legacyText? inner (fun i => isDelimiter inner i || halt i) p with _ | ⟨text, next⟩ <;>
      exact .ok rfl

theorem params_window {halt halt' : Nat → Bool} (hp : p ≤ inner.size)
    (hhalt : ∀ i, i ≤ inner.size → halt' (n + i) = halt i) :
    w.Carries (Leaves inner) (carry n (mapSlots w.move)) (params inner halt p)
      (params outer halt' (n + p)) := by
  induction hn : inner.size - p using Nat.strongRecOn generalizing p with
  | ind m ih =>
    rw [params_eq, params_eq, paramsRound, paramsRound, w.continues hp, hhalt p hp,
      isDelimiter_window w hp, Nat.add_assoc]
    split
    · exact .ok rfl
    · next hguard =>
      simp only [Bool.or_eq_true, Bool.not_eq_true', not_or, Bool.not_eq_false,
        Bool.not_eq_true] at hguard
      have hlt := Stream.lt_size_of_continues hguard.1
      split
      · refine (ih _ (by omega) (show p + 1 ≤ inner.size from hlt) rfl).bind ?_ ?_
        · rintro ⟨more, stop⟩ - - hleaves read hread
          cases hread
          exact hleaves
        · rintro ⟨more, stop⟩ -
          exact .ok rfl
      · next hdelimiter =>
        rw [Bool.not_eq_true] at hdelimiter
        refine (param_window hlt hhalt).bind ?_ ?_
        · rintro ⟨first, next⟩ - - ⟨hstuck, hend⟩ read hread
          have hnone : params inner halt next = .ok ([], next) := by
            rw [params_eq, paramsRound, if_pos hend]
          simp only [Stuck.isDelimiter hstuck, Bool.false_eq_true, if_false, hnone,
            ok_bind] at hread
          cases hread
          exact Stuck.leaves hstuck
        · rintro ⟨first, next⟩ hparam
          have hnext := param_lt hguard.1 hguard.2 hdelimiter hparam
          have hdelimiter := isDelimiter_window w hnext.2
          have hstart : p < (if isDelimiter inner next then next + 1 else next) ∧
              (if isDelimiter inner next then next + 1 else next) ≤ inner.size := by
            split
            · next hdelimiter => exact ⟨by omega, lt_size_of_isDelimiter hdelimiter⟩
            · exact hnext
          have hstart' : (if isDelimiter outer (n + next) then n + next + 1 else n + next) =
              n + (if isDelimiter inner next then next + 1 else next) := by
            rw [hdelimiter]
            split <;> rfl
          simp only
          rw [hstart']
          refine (ih _ (by omega) hstart.2 rfl).bind ?_ ?_
          · rintro ⟨more, stop⟩ - - hleaves read hread
            cases hread
            exact hleaves
          · rintro ⟨more, stop⟩ -
            refine .ok ?_
            cases first <;> rfl

variable (w)

include w

/-! ## Names -/

theorem skipComma_window (hp : p ≤ inner.size) :
    skipComma outer (n + p) = n + skipComma inner p := by
  rw [skipComma, w.continuesWith hp, skipComma]
  split <;> rfl

theorem loopKind?_window (hp : p ≤ inner.size) :
    loopKind? outer (n + p) = loopKind? inner p := by
  unfold loopKind?
  rw [w.continues hp]
  split
  · next hcontinues =>
    rw [w.token? (Stream.lt_size_of_continues hcontinues)]
    cases inner.token? p <;> rfl
  · rfl

theorem loopHead_window (hlt : p < inner.size) :
    loopHead outer (n + p) = ((loopHead inner p).1, n + (loopHead inner p).2) := by
  have hword := (skipComma_bounds (show p + 1 ≤ inner.size from hlt)).2
  unfold loopHead
  rw [Nat.add_assoc, skipComma_window w hlt, loopKind?_window w hword]
  cases hkind : loopKind? inner (skipComma inner (p + 1)) with
  | none => rfl
  | some kind =>
    have hsize : skipComma inner (p + 1) < inner.size := by
      unfold loopKind? at hkind
      split at hkind
      · next hcontinues => exact Stream.lt_size_of_continues hcontinues
      · cases hkind
    simp only [Nat.add_assoc, skipComma_window w (show _ + 1 ≤ inner.size from hsize)]

theorem nameOnLine_window (hp : p ≤ inner.size) :
    w.CarriesAll (carry n (Identifier.mapSpan w.move)) (nameOnLine inner p)
      (nameOnLine outer (n + p)) := by
  rintro ⟨name, q⟩ hname
  refine .inr ?_
  unfold nameOnLine at hname ⊢
  split at hname
  · next token htoken =>
    rw [w.token htoken, w.continues hp]
    split at hname
    · next hguard =>
      cases hname
      exact if_pos hguard
    · cases hname
  · cases hname

theorem secondName_window (hp : p ≤ inner.size) :
    w.CarriesAll (carry n (Option.map (Identifier.mapSpan w.move))) (secondName inner p)
      (secondName outer (n + p)) := by
  unfold secondName
  rw [w.continuesWith hp]
  split
  · next hcomma =>
    have hlt := Stream.lt_size_of_continues (Bool.and_eq_true_iff.mp hcomma).1
    exact (nameOnLine_window w (show p + 1 ≤ inner.size from hlt)).bindAll fun read _ => .ok rfl
  · exact .ok rfl

theorem catchParam_window (hp : p ≤ inner.size) :
    catchParam outer (n + p) =
      carry n (Option.map (Identifier.mapSpan w.move)) (catchParam inner p) := by
  unfold catchParam
  rw [w.continues hp]
  rcases Nat.eq_or_lt_of_le hp with rfl | hlt
  · rw [Stream.continues_of_size_le (Nat.le_refl _), Stream.token?_eq_none (Nat.le_refl _)]
    cases outer.token? (n + inner.size) <;> simp
  · obtain ⟨token, htoken⟩ := Stream.exists_token_of_lt hlt
    have hbrace : (inner.endsLine p || outer.reads (n + (p + 1)) "\x7b") =
        (inner.endsLine p || inner.reads (p + 1) "\x7b") := by
      by_cases hnext : p + 1 < inner.size
      · rw [w.reads hnext]
      · simp [Stream.endsLine, Stream.continues_of_size_le (Nat.le_of_not_lt hnext)]
    simp only [htoken, w.token htoken, w.endsLine hlt, Nat.add_assoc, hbrace]
    by_cases hword : token.kind = .word
    · simp only [Token.shift_kind, hword, decide_true]
      split <;> rfl
    · simp [hword]

/-! ## Commands -/

theorem isHash_window (hlt : p < inner.size) :
    isHash outer (n + p) = isHash inner p := by
  rw [isHash, w.reads hlt, Nat.add_assoc,
    w.touchesPrevious (show p + 1 ≤ inner.size from hlt), isHash]
  by_cases hnext : p + 1 < inner.size
  · rw [w.token? hnext, Option.any_map]
    rfl
  · rw [Stream.touchesPrevious_of_size_le (by omega), Bool.and_false, Bool.and_false]

theorem commandHead_window (hlt : p < inner.size) :
    commandHead outer (n + p) = n + commandHead inner p := by
  rw [commandHead, isHash_window w hlt, commandHead]
  split <;> rfl

theorem startsCommand_window (hlt : p < inner.size) :
    startsCommand outer (n + p) = startsCommand inner p := by
  unfold startsCommand
  rw [Nat.add_assoc, w.continues (show p + 1 ≤ inner.size from hlt)]
  by_cases hnext : p + 1 < inner.size
  · obtain ⟨next, htoken⟩ := Stream.exists_token_of_lt hnext
    simp only [htoken, w.token htoken, Token.shift_text, Nat.add_assoc,
      w.touchesPrevious (show p + 1 ≤ inner.size from hlt),
      w.touchesPrevious (show p + 2 ≤ inner.size from hnext)]
  · rw [Stream.continues_of_size_le (by omega),
      Stream.token?_eq_none (show inner.size ≤ p + 1 by omega)]
    cases outer.token? (n + (p + 1)) <;> simp

/-- The tokens behind a window carry on a list of arguments that ends with it. -/
def JoinsList (inner outer : Stream) (n : Nat) (arguments : List (Option Expr)) : Prop :=
  readsOn outer arguments (n + inner.size) = true ∧
    ∃ p, p < inner.size ∧ Slots inner (expression inner) arguments p inner.size

/-- The arguments are cut short by operators that lack an operand, or what follows the window
carries them on. -/
def ArgumentsLost (read : Read (List (Option Expr))) : Prop :=
  w.Supplied ∧ Leaves inner read ∨ read.2 = inner.size ∧ JoinsList inner outer n read.1

theorem argumentsOnLine_window (hp : p ≤ inner.size) :
    Yields (ArgumentsLost w) (carry n (mapSlots w.move)) (argumentsOnLine inner p)
      (argumentsOnLine outer (n + p)) := by
  unfold argumentsOnLine
  rw [w.continues hp]
  split
  · next hcontinues =>
    have hlt := Stream.lt_size_of_continues hcontinues
    refine (list_window hp fun q _ hq => expression_window w hq).mono ?_
    rintro ⟨arguments, next⟩ hread (hshort | ⟨rfl, hreadsOn⟩)
    · exact .inl hshort
    · rcases list_reads hread with ⟨-, rfl⟩ | hslots
      · exact absurd hlt (Nat.lt_irrefl _)
      · exact .inr ⟨rfl, hreadsOn, p, hlt, hslots⟩
  · exact .ok rfl

theorem expressionArguments_window (hp : p ≤ inner.size) :
    Yields (ArgumentsLost w) (carry n (mapSlots w.move)) (expressionArguments inner p)
      (expressionArguments outer (n + p)) := by
  rw [expressionArguments_eq, expressionArguments_eq]
  refine (argumentsOnLine_window w hp).bind ?_ ?_
  · rintro ⟨arguments, next⟩ - hlost read hread
    simp only at hread
    split at hread
    · cases hread
    · cases hread
      exact hlost
  · rintro ⟨arguments, next⟩ hread
    have hnext : next ≤ inner.size := by
      unfold argumentsOnLine at hread
      split at hread
      · exact (list_advances (expression_advances inner) hread).2 hp
      · cases hread
        exact hp
    simp only [w.continues hnext]
    split
    · exact .error _
    · exact .ok rfl

theorem commandArguments_window (hp : p ≤ inner.size) (name : Token) :
    Yields
      (fun read => w.Supplied ∧ Leaves inner read ∨
        read.2 = inner.size ∧ expressionCommands.any (name.is ·) = true ∧
          JoinsList inner outer n read.1)
      (carry n (mapSlots w.move)) (commandArguments inner name p)
      (commandArguments outer (name.shift (byteLength before) lines) (n + p)) := by
  unfold commandArguments
  change Yields _ _ (if expressionCommands.any (name.is ·) then _ else _)
    (if expressionCommands.any (name.is ·) then _ else _)
  split
  · next hcommand =>
    refine (expressionArguments_window w hp).mono fun read _ hlost => ?_
    exact hlost.imp_right fun hend => ⟨hend.1, hcommand, hend.2⟩
  · exact Yields.mono (params_window hp fun _ _ => rfl) fun _ _ hlost => .inl hlost

/-- The command is cut short by operators that lack an operand, or what follows the window carries
its arguments on. -/
def CommandLost : Option (Read Stmt) → Prop
  | some (.command name hash arguments span, q) =>
    w.Supplied ∧ Leaves inner (Stmt.command name hash arguments span, q) ∨
      q = inner.size ∧ expressionCommands.any (Text.sameText name.name ·) = true ∧
        JoinsList inner outer n arguments
  | _ => False

theorem command_window (hlt : p < inner.size) :
    Yields (CommandLost w) (Option.map (carry n (Stmt.mapSpan w.move))) (command inner p)
      (command outer (n + p)) := by
  obtain ⟨hhead, hsize⟩ := commandHead_bounds hlt
  have hstart := skipComma_bounds (show commandHead inner p + 1 ≤ inner.size from hsize)
  rw [command_eq, command_eq, commandHead_window w hlt]
  obtain ⟨name, hname⟩ := Stream.exists_token_of_lt hsize
  simp only [hname, w.token hname, startsCommand_window w hsize, Nat.add_assoc,
    skipComma_window w (show commandHead inner p + 1 ≤ inner.size from hsize)]
  change Yields _ _
    (if name.kind = .word && !Keyword.isClause name && startsCommand inner (commandHead inner p)
      then _ else _)
    (if name.kind = .word && !Keyword.isClause name && startsCommand inner (commandHead inner p)
      then _ else _)
  split
  · refine (commandArguments_window w hstart.2 name).bind ?_ ?_
    · rintro ⟨arguments, next⟩ - hlost read hread
      cases hread
      exact hlost
    · rintro ⟨arguments, next⟩ harguments
      have hnext := (commandArguments_reads harguments).bounds
      simp only [w.spanTo_spanAt (show p < next by omega) (hnext.2 hstart.2), isHash_window w hlt]
      exact .ok rfl
  · exact .ok rfl

/-! ## Labels and assignments -/

theorem label_window (hlt : p < inner.size) :
    w.CarriesAll (Option.map (carry n (Stmt.mapSpan w.move))) (label inner p)
      (label outer (n + p)) := by
  have hend : (if outer.startsLine (n + p) then labelEnd? outer (n + p) else none) =
      (if inner.startsLine p then labelEnd? inner p else none).map (n + ·) := by
    rw [w.startsLine (Nat.le_of_lt hlt), labelEnd?_window w hlt]
    split <;> rfl
  simp only [label, hend]
  cases hcolon : (if inner.startsLine p then labelEnd? inner p else none) with
  | none => exact .absent rfl
  | some colon =>
    have hbounds : p < colon ∧ colon < inner.size := by
      split at hcolon
      · exact labelEnd?_bounds hcolon
      · cases hcolon
    have hname := w.slice (w.isBoundary_start hlt)
      (w.isBoundary_start hbounds.2).le_byteLength
    simp only [Option.map_some, Nat.add_assoc,
      w.spanTo_spanAt (show p < colon + 1 by omega) hbounds.2]
    rw [w.spanAt hlt, w.spanAt hbounds.2]
    refine .found ?_
    simp only [carry_mk, Stmt.mapSpan, ← hname]
    rfl

theorem legacyAssignment_window (hlt : p < inner.size) :
    legacyAssignment outer (n + p) =
      (legacyAssignment inner p).map (carry n (Expr.mapSpan w.move)) := by
  obtain ⟨name, hname⟩ := Stream.exists_token_of_lt hlt
  simp only [legacyAssignment, hname, w.token hname, Nat.add_assoc,
    w.continuesWith (show p + 1 ≤ inner.size from hlt)]
  by_cases hguard : (name.kind = .word && inner.continuesWith (p + 1) "=") = true
  · have hsize := Stream.lt_size_of_continues
      (Bool.and_eq_true_iff.mp (Bool.and_eq_true_iff.mp hguard).2).1
    have htext : legacyText? outer (fun _ => false) (n + (p + 2)) =
        (legacyText? inner (fun _ => false) (p + 2)).map
          (carry n (LegacyLiteral.mapSpan w.move)) :=
      legacyText?_window w hsize fun _ _ => rfl
    have hspan : ∀ stop, 0 < stop → stop ≤ inner.size →
        outer.spanTo (name.span.shift (byteLength before) lines) (n + stop) =
          w.move (inner.spanTo name.span stop) :=
      fun stop hpos hstop => w.spanTo hpos hstop name.span
    rw [if_pos hguard, htext]
    refine (if_pos hguard).trans ?_
    cases hread : legacyText? inner (fun _ => false) (p + 2) with
    | none =>
      simp only [Option.map_none, Option.map_some, Token.shift_span, hspan (p + 2) (by omega) hsize]
      rfl
    | some read =>
      obtain ⟨text, next⟩ := read
      have hnext := (legacyText?_reads hread).bounds
      simp only [Option.map_some, Token.shift_span, hspan next (by omega) hnext.2]
      rfl
  · rw [if_neg hguard]
    exact if_neg hguard

/-! ## Conditions -/

theorem expressionOnLine_window (hp : p ≤ inner.size) :
    w.Carries (Leaves inner) (carry n (Expr.mapSpan w.move)) (expressionOnLine inner p)
      (expressionOnLine outer (n + p)) := by
  unfold expressionOnLine
  rw [w.continues hp]
  split
  · exact ((expression_window w hp .any).required _ _).mono fun read _ _ => Stuck.leaves
  · exact .error _

end Line

section Closed

variable (w : ClosedWindow inner outer n lines before after)

include w

/-- An operand follows a closed window if anything does. -/
theorem supplied_of_followed (h : n + inner.size < outer.size) : w.Supplied := by
  have hitem := Array.getElem?_eq_getElem h
  have hedge := w.closed _ hitem
  exact startsOperand_of_word (by simp [Stream.token?, hitem]) hedge.word hedge.clause

theorem not_joinsList {arguments : List (Option Expr)} : ¬ JoinsList inner outer n arguments := by
  rintro ⟨hreadsOn, p, hlt, hslots⟩
  have hcomma : outer.reads (n + inner.size) "," = false := w.reads_edge (by decide)
  have hstar : outer.reads (n + inner.size) "*" = false := w.reads_edge (by decide)
  rw [readsOn, hcomma, Bool.false_or, slotReadsOn] at hreadsOn
  split at hreadsOn
  · next hvariadic =>
    have hfollowed := lt_size_of_startsOperand hreadsOn
    cases hlast : arguments.getLast?.join with
    | none =>
      rcases hslots.reads_comma hlast with heq | hreads
      · omega
      · rw [w.comma_of_followed hfollowed] at hreads
        cases hreads
    | some e =>
      rw [hlast] at hvariadic
      have hreads := hslots.reads_star hlast (of_decide_eq_true hvariadic)
      rw [w.star_of_followed hfollowed] at hreads
      cases hreads
  · rw [hstar] at hreadsOn
    cases hreadsOn

theorem atBlockBrace_window (hi : i ≤ inner.size) :
    atBlockBrace outer (n + i) = atBlockBrace inner i := by
  rw [atBlockBrace, w.reads hi "\x7b" (by decide), atBlockBrace]
  rcases Nat.eq_or_lt_of_le hi with rfl | hlt
  · have hreads : inner.reads inner.size "\x7b" = false := by
      simp [Stream.reads, Stream.token?_eq_none (Nat.le_refl _)]
    rw [hreads, Bool.false_and, Bool.false_and]
  · rw [w.endsLine hlt]

theorem atKeyword_window {keyword : Keyword}
    (hkeyword : keyword = .elseWord ∨ keyword = .untilWord ∨ keyword = .catchWord ∨
      keyword = .finallyWord) (hp : p ≤ inner.size) :
    atKeyword outer (n + p) keyword = atKeyword inner p keyword := by
  rcases Nat.eq_or_lt_of_le hp with rfl | hlt
  · rw [w.atKeyword_edge hkeyword]
    simp [atKeyword, Stream.token?_eq_none (Nat.le_refl inner.size)]
  · exact w.atKeyword hlt keyword

theorem condition_window (hp : p ≤ inner.size) :
    w.Carries (Leaves inner) (carry n (Expr.mapSpan w.move)) (condition inner p)
      (condition outer (n + p)) := by
  unfold condition
  rw [w.reads hp "(" (by decide)]
  split
  · next hopen =>
    have hlt := Stream.lt_size_of_reads hopen
    refine (group_window hlt fun q _ hq => expression_window w.toWindow hq).bindAll ?_
    rintro ⟨inside, next⟩ hgroup
    have hnext := ((group_reads hgroup).advances (expression_advances inner)).2
    have hbinary : (outer.continues (n + next) &&
          (outer.token? (n + next)).any fun token => (Operator.binary? token.text).isSome) =
        (inner.continues next &&
          (inner.token? next).any fun token => (Operator.binary? token.text).isSome) := by
      rw [w.continues hnext]
      rcases Nat.eq_or_lt_of_le hnext with rfl | hlt
      · rw [Stream.continues_of_size_le (Nat.le_refl _), Bool.false_and, Bool.false_and]
      · rw [w.token? hlt, Option.any_map]
        rfl
    simp only [hbinary]
    split
    · exact (climb_window hnext fun q _ hq => expression_window w.toWindow hq).mono
        fun read _ _ => Stuck.leaves
    · exact .ok rfl
  · exact expressionOnLine_window w.toWindow hp

omit w in
theorem le_size_of_readsWords {stream : Stream} {words : List String}
    (h : stream.readsWords p words = true) (hp : p ≤ stream.size) :
    p + words.length ≤ stream.size := by
  induction words generalizing p with
  | nil => exact hp
  | cons word words ih =>
    simp only [Stream.readsWords, Bool.and_eq_true] at h
    have hlt : p < stream.size := by
      refine Nat.lt_of_not_le fun hle => ?_
      simp [Stream.token?_eq_none hle] at h
    have := ih h.2 hlt
    simp only [List.length_cons]
    omega

omit w in
theorem readsWords_of_tokens {words : List String}
    (h : ∀ i, p ≤ i → i < p + words.length →
      outer.token? (n + i) = (inner.token? i).map (Token.shift (byteLength before) lines)) :
    outer.readsWords (n + p) words = inner.readsWords p words := by
  induction words generalizing p with
  | nil => rfl
  | cons word words ih =>
    simp only [List.length_cons] at h
    rw [Stream.readsWords, h p (Nat.le_refl p) (by omega), Option.any_map, Nat.add_assoc,
      ih fun i hle hlt => h i (by omega) (by omega), Stream.readsWords]
    rfl

omit w in
/-- Operators do not spell an older comparison. -/
theorem Dangling.readsWords {stream : Stream} (h : Dangling stream p) {words : List String}
    (hwords : words ∈ comparisonWords) : stream.readsWords p words = false := by
  have hfirst : ∀ i text, p ≤ i → ¬ IsOperator text →
      (stream.token? i).any (·.is text) = false := by
    intro i text hle htext
    rw [Bool.eq_false_iff]
    intro hany
    obtain ⟨token, htoken, his⟩ := (Option.any_eq_true _ _).mp hany
    exact h.not_expected hle htext ⟨token, htoken, his⟩
  simp only [comparisonWords, List.mem_cons, List.not_mem_nil, or_false] at hwords
  rcases hwords with rfl | rfl | rfl | rfl | rfl | rfl
  · simp [Stream.readsWords, hfirst p "is" (Nat.le_refl p) (by decide)]
  · simp [Stream.readsWords, hfirst (p + 1) "in" (Nat.le_succ p) (by decide)]
  · simp [Stream.readsWords, hfirst (p + 1) "contains" (Nat.le_succ p) (by decide)]
  · simp [Stream.readsWords, hfirst p "is" (Nat.le_refl p) (by decide)]
  · simp [Stream.readsWords, hfirst p "in" (Nat.le_refl p) (by decide)]
  · simp [Stream.readsWords, hfirst p "contains" (Nat.le_refl p) (by decide)]

/-- The words of an older comparison are the same, unless the window ends before them or with the
operator that is the first of them. -/
theorem readsWords_window (hp : p ≤ inner.size) :
    n + inner.size < outer.size ∧ Dangling inner p ∨
      ∀ words ∈ comparisonWords, outer.readsWords (n + p) words = inner.readsWords p words := by
  have hlength : ∀ words ∈ comparisonWords, words.length ≤ 2 := by decide
  by_cases hfollowed : n + inner.size < outer.size
  · rcases Nat.eq_or_lt_of_le hp with rfl | hlt
    · exact .inl ⟨hfollowed, (lacking_of_size_le (Nat.le_refl _)).dangling⟩
    · obtain ⟨token, htoken⟩ := Stream.exists_token_of_lt hlt
      by_cases hnext : p + 1 < inner.size
      · refine .inr fun words hwords => readsWords_of_tokens fun i _ hi => w.token? ?_
        have := hlength words hwords
        omega
      · have hsize : p + 1 = inner.size := by omega
        by_cases hnot : token.is "not" = true
        · have hoperator : IsOperator token.text :=
            (Operator.isOperator_congr hnot).mpr (by decide)
          exact .inl ⟨hfollowed, (lacking_of_size_le (by omega)).dangling.cons htoken
            (w.operator p token htoken hoperator) hoperator⟩
        · -- the word behind the window is no operator, so it is not the second word
          have hafter : (outer.token? (n + (p + 1))).any (·.is "not") = false := by
            rw [Bool.eq_false_iff, hsize]
            intro hany
            obtain ⟨other, hother, his⟩ := (Option.any_eq_true _ _).mp hany
            obtain ⟨item, hitem, rfl⟩ := Option.map_eq_some_iff.mp hother
            exact (w.closed item hitem).operator ((Operator.isOperator_congr his).mpr (by decide))
          have hnone : inner.token? (p + 1) = none := Stream.token?_eq_none (by omega)
          have hsingle : ∀ word, outer.readsWords (n + p) [word] = inner.readsWords p [word] :=
            fun word => readsWords_of_tokens fun i _ hi => w.token? (by simp at hi; omega)
          refine .inr fun words hwords => ?_
          simp only [comparisonWords, List.mem_cons, List.not_mem_nil, or_false] at hwords
          rcases hwords with rfl | rfl | rfl | rfl | rfl | rfl
          · simp [Stream.readsWords, Nat.add_assoc, hafter, hnone]
          · simp [Stream.readsWords, w.token htoken, htoken, Token.is] at hnot ⊢
            simp [hnot]
          · simp [Stream.readsWords, w.token htoken, htoken, Token.is] at hnot ⊢
            simp [hnot]
          · exact hsingle _
          · exact hsingle _
          · exact hsingle _
  · -- no token follows the window
    have htokens : ∀ i, outer.token? (n + i) =
        (inner.token? i).map (Token.shift (byteLength before) lines) := by
      intro i
      by_cases hi : i < inner.size
      · exact w.token? hi
      · rw [Stream.token?_eq_none (show inner.size ≤ i by omega),
          Stream.token?_eq_none (show outer.size ≤ n + i by omega)]
        rfl
    exact .inr fun words _ => readsWords_of_tokens fun i _ _ => htokens i

/-- An older comparison is only missed where it would start at the last name of the window. -/
theorem legacyComparison_window (hp : p ≤ inner.size) :
    w.Carries (fun read => read = none ∧ Dangling inner (p + 1))
      (Option.map (carry n (Expr.mapSpan w.move))) (legacyComparison inner p)
      (legacyComparison outer (n + p)) := by
  unfold legacyComparison
  rw [w.continues hp]
  rcases Nat.eq_or_lt_of_le hp with rfl | hlt
  · rw [Stream.continues_of_size_le (Nat.le_refl _), Stream.token?_eq_none (Nat.le_refl _)]
    cases outer.token? (n + inner.size) <;>
      simp only [Bool.and_false, Bool.false_eq_true, if_false] <;> exact .absent rfl
  · obtain ⟨name, hname⟩ := Stream.exists_token_of_lt hlt
    simp only [hname, w.token hname]
    change w.Carries _ _ (if name.kind = .word && inner.continues p then _ else _)
      (if name.kind = .word && inner.continues p then _ else _)
    split
    · rcases readsWords_window w (show p + 1 ≤ inner.size from hlt) with
        ⟨hfollowed, hdangling⟩ | hwords
      · have hnone : comparisonWords.find? (inner.readsWords (p + 1)) = none := by
          rw [List.find?_eq_none]
          intro words hwords
          simp [hdangling.readsWords hwords]
        rw [hnone]
        rintro _ ⟨⟩
        exact .inl ⟨supplied_of_followed w hfollowed, rfl, hdangling⟩
      · have hfind : comparisonWords.find? (outer.readsWords (n + p + 1)) =
            comparisonWords.find? (inner.readsWords (p + 1)) := by
          rw [Nat.add_assoc]
          simp only [comparisonWords, List.forall_mem_cons, List.find?_cons] at hwords ⊢
          simp only [hwords]
          rfl
        rw [hfind]
        cases hwords : comparisonWords.find? (inner.readsWords (p + 1)) with
        | none => exact .absent rfl
        | some words =>
          have hstart := le_size_of_readsWords (List.find?_some hwords)
            (show p + 1 ≤ inner.size from hlt)
          have htext : legacyText? outer (fun _ => false) (n + p + 1 + words.length) =
              (legacyText? inner (fun _ => false) (p + 1 + words.length)).map
                (carry n (LegacyLiteral.mapSpan w.move)) := by
            rw [Nat.add_assoc n, Nat.add_assoc n]
            exact legacyText?_window w.toWindow hstart fun _ _ => rfl
          simp only [htext]
          rcases legacyText? inner (fun _ => false) (p + 1 + words.length) with _ | ⟨text, next⟩
          · exact .error _
          · exact .found rfl
    · exact .absent rfl

/-- The condition of a branch ends before operators that lack an operand, or at the end. -/
theorem ifTest_window (hp : p ≤ inner.size) :
    w.Carries (fun read => Dangling inner read.2) (carry n (Expr.mapSpan w.move)) (ifTest inner p)
      (ifTest outer (n + p)) := by
  refine (legacyComparison_window w hp).bind ?_ ?_
  · rintro _ hread - ⟨rfl, hdangling⟩ ⟨test, next⟩ htest
    have hlt := (condition_reads htest).bounds.1
    exact hdangling.mono hlt
  · rintro (_ | read) -
    · exact (condition_window w hp).mono fun _ _ _ hleaves => hleaves.1
    · exact .ok rfl

end Closed

end HotkeyScript.Grammar
