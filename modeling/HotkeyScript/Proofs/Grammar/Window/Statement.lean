import HotkeyScript.Proofs.Grammar.Window.Parts

/-!
# Statements in a window

A statement in a window is the same statement in the outer stream, unless operators that lack an
operand are left behind it. A body that reads the whole window leaves none, so all its statements
are those of the outer stream, which goes on with the statements behind the window.

## Main definitions

* `Grammar.StmtCarried` — statements at a position of a window are those of the outer stream.
-/

namespace HotkeyScript.Grammar

open HotkeyScript.Stream (ClosedWindow Window)
open Source (byteLength)

/-- Operators that lack an operand are left behind the statement that starts at a position, or there
is none because of them. -/
def ShortStmt (stream : Stream) (p : Nat) : Option (Read Stmt) → Prop
  | none => Dangling stream p
  | some read => Leaves stream read

/-- The rule matched, and operators that lack an operand are left. -/
def FoundShort {α : Type} (stream : Stream) : Option (Read α) → Prop
  | none => False
  | some read => Leaves stream read

variable {inner outer : Stream} {n lines : Nat} {before after : Source}
  {w : ClosedWindow inner outer n lines before after} {p q i : Nat}

variable (w) in
/-- Statements at the position are those of the outer stream, unless they are cut short. -/
def StmtCarried (p : Nat) : Prop :=
  w.Carries (ShortStmt inner p) (Option.map (carry n (Stmt.mapSpan w.move))) (statement inner p)
    (statement outer (n + p))

theorem StmtCarried.required (h : StmtCarried w p) :
    w.Carries (Leaves inner) (carry n (Stmt.mapSpan w.move))
      (requiredStatement inner (statement inner) p)
      (requiredStatement outer (statement outer) (n + p)) :=
  Window.Carries.required h _ _

/-! ## Bodies -/

theorem body_window (hp : p ≤ inner.size) (h : ∀ q, p ≤ q → q ≤ inner.size → StmtCarried w q) :
    w.Carries (fun read => Dangling inner read.2) (carry n (mapBody w.move))
      (body inner (statement inner) p) (body outer (statement outer) (n + p)) := by
  induction hn : inner.size - p using Nat.strongRecOn generalizing p with
  | ind m ih =>
    rw [body_eq, body_eq]
    refine Window.Carries.bind (h p (Nat.le_refl p) hp) ?_ ?_
    · rintro (_ | ⟨s, next⟩) - - hshort read hread
      · cases hread
        exact hshort
      · have hdangling : Dangling inner next := hshort.1
        simp only [hdangling.body, ok_bind, ite_self] at hread
        cases hread
        exact hdangling
    · rintro (_ | ⟨s, next⟩) hread
      · exact .ok rfl
      · have hnext := statement_advances inner _ _ _ hread
        simp only [Option.map_some, w.startsLine hnext.2]
        split
        · refine (ih _ (by omega) hnext.2 (fun q hq => h q (by omega)) rfl).bind ?_ ?_
          · rintro ⟨rest, stop⟩ - - hdangling read hread
            cases hread
            exact hdangling
          · rintro ⟨rest, stop⟩ -
            exact .ok rfl
        · exact .ok rfl

theorem block_window (hp : p ≤ inner.size) (h : ∀ q, p < q → q ≤ inner.size → StmtCarried w q) :
    w.CarriesAll (Option.map (carry n (Block.mapSpan w.move)))
      (block inner (statement inner) p) (block outer (statement outer) (n + p)) := by
  unfold block
  rw [w.reads hp "\x7b" (by decide)]
  split
  · next hopen =>
    have hlt := Stream.lt_size_of_reads hopen
    refine (body_window (show p + 1 ≤ inner.size from hlt) fun q hq => h q hq).bind ?_ ?_
    · rintro ⟨statements, close⟩ - - hdangling read hread
      exact hdangling.expect_ne (by decide) _ _ hread
    · rintro ⟨statements, close⟩ hread
      have hclose := (bodyWithin_reads hread).bounds (statement_advances inner) hlt
      refine .expect fun hexpected => .found ?_
      simp only [Nat.add_assoc, carry_mk,
        w.spanTo_spanAt (show p < close + 1 by omega) hexpected.lt_size]
      rfl
  · exact .absent rfl

theorem blockStatement_window (hp : p ≤ inner.size)
    (h : ∀ q, p < q → q ≤ inner.size → StmtCarried w q) :
    w.CarriesAll (Option.map (carry n (Stmt.mapSpan w.move)))
      (blockStatement inner (statement inner) p)
      (blockStatement outer (statement outer) (n + p)) := by
  refine (block_window hp h).bindAll ?_
  rintro (_ | ⟨braces, stop⟩) -
  · exact .absent rfl
  · exact .found rfl

/-! ## Clauses -/

theorem clause_window {keyword : Keyword}
    (hkeyword : keyword = .elseWord ∨ keyword = .untilWord ∨ keyword = .catchWord ∨
      keyword = .finallyWord) (hp : p ≤ inner.size)
    (h : ∀ q, p < q → q ≤ inner.size → StmtCarried w q) :
    w.Carries (Leaves inner) (carry n (mapStmt? w.move))
      (clause inner (statement inner) keyword p)
      (clause outer (statement outer) keyword (n + p)) := by
  unfold clause
  rw [atKeyword_window w hkeyword hp]
  split
  · next hat =>
    have hlt := lt_size_of_atKeyword hat
    refine (h (p + 1) (Nat.lt_succ_self p) hlt).required.bind ?_ ?_
    · rintro ⟨s, stop⟩ - - hleaves read hread
      cases hread
      exact hleaves
    · rintro ⟨s, stop⟩ -
      exact .ok rfl
  · exact .ok rfl

variable (w) in
theorem untilClause_window (hp : p ≤ inner.size) :
    w.Carries (Leaves inner) (carry n (Option.map (Expr.mapSpan w.move))) (untilClause inner p)
      (untilClause outer (n + p)) := by
  unfold untilClause
  rw [atKeyword_window w (by simp) hp]
  split
  · next hat =>
    have hlt := lt_size_of_atKeyword hat
    refine (expressionOnLine_window w.toWindow (show p + 1 ≤ inner.size from hlt)).bind ?_ ?_
    · rintro ⟨test, stop⟩ - - hleaves read hread
      cases hread
      exact hleaves
    · rintro ⟨test, stop⟩ -
      exact .ok rfl
  · exact .ok rfl

theorem catchClause_window (hp : p ≤ inner.size)
    (h : ∀ q, p < q → q ≤ inner.size → StmtCarried w q) :
    w.Carries (Leaves inner) (carry n (mapCatch? w.move))
      (catchClause inner (statement inner) p) (catchClause outer (statement outer) (n + p)) := by
  unfold catchClause
  rw [atKeyword_window w (by simp) hp]
  split
  · next hat =>
    have hlt := lt_size_of_atKeyword hat
    rw [Nat.add_assoc, catchParam_window w.toWindow (show p + 1 ≤ inner.size from hlt)]
    rcases hparam : catchParam inner (p + 1) with ⟨param, first⟩
    have hfirst : p < first ∧ first ≤ inner.size := by
      rcases catchParam_reads hparam with ⟨-, rfl⟩ | ⟨name, -, token, htoken, -, -, rfl⟩
      · omega
      · have := Stream.lt_size_of_token? htoken
        omega
    refine (h first hfirst.1 hfirst.2).required.bind ?_ ?_
    · rintro ⟨s, stop⟩ - - hleaves read hread
      cases hread
      exact hleaves
    · rintro ⟨s, stop⟩ hread
      have hstop := statement_advances inner _ _ _ (requiredStatement_reads hread)
      refine .ok ?_
      simp only [w.spanTo_spanAt (show p < stop by omega) hstop.2]
      rfl
  · exact .ok rfl

/-! ## Statements with a keyword -/

section Flow

variable (hlt : p < inner.size) (h : ∀ q, p < q → q ≤ inner.size → StmtCarried w q)

include hlt h

theorem ifStatement_window (start : Span) :
    w.Carries (Leaves inner) (carry n (Stmt.mapSpan w.move))
      (ifStatement inner (statement inner) start p)
      (ifStatement outer (statement outer) (w.move start) (n + p)) := by
  rw [ifStatement_eq, ifStatement_eq, Nat.add_assoc]
  refine (ifTest_window w hlt).bind ?_ ?_
  · rintro ⟨test, behind⟩ - - hdangling read hread
    exact (hdangling.requiredStatement_ne _ _ hread).elim
  · rintro ⟨test, behind⟩ htest
    have hbehind := (ifTest_reads htest).bounds
    refine (h behind (by omega) hbehind.2).required.bind ?_ ?_
    · rintro ⟨s, next⟩ - - hleaves read hread
      simp only [hleaves.1.clause, ok_bind] at hread
      cases hread
      exact hleaves
    · rintro ⟨s, next⟩ hs
      have hnext := statement_advances inner _ _ _ (requiredStatement_reads hs)
      refine (clause_window (.inl rfl) hnext.2 fun q hq => h q (by omega)).bind ?_ ?_
      · rintro ⟨alternate, stop⟩ - - hleaves read hread
        cases hread
        exact hleaves
      · rintro ⟨alternate, stop⟩ hclause
        have hstop := (clause_reads hclause).bounds (statement_advances inner)
        refine .ok ?_
        simp only [w.spanTo (show 0 < stop by omega) (hstop.2 hnext.2)]
        rfl

theorem whileStatement_window (start : Span) :
    w.Carries (Leaves inner) (carry n (Stmt.mapSpan w.move))
      (whileStatement inner (statement inner) start p)
      (whileStatement outer (statement outer) (w.move start) (n + p)) := by
  unfold whileStatement
  rw [Nat.add_assoc]
  refine (condition_window w hlt).bind ?_ ?_
  · rintro ⟨test, next⟩ - - hleaves read hread
    exact (hleaves.1.requiredStatement_ne _ _ hread).elim
  · rintro ⟨test, next⟩ htest
    have hnext := (condition_reads htest).bounds
    refine (h next (by omega) hnext.2).required.bind ?_ ?_
    · rintro ⟨s, stop⟩ - - hleaves read hread
      cases hread
      exact hleaves
    · rintro ⟨s, stop⟩ hs
      have hstop := statement_advances inner _ _ _ (requiredStatement_reads hs)
      refine .ok ?_
      simp only [w.spanTo (show 0 < stop by omega) hstop.2]
      rfl

theorem loopStatement_window (start : Span) :
    w.Carries (Leaves inner) (carry n (Stmt.mapSpan w.move))
      (loopStatement inner (statement inner) start p)
      (loopStatement outer (statement outer) (w.move start) (n + p)) := by
  rw [loopStatement_eq, loopStatement_eq, loopHead_window w.toWindow hlt]
  have hhead := lt_loopHead inner p
  refine (params_window (loopHead_le hlt) fun i => atBlockBrace_window w).bind ?_ ?_
  · rintro ⟨arguments, behind⟩ - - hleaves read hread
    exact (hleaves.1.requiredStatement_ne _ _ hread).elim
  · rintro ⟨arguments, behind⟩ harguments
    have hbehind := (paramsWithin_reads harguments).bounds
    refine (h behind (by omega) (hbehind.2 (loopHead_le hlt))).required.bind ?_ ?_
    · rintro ⟨s, next⟩ - - hleaves read hread
      simp only [hleaves.1.untilClause, ok_bind] at hread
      cases hread
      exact hleaves
    · rintro ⟨s, next⟩ hs
      have hnext := statement_advances inner _ _ _ (requiredStatement_reads hs)
      refine (untilClause_window w hnext.2).bind ?_ ?_
      · rintro ⟨test, stop⟩ - - hleaves read hread
        cases hread
        exact hleaves
      · rintro ⟨test, stop⟩ hclause
        have hstop := (untilClause_reads hclause).bounds fun _ _ _ => IsStop.bounds
        refine .ok ?_
        simp only [w.spanTo (show 0 < stop by omega) (hstop.2 hnext.2)]
        rfl

omit hlt in
theorem forRest_window (start : Span) (key : Identifier) (value : Option Identifier) (hpq : p < q)
    (hq : q ≤ inner.size) :
    w.Carries (Leaves inner) (carry n (Stmt.mapSpan w.move))
      (forRest inner (statement inner) start key value q)
      (forRest outer (statement outer) (w.move start) (key.mapSpan w.move)
        (value.map (Identifier.mapSpan w.move)) (n + q)) := by
  have hguard : (outer.continues (n + q) && atKeyword outer (n + q) .inWord) =
      (inner.continues q && atKeyword inner q .inWord) := by
    rw [w.continues hq]
    rcases Nat.eq_or_lt_of_le hq with rfl | hlt
    · rw [Stream.continues_of_size_le (Nat.le_refl _), Bool.false_and, Bool.false_and]
    · rw [w.atKeyword hlt]
  unfold forRest
  rw [hguard]
  split
  · next hin =>
    have hlt := Stream.lt_size_of_continues (Bool.and_eq_true_iff.mp hin).1
    refine (expressionOnLine_window w.toWindow (show q + 1 ≤ inner.size from hlt)).bind ?_ ?_
    · rintro ⟨iterable, first⟩ - - hleaves read hread
      exact (hleaves.1.requiredStatement_ne _ _ hread).elim
    · rintro ⟨iterable, first⟩ hiterable
      have hfirst := expression_advances inner _ _ _ _ (expressionOnLine_reads hiterable)
      refine (h first (by omega) hfirst.2).required.bind ?_ ?_
      · rintro ⟨s, next⟩ - - hleaves read hread
        simp only [hleaves.1.untilClause, ok_bind] at hread
        cases hread
        exact hleaves
      · rintro ⟨s, next⟩ hs
        have hnext := statement_advances inner _ _ _ (requiredStatement_reads hs)
        refine (untilClause_window w hnext.2).bind ?_ ?_
        · rintro ⟨test, stop⟩ - - hleaves read hread
          cases hread
          exact hleaves
        · rintro ⟨test, stop⟩ hclause
          have hstop := (untilClause_reads hclause).bounds fun _ _ _ => IsStop.bounds
          refine .ok ?_
          simp only [w.spanTo (show 0 < stop by omega) (hstop.2 hnext.2)]
          rfl
  · exact .error _

theorem forStatement_window (start : Span) :
    w.Carries (Leaves inner) (carry n (Stmt.mapSpan w.move))
      (forStatement inner (statement inner) start p)
      (forStatement outer (statement outer) (w.move start) (n + p)) := by
  rw [forStatement_eq, forStatement_eq, Nat.add_assoc]
  refine (nameOnLine_window w.toWindow hlt).bindAll ?_
  rintro ⟨key, behind⟩ hkey
  obtain ⟨token, htoken, -, -, rfl⟩ := nameOnLine_reads hkey
  have hbehind := Stream.lt_size_of_token? htoken
  refine (secondName_window w.toWindow hbehind).bindAll ?_
  rintro ⟨value, word⟩ hvalue
  have hword := secondName_bounds hvalue
  exact forRest_window h start key value (by omega) (hword.2 hbehind)

theorem tryStatement_window (start : Span) :
    w.Carries (Leaves inner) (carry n (Stmt.mapSpan w.move))
      (tryStatement inner (statement inner) start p)
      (tryStatement outer (statement outer) (w.move start) (n + p)) := by
  unfold tryStatement
  rw [Nat.add_assoc]
  refine (h (p + 1) (Nat.lt_succ_self p) hlt).required.bind ?_ ?_
  · rintro ⟨s, behind⟩ - - hleaves read hread
    simp only [hleaves.1.catchClause, hleaves.1.clause, ok_bind] at hread
    cases hread
    exact hleaves
  · rintro ⟨s, behind⟩ hs
    have hbehind := statement_advances inner _ _ _ (requiredStatement_reads hs)
    refine (catchClause_window hbehind.2 fun q hq => h q (by omega)).bind ?_ ?_
    · rintro ⟨handler, next⟩ - - hleaves read hread
      simp only [hleaves.1.clause, ok_bind] at hread
      cases hread
      exact hleaves
    · rintro ⟨handler, next⟩ hhandler
      have hnext := (catchClause_reads hhandler).bounds
        fun _ _ _ => IsCatch.bounds (statement_advances inner)
      refine (clause_window (by simp) (hnext.2 hbehind.2) fun q hq => h q (by omega)).bind ?_ ?_
      · rintro ⟨finalizer, stop⟩ - - hleaves read hread
        cases hread
        exact hleaves
      · rintro ⟨finalizer, stop⟩ hclause
        have hstop := (clause_reads hclause).bounds (statement_advances inner)
        refine .ok ?_
        simp only [w.spanTo (show 0 < stop by omega) (hstop.2 (hnext.2 hbehind.2))]
        rfl

theorem flow_window :
    w.Carries (FoundShort inner) (Option.map (carry n (Stmt.mapSpan w.move)))
      (flow inner (statement inner) p) (flow outer (statement outer) (n + p)) := by
  simp only [flow, w.keyword hlt, w.spanAt hlt]
  split
  · exact .some_map (ifStatement_window hlt h _)
  · exact .some_map (whileStatement_window hlt h _)
  · exact .some_map (loopStatement_window hlt h _)
  · exact .some_map (forStatement_window hlt h _)
  · exact .some_map (tryStatement_window hlt h _)
  · exact .absent rfl

end Flow

/-! ## The other rules -/

theorem action_window (h : StmtCarried w p) :
    w.Carries (fun read => Dangling inner read.2 ∧ (read.2 = p ∨ read.2 < inner.size))
      (carry n (mapStmt? w.move)) (action (statement inner) p)
      (action (statement outer) (n + p)) := by
  refine Window.Carries.bind h ?_ ?_
  · rintro (_ | ⟨s, next⟩) - - hshort read hread
    · cases hread
      exact ⟨hshort, .inl rfl⟩
    · cases hread
      exact ⟨hshort.1, .inr hshort.2⟩
  · rintro (_ | ⟨s, next⟩) -
    · exact .ok rfl
    · exact .ok rfl

theorem declarationHead?_mapSpan (f : Span → Span) (e : Expr) :
    declarationHead? (e.mapSpan f) =
      (declarationHead? e).map fun head => (head.1.mapSpan f, mapSlots f head.2) := by
  cases e with
  | call callee arguments span => cases callee <;> rfl
  | _ => rfl

section Rules

variable (hlt : p < inner.size) (h : ∀ q, p < q → q ≤ inner.size → StmtCarried w q)

include hlt h

theorem hotkey_window :
    w.Carries (FoundShort inner) (Option.map (carry n (Stmt.mapSpan w.move)))
      (hotkey inner (statement inner) p) (hotkey outer (statement outer) (n + p)) := by
  rw [hotkey_eq, hotkey_eq, trigger_window w.toWindow hlt]
  rcases htrigger : trigger inner p with _ | ⟨read, colons⟩
  · exact .absent rfl
  · obtain ⟨-, hsize⟩ := trigger_reads htrigger
    have hcolons := lt_of_trigger htrigger
    have hfinish : ∀ a stop, p < stop → stop ≤ inner.size →
        w.Carries (FoundShort inner) (Option.map (carry n (Stmt.mapSpan w.move)))
          (if inner.startsLine stop then
            found (.hotkey read.modifiers read.first read.key a
              (inner.spanTo (inner.spanAt p) stop)) stop
            else .error (inner.errorAt stop))
          (if outer.startsLine (n + stop) then
            found (.hotkey read.modifiers (read.first.map (Key.mapSpan w.move))
              (read.key.mapSpan w.move) (mapStmt? w.move a)
              (outer.spanTo (outer.spanAt (n + p)) (n + stop))) (n + stop)
            else .error (outer.errorAt (n + stop))) := by
      intro a stop hlt hle
      rw [w.startsLine hle, w.spanTo_spanAt hlt hle]
      split
      · exact .found rfl
      · exact .error _
    simp only [Option.map_some, carry_mk, Nat.add_assoc,
      w.startsLine (show colons + 2 ≤ inner.size from hsize)]
    split
    · exact hfinish none (colons + 2) (by omega) hsize
    · next hline =>
      refine (action_window (h (colons + 2) (by omega) hsize)).bind ?_ ?_
      · rintro ⟨a, stop⟩ - - ⟨hdangling, hstop⟩ read hread
        simp only at hread hstop
        split at hread
        · next hstart =>
          cases hread
          rcases hstop with rfl | hstop
          · exact absurd hstart hline
          · exact ⟨hdangling, hstop⟩
        · cases hread
      · rintro ⟨a, stop⟩ haction
        have hstop := action_bounds (statement_advances inner) haction hsize
        exact hfinish a stop (by omega) hstop.2

omit hlt in
theorem hotstringRest_window (options : List String) (hpq : p < q) (hq : q ≤ inner.size) :
    w.Carries (Leaves inner)
      (carry n fun rest => (mapStmt? w.move rest.1, rest.2.map (LegacyLiteral.mapSpan w.move)))
      (hotstringRest inner (statement inner) options q)
      (hotstringRest outer (statement outer) options (n + q)) := by
  have htext : legacyText? outer (fun _ => false) (n + q) =
      (legacyText? inner (fun _ => false) q).map (carry n (LegacyLiteral.mapSpan w.move)) :=
    legacyText?_window w.toWindow hq fun _ _ => rfl
  unfold hotstringRest
  rw [w.continues hq, htext]
  split
  · exact .ok rfl
  · next hcontinues =>
    have hlt : q < inner.size := Stream.lt_size_of_continues (by simpa using hcontinues)
    split
    · refine (action_window (h q hpq hq)).bind ?_ ?_
      · rintro ⟨a, stop⟩ - - ⟨hdangling, hstop⟩ read hread
        cases hread
        simp only at hstop
        exact ⟨hdangling, by simp only; omega⟩
      · rintro ⟨a, stop⟩ -
        exact .ok rfl
    · rcases legacyText? inner (fun _ => false) q with _ | ⟨text, next⟩ <;> exact .ok rfl

theorem hotstring_window :
    w.Carries (FoundShort inner) (Option.map (carry n (Stmt.mapSpan w.move)))
      (hotstring inner (statement inner) p) (hotstring outer (statement outer) (n + p)) := by
  have hhead : (if outer.reads (n + p) ":" then hotstringHead outer (n + p) else none) =
      (if inner.reads p ":" then hotstringHead inner p else none).map
        (carry n fun head => (head.1, head.2.mapSpan w.move)) := by
    rw [w.reads (Nat.le_of_lt hlt) ":" (by decide), hotstringHead_window w.toWindow hlt]
    split <;> rfl
  rw [hotstring_eq, hotstring_eq, hhead]
  rcases hread : (if inner.reads p ":" then hotstringHead inner p else none) with
    _ | ⟨⟨options, trigger⟩, colons⟩
  · exact .absent rfl
  · split at hread
    · obtain ⟨first, hfirst, htext, hsize⟩ := hotstringHead_reads hread
      have hcolons := htext.1
      refine (hotstringRest_window h options (show p < colons + 2 by omega) hsize).bind ?_ ?_
      · rintro ⟨rest, stop⟩ - - hleaves read hread
        simp only at hread
        split at hread
        · cases hread
          exact hleaves
        · cases hread
      · rintro ⟨rest, stop⟩ hrest
        have hstop := hotstringRest_bounds (statement_advances inner) hrest hsize
        simp only [w.startsLine hstop.2, w.spanTo_spanAt (show p < stop by omega) hstop.2]
        split
        · exact .found rfl
        · exact .error _
    · cases hread

variable (w) in
omit h in
theorem commandStatement_window :
    w.Carries (FoundShort inner) (Option.map (carry n (Stmt.mapSpan w.move)))
      (command inner p) (command outer (n + p)) := by
  refine (command_window w.toWindow hlt).mono ?_
  intro outcome _ hlost
  unfold CommandLost at hlost
  split at hlost
  · exact hlost.resolve_right fun hjoins => not_joinsList w hjoins.2.2
  · exact hlost.elim

theorem plainExpression_window :
    w.Carries (ShortStmt inner p) (Option.map (carry n (Stmt.mapSpan w.move)))
      (plainExpression inner (statement inner) p)
      (plainExpression outer (statement outer) (n + p)) := by
  refine Window.Carries.bind (expression_window w.toWindow (Nat.le_of_lt hlt) .any) ?_ ?_
  · rintro (_ | ⟨e, next⟩) - - hshort read hread
    · cases hread
      exact hshort.dangling
    · have hbrace : inner.reads next "\x7b" = false :=
        hshort.dangling.reads (Nat.le_refl next) (by decide)
      simp only [hbrace, Bool.and_false, Bool.false_eq_true, if_false] at hread
      cases hread
      exact Stuck.leaves hshort
  · rintro (_ | ⟨e, next⟩) hread
    · exact .absent rfl
    · have hnext := expression_advances inner _ _ _ _ hread
      simp only [Option.map_some, w.startsLine (Nat.le_of_lt hlt),
        w.reads hnext.2 "\x7b" (by decide), declarationHead?_mapSpan]
      have hdeclaration : ∀ c : Bool, (if c then
            (declarationHead? e).map fun head => (head.1.mapSpan w.move, mapSlots w.move head.2)
            else none) =
          (if c then declarationHead? e else none).map
            fun head => (head.1.mapSpan w.move, mapSlots w.move head.2) := by
        intro c
        cases c <;> rfl
      rw [hdeclaration]
      rcases (if inner.startsLine p && inner.reads next "\x7b" then declarationHead? e else none)
        with _ | ⟨name, params⟩
      · exact .found rfl
      · refine ((block_window hnext.2 fun q hq => h q (by omega)).required _ _).bindAll ?_
        rintro ⟨braces, stop⟩ -
        refine .found ?_
        simp only [carry_mk, Block.span_mapSpan]
        rfl

theorem expressionStatement_window :
    w.Carries (ShortStmt inner p) (Option.map (carry n (Stmt.mapSpan w.move)))
      (expressionStatement inner (statement inner) p)
      (expressionStatement outer (statement outer) (n + p)) := by
  unfold expressionStatement
  rw [legacyAssignment_window w.toWindow hlt]
  rcases legacyAssignment inner p with _ | ⟨assignment, stop⟩
  · exact plainExpression_window hlt h
  · exact .found rfl

omit hlt h in
theorem orTry_foundShort {w : Window inner outer n lines before after}
    {x y : Checked (Option (Read Stmt))} {next next' : Unit → Checked (Option (Read Stmt))}
    {f : Read Stmt → Read Stmt}
    (hx : w.Carries (FoundShort inner) (Option.map f) x y)
    (hnext : w.Carries (ShortStmt inner p) (Option.map f) (next ()) (next' ())) :
    w.Carries (ShortStmt inner p) (Option.map f) (orTry x next) (orTry y next') :=
  hx.orTry (fun _ _ => id) (fun _ _ => False.elim) fun _ => hnext

theorem statementRules_window :
    w.Carries (ShortStmt inner p) (Option.map (carry n (Stmt.mapSpan w.move)))
      (statementRules inner (statement inner) p)
      (statementRules outer (statement outer) (n + p)) := by
  unfold statementRules
  refine orTry_foundShort (hotstring_window hlt h) ?_
  refine orTry_foundShort (hotkey_window hlt h) ?_
  refine (label_window w.toWindow hlt).orTryAll fun _ => ?_
  refine (blockStatement_window (Nat.le_of_lt hlt) h).orTryAll fun _ => ?_
  refine orTry_foundShort (flow_window hlt h) ?_
  refine orTry_foundShort (commandStatement_window w hlt) ?_
  exact expressionStatement_window hlt h

end Rules

/-- Statements of a window are those of the outer stream, unless they are cut short. -/
theorem statement_window (w : ClosedWindow inner outer n lines before after) (hp : p ≤ inner.size) :
    StmtCarried w p := by
  induction hn : inner.size - p using Nat.strongRecOn generalizing p with
  | ind m ih =>
    rcases Nat.eq_or_lt_of_le hp with rfl | hlt
    · rw [StmtCarried, statement_of_size_le (Nat.le_refl _)]
      by_cases hfollowed : n + inner.size < outer.size
      · rintro _ ⟨⟩
        exact .inl ⟨supplied_of_followed w hfollowed, (lacking_of_size_le (Nat.le_refl _)).dangling⟩
      · exact .ok (statement_of_size_le (by omega))
    · rw [StmtCarried, statement_eq, statement_eq]
      exact statementRules_window hlt fun q hq hle => ih _ (by omega) hle rfl

/-- A body that reads the whole window goes on with the body behind it. -/
theorem body_append {statements rest : List Stmt} {stop : Nat}
    (w : ClosedWindow inner outer n lines before after) (hp : p ≤ inner.size)
    (hbody : body inner (statement inner) p = .ok (statements, inner.size))
    (hrest : body outer (statement outer) (n + inner.size) = .ok (rest, stop)) :
    body outer (statement outer) (n + p) =
      .ok (statements.map (Stmt.mapSpan w.move) ++ rest, stop) := by
  induction hn : inner.size - p using Nat.strongRecOn generalizing p statements with
  | ind m ih =>
    rcases Nat.eq_or_lt_of_le hp with rfl | hlt
    · rw [(lacking_of_size_le (Nat.le_refl _)).dangling.body] at hbody
      cases hbody
      exact hrest
    · rw [body_eq] at hbody ⊢
      obtain ⟨_ | ⟨s, next⟩, hs, hbody⟩ := bind_eq_ok.mp hbody
      · cases hbody
        omega
      · have hnext := statement_advances inner _ _ _ hs
        simp only at hbody
        rcases statement_window w hp _ hs with ⟨-, hdangling, hleft⟩ | hs'
        · -- the operators that are left end the body before the end of the window
          simp only [hdangling.body, ok_bind, ite_self] at hbody
          cases hbody
          omega
        · split at hbody
          · next hline =>
            obtain ⟨⟨more, stop'⟩, hmore, hbody⟩ := bind_eq_ok.mp hbody
            cases hbody
            have hmore' := ih _ (by omega) hnext.2 hmore rfl
            rw [bodyRound, hs', ok_bind]
            simp only [Option.map_some, w.startsLine hnext.2, hline, if_true, hmore', ok_bind]
            rfl
          · next hline =>
            cases hbody
            exact absurd (Stream.startsLine_of_size_le (Nat.le_refl _)) hline

end HotkeyScript.Grammar
