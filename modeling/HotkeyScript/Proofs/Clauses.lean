import HotkeyScript.Proofs.Grammar.Inside
import HotkeyScript.Proofs.Grammar.RuleOrder
import HotkeyScript.Proofs.Stream.Order

/-!
# Clauses

A clause such as `else` belongs to the nearest statement that can still take it. A statement looks
for its clauses right behind its last part, and takes one whenever the keyword stands there. So no
statement ends before the keyword of a clause that it lacks, no matter how deep it stands in others,
and a clause that a statement has follows the part before it without a gap.

## Main definitions

* `Stmt.openClauses`, `Stmt.takenClauses` — the clauses that a statement lacks, and those it has.
* `Grammar.ClauseAt` — a clause that is there just if its keyword is.
* `Grammar.Attached` — what a statement knows of its clauses.
-/

namespace HotkeyScript

/-- The keywords of the clauses that the statement could take behind its end. -/
def Stmt.openClauses : Stmt → List Keyword
  | .branch _ _ none _ => [.elseWord]
  | .loop _ _ _ none _ | .forLoop _ _ _ _ none _ => [.untilWord]
  | .attempt _ none none _ => [.catchWord, .finallyWord]
  | .attempt _ (some _) none _ => [.finallyWord]
  | _ => []

/-- The keywords of the clauses that the statement has, each with the span of the part before it. -/
def Stmt.takenClauses : Stmt → List (Span × Keyword)
  | .branch _ consequent (some _) _ => [(consequent.span, .elseWord)]
  | .loop _ _ body (some _) _ | .forLoop _ _ _ body (some _) _ => [(body.span, .untilWord)]
  | .attempt body none (some _) _ => [(body.span, .finallyWord)]
  | .attempt body (some _) none _ => [(body.span, .catchWord)]
  | .attempt body (some handler) (some _) _ =>
    [(body.span, .catchWord), (handler.span, .finallyWord)]
  | _ => []

namespace Grammar

variable {stream : Stream} {source : Source} {script : Script} {s : Stmt} {keyword : Keyword}
  {p q : Nat}

/-! ## Single clauses -/

/-- The clause is there just if its keyword stands at the position. -/
inductive ClauseAt {α : Type} (stream : Stream) (keyword : Keyword) : Option α → Nat → Nat → Prop
  | missing {p : Nat} : atKeyword stream p keyword = false → ClauseAt stream keyword none p p
  | taken {a : α} {p q : Nat} : atKeyword stream p keyword = true →
      ClauseAt stream keyword (some a) p q

/-- A clause is read just if its keyword stands at the position. -/
theorem clauseAt_of_ite {α β : Type} {inner : Checked β} {close : β → Checked (Read (Option α))}
    {part : Option α}
    (h : (if atKeyword stream p keyword then inner >>= close else .ok (none, p)) = .ok (part, q))
    (hclose : ∀ read part q, close read = .ok (part, q) → part.isSome = true) :
    ClauseAt stream keyword part p q := by
  split at h
  · next hkeyword =>
    obtain ⟨read, -, h⟩ := bind_eq_ok.mp h
    obtain ⟨a, rfl⟩ := Option.isSome_iff_exists.mp (hclose read part q h)
    exact .taken hkeyword
  · next hkeyword =>
    cases h
    exact .missing (Bool.eq_false_iff.mpr hkeyword)

theorem clause_clauseAt {statement : StmtParser} {body : Option Stmt}
    (h : clause stream statement keyword p = .ok (body, q)) : ClauseAt stream keyword body p q :=
  clauseAt_of_ite h (by rintro ⟨inner, stop⟩ part q ⟨⟩; rfl)

theorem untilClause_clauseAt {test : Option Expr} (h : untilClause stream p = .ok (test, q)) :
    ClauseAt stream .untilWord test p q :=
  clauseAt_of_ite h (by rintro ⟨inner, stop⟩ part q ⟨⟩; rfl)

theorem catchClause_clauseAt {statement : StmtParser} {handler : Option CatchClause}
    (h : catchClause stream statement p = .ok (handler, q)) :
    ClauseAt stream .catchWord handler p q :=
  clauseAt_of_ite h (by rintro ⟨inner, stop⟩ part q ⟨⟩; rfl)

/-! ## Statements with clauses -/

theorem covers_of_reads (h : Reads (statement stream) s p q) : stream.Covers s.span p q := by
  have hcovers := (statement_written upholds_true s p q h).covers
  rwa [Node.span_ofStmt] at hcovers

theorem covers_of_catchClause {handler : CatchClause}
    (h : catchClause stream (statement stream) p = .ok (some handler, q)) :
    ∃ m, stream.Covers handler.span m q := by
  cases catchClause_reads h with
  | some _ hclause =>
    exact ⟨_, (hclause.written (statement_written upholds_true) upholds_true).covers⟩

/-- No keyword of a clause that the statement lacks stands at `q`, and the keyword of each clause
that it has stands right behind the part before it. -/
structure Attached (stream : Stream) (s : Stmt) (q : Nat) : Prop where
  lacking : ∀ keyword ∈ s.openClauses, atKeyword stream q keyword = false
  taken : ∀ entry ∈ s.takenClauses,
    ∃ m n, stream.Covers entry.1 m n ∧ atKeyword stream n entry.2 = true

/-- A statement with room for one clause is attached if the clause is read behind its last part. -/
theorem attached_of_clauseAt {α : Type} {part : Option α} {span : Span} {m n : Nat}
    (h : ClauseAt stream keyword part n q) (hcovers : stream.Covers span m n)
    (hopen : s.openClauses = if part.isSome then [] else [keyword])
    (htaken : s.takenClauses = if part.isSome then [(span, keyword)] else []) :
    Attached stream s q := by
  cases h with
  | missing hmissing =>
    refine ⟨?_, ?_⟩
    · rw [hopen]
      exact List.forall_mem_singleton.mpr hmissing
    · rw [htaken]
      exact List.forall_mem_nil _
  | taken hkeyword =>
    refine ⟨?_, ?_⟩
    · rw [hopen]
      exact List.forall_mem_nil _
    · rw [htaken]
      exact List.forall_mem_singleton.mpr ⟨m, n, hcovers, hkeyword⟩

theorem attached_branch {start : Span}
    (h : ifStatement stream (statement stream) start p = .ok (s, q)) : Attached stream s q := by
  simp only [ifStatement_eq, bind_eq_ok] at h
  obtain ⟨⟨test, m⟩, -, ⟨consequent, n⟩, hconsequent, ⟨alternate, stop⟩, halternate, ⟨⟩⟩ := h
  have hcovers := covers_of_reads (requiredStatement_reads hconsequent)
  exact attached_of_clauseAt (clause_clauseAt halternate) hcovers (by cases alternate <;> rfl)
    (by cases alternate <;> rfl)

theorem attached_loop {start : Span}
    (h : loopStatement stream (statement stream) start p = .ok (s, q)) : Attached stream s q := by
  simp only [loopStatement_eq, bind_eq_ok] at h
  obtain ⟨⟨arguments, m⟩, -, ⟨body, n⟩, hbody, ⟨test, stop⟩, htest, ⟨⟩⟩ := h
  have hcovers := covers_of_reads (requiredStatement_reads hbody)
  exact attached_of_clauseAt (untilClause_clauseAt htest) hcovers (by cases test <;> rfl)
    (by cases test <;> rfl)

theorem attached_forLoop {start : Span}
    (h : forStatement stream (statement stream) start p = .ok (s, q)) : Attached stream s q := by
  simp only [forStatement_eq, bind_eq_ok] at h
  obtain ⟨⟨name, k⟩, -, ⟨value, l⟩, -, h⟩ := h
  simp only [forRest] at h
  split at h
  · simp only [bind_eq_ok] at h
    obtain ⟨⟨iterable, m⟩, -, ⟨body, n⟩, hbody, ⟨test, stop⟩, htest, ⟨⟩⟩ := h
    have hcovers := covers_of_reads (requiredStatement_reads hbody)
    exact attached_of_clauseAt (untilClause_clauseAt htest) hcovers (by cases test <;> rfl)
      (by cases test <;> rfl)
  · cases h

theorem attached_attempt {start : Span}
    (h : tryStatement stream (statement stream) start p = .ok (s, q)) : Attached stream s q := by
  simp only [tryStatement, bind_eq_ok] at h
  obtain ⟨⟨body, m⟩, hbody, ⟨handler, n⟩, hhandler, ⟨finalizer, stop⟩, hfinalizer, ⟨⟩⟩ := h
  have hcovers := covers_of_reads (requiredStatement_reads hbody)
  cases catchClause_clauseAt hhandler with
  | missing hcatch =>
    cases clause_clauseAt hfinalizer with
    | missing hfinally =>
      exact ⟨List.forall_mem_cons.mpr ⟨hcatch, List.forall_mem_singleton.mpr hfinally⟩,
        List.forall_mem_nil _⟩
    | taken hfinally =>
      exact ⟨List.forall_mem_nil _, List.forall_mem_singleton.mpr ⟨_, m, hcovers, hfinally⟩⟩
  | taken hcatch =>
    obtain ⟨c, hclause⟩ := covers_of_catchClause hhandler
    cases clause_clauseAt hfinalizer with
    | missing hfinally =>
      exact ⟨List.forall_mem_singleton.mpr hfinally,
        List.forall_mem_singleton.mpr ⟨_, m, hcovers, hcatch⟩⟩
    | taken hfinally =>
      exact ⟨List.forall_mem_nil _, List.forall_mem_cons.mpr
        ⟨⟨_, m, hcovers, hcatch⟩, List.forall_mem_singleton.mpr ⟨c, n, hclause, hfinally⟩⟩⟩

theorem attached_flow (h : flow stream (statement stream) p = .ok (some (s, q))) :
    Attached stream s q := by
  rcases flow_cases h with h | h | h | h | h
  · exact attached_branch h
  · simp only [whileStatement, bind_eq_ok] at h
    obtain ⟨_, -, _, -, ⟨⟩⟩ := h
    exact ⟨List.forall_mem_nil _, List.forall_mem_nil _⟩
  · exact attached_loop h
  · exact attached_forLoop h
  · exact attached_attempt h

/-- Statements of other kinds have no clauses. -/
theorem attached_of_kind (h : s.kind ∉ flowKinds) : Attached stream s q := by
  constructor
  · cases s <;> simp_all [Stmt.kind, flowKinds, Stmt.openClauses]
  · cases s <;> simp_all [Stmt.kind, flowKinds, Stmt.takenClauses]

/-- Every statement takes the clauses that follow it. -/
theorem attached_of_statement (h : Reads (statement stream) s p q) : Attached stream s q := by
  by_cases hkind : s.kind ∈ flowKinds
  · exact attached_flow (flow_of_statement h hkind)
  · exact attached_of_kind hkind

/-- A span is made up of one run of tokens only. -/
theorem eq_of_covers {span : Span} {p' q' : Nat} (h : (Stream.ofSource source).Covers span p q)
    (h' : (Stream.ofSource source).Covers span p' q') : q = q' := by
  have hle := h.le_size
  have hle' := h'.le_size
  obtain ⟨hlt, first, last, -, hlast, hspan⟩ := h
  obtain ⟨hlt', first', last', -, hlast', hspan'⟩ := h'
  have hstop : last.span.stop = last'.span.stop := by
    simpa using congrArg Span.stop (hspan.symm.trans hspan')
  refine Stream.eq_of_endBefore_eq (by omega) hle (by omega) hle' ?_
  simpa [Stream.endBefore, Stream.previous?_eq (show 0 < q by omega),
    Stream.previous?_eq (show 0 < q' by omega), hlast, hlast'] using hstop

end Grammar

open Grammar

variable {source : Source} {script : Script} {s : Stmt}

/-- A clause belongs to the nearest statement that can take it. In a parsed source, no statement
has the keyword of a clause that it lacks right behind it, and the keyword of a clause that it has
stands right behind the part before the clause. -/
theorem parse_clauses (h : parse source = .ok script)
    (hwithin : (Node.script script).Within (.stmt s)) :
    ∃ p q, (Stream.ofSource source).Covers s.span p q ∧
      (∀ p' q', (Stream.ofSource source).Covers s.span p' q' →
        ∀ keyword ∈ s.openClauses, atKeyword (Stream.ofSource source) q' keyword = false) ∧
      ∀ entry ∈ s.takenClauses, ∃ m n, (Stream.ofSource source).Covers entry.1 m n ∧
        atKeyword (Stream.ofSource source) n entry.2 = true := by
  obtain ⟨p, q, hreads⟩ := exists_reads_of_within h hwithin
  have hcovers := covers_of_reads hreads
  obtain ⟨hopen, htaken⟩ := attached_of_statement hreads
  refine ⟨p, q, hcovers, fun p' q' hcovers' => ?_, htaken⟩
  rwa [← eq_of_covers hcovers hcovers']

/-- A loop with its condition behind it inside of an exception handler, which has no last clause: no
`finally` stands behind the handler, and its `catch` stands right behind the loop. -/
theorem parse_clauses_attempt :
    let source := "try\nloop 2\na\nuntil b\ncatch\nc".toList
    let stream := Stream.ofSource source
    ∃ script s span, parse source = .ok script ∧ script.body = [s] ∧
      s.openClauses = [.finallyWord] ∧ s.takenClauses = [(span, .catchWord)] ∧
      (∃ p q, stream.Covers s.span p q ∧ atKeyword stream q .finallyWord = false) ∧
      ∃ m n, stream.Covers span m n ∧ atKeyword stream n .catchWord = true := by
  intro source stream
  have hparse : (parse source).toOption.map
      (·.body.map fun s => (s.openClauses, s.takenClauses.map (·.2))) =
        some [([.finallyWord], [.catchWord])] := by decide +kernel
  obtain ⟨script, h, hbody⟩ := exists_of_toOption_map hparse
  obtain ⟨s, hs, hclauses⟩ := List.map_eq_singleton_iff.mp hbody
  obtain ⟨hopen, htaken⟩ := Prod.mk.inj hclauses
  obtain ⟨⟨span, keyword⟩, htaken, hkeyword⟩ := List.map_eq_singleton_iff.mp htaken
  cases hkeyword
  have hstmt : Node.ofStmt s = .stmt s := by
    cases s <;> first | rfl | cases hopen
  have hwithin : (Node.script script).Within (.stmt s) :=
    .child .self (by simp [Node.children, hs, hstmt])
  obtain ⟨p, q, hcovers, hlacking, hattached⟩ := parse_clauses h hwithin
  have hfinally := hlacking p q hcovers .finallyWord (by simp [hopen])
  have hcatch := hattached (span, .catchWord) (by simp [htaken])
  exact ⟨script, s, span, h, hs, hopen, htaken, ⟨p, q, hcovers, hfinally⟩, hcatch⟩

end HotkeyScript
