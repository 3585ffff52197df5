import HotkeyScript.Parse
import HotkeyScript.Proofs.Grammar.Written

/-!
# Statements and the tokens that write them

The pass over the statement grammar: whatever the rules uphold holds of every node of a statement
and the run of tokens that writes it (`statement_written`), and the statements of a body follow each
other without a gap (`body_tiled`).
-/

namespace HotkeyScript.Grammar

open Node (ofExpr ofStmt ofSlots)

variable {stream : Stream} {Q : Node → Nat → Nat → Prop} {p q m : Nat}

/-! ## Bounds -/

theorem Maybe.bounds {α : Type} {R : α → Nat → Nat → Prop} {part : Option α}
    (hR : ∀ a p q, R a p q → p < q ∧ q ≤ stream.size) (h : Maybe R part p q) :
    p ≤ q ∧ (p ≤ stream.size → q ≤ stream.size) := by
  cases h with
  | none => exact ⟨Nat.le_refl p, id⟩
  | some hle ha =>
    have := hR _ _ _ ha
    exact ⟨by omega, fun _ => this.2⟩

theorem IsText.bounds {text : LegacyLiteral} (h : IsText stream text p q) :
    p < q ∧ q ≤ stream.size :=
  ⟨h.1, h.2.1⟩

theorem IsStop.bounds {test : Expr} (h : IsStop stream test p q) : p < q ∧ q ≤ stream.size :=
  expression_advances stream _ _ _ _ h

theorem lt_size_of_isDelimiter (h : isDelimiter stream p = true) : p < stream.size := by
  simp only [isDelimiter, Stream.continuesWith, Bool.and_eq_true] at h
  exact Stream.lt_size_of_continues h.1.1.1

theorem Param.bounds {param : Option Expr} (h : Param stream param p q) :
    p ≤ q ∧ (p ≤ stream.size → q ≤ stream.size) := by
  cases h with
  | empty => exact ⟨Nat.le_refl p, id⟩
  | text htext => exact ⟨Nat.le_of_lt htext.1, fun _ => htext.2.1⟩
  | forced hexpression =>
    have := expression_advances stream _ _ _ _ hexpression
    exact ⟨by omega, fun _ => this.2⟩

theorem Params.bounds {params : List (Option Expr)} (h : Params stream params p q) :
    p ≤ q ∧ (p ≤ stream.size → q ≤ stream.size) := by
  induction h with
  | nil => exact ⟨Nat.le_refl _, id⟩
  | cons hparam hrest ih =>
    have := hparam.bounds
    exact ⟨by omega, fun hp => ih.2 (this.2 hp)⟩
  | delimited hparam hdelimiter hrest ih =>
    have := hparam.bounds
    exact ⟨by omega, fun _ => ih.2 (lt_size_of_isDelimiter hdelimiter)⟩

theorem Arguments.bounds {arguments : List (Option Expr)} (h : Arguments stream arguments p q) :
    p ≤ q ∧ (p ≤ stream.size → q ≤ stream.size) := by
  cases h with
  | none => exact ⟨Nat.le_refl p, id⟩
  | slots hslots => exact hslots.advances (expression_advances stream)
  | params hparams => exact hparams.bounds

/-! ## Parts of statements -/

section Parts

variable (U : Upholds stream Q)

include U

theorem IsKey.written {key : Key} (h : IsKey stream key p q) :
    Written stream Q (.key key) p q := by
  have hQ := U.key h
  cases h with
  | token htoken => exact .intro (Stream.covers_token htoken) hQ (.nil (Nat.le_succ p))
  | numbered htoken hnext htouches =>
    have hcovers := (Stream.covers_token htoken).to (Nat.le_refl _) (Stream.covers_token hnext)
    exact .intro hcovers hQ (.nil (by omega))
  | released htoken hlt =>
    exact .intro (Stream.covers_spanTo htoken (by omega) hlt) hQ (.nil (by omega))

theorem Param.written {param : Option Expr} (h : Param stream param p q) :
    WrittenInOrder stream Q (param.map ofExpr).toList p q := by
  cases h with
  | empty => exact .nil (Nat.le_refl p)
  | text htext => exact (htext.written U).single (Nat.le_refl p) (Nat.le_refl q)
  | forced hexpression =>
    have he := expression_written U _ _ _ _ (Nat.zero_le _) hexpression
    exact he.single (Nat.le_succ p) (Nat.le_refl q)

theorem Params.written {params : List (Option Expr)} (h : Params stream params p q) :
    WrittenInOrder stream Q (ofSlots params) p q := by
  induction h with
  | nil => exact .nil (Nat.le_refl _)
  | cons hparam hrest ih =>
    rw [Node.ofSlots_cons]
    exact (hparam.written U).append ih
  | delimited hparam hdelimiter hrest ih =>
    rw [Node.ofSlots_cons]
    exact (hparam.written U).append (ih.mono (Nat.le_succ _) (Nat.le_refl _))

theorem Arguments.written {arguments : List (Option Expr)}
    (h : Arguments stream arguments p q) : WrittenInOrder stream Q (ofSlots arguments) p q := by
  cases h with
  | none => exact .nil (Nat.le_refl p)
  | slots hslots => exact hslots.written U (expression_written U) (Nat.zero_le p)
  | params hparams => exact hparams.written U

theorem IsTest.written {test : Expr} (h : IsTest stream test p q) :
    Written stream Q (ofExpr test) p q := by
  cases h with
  | @comparison name operator right _ m _ hrule htoken hword hlt htext =>
    have hname := IsName.written U ⟨name, htoken, hword, rfl, rfl⟩
    have htext := htext.written U
    have hcovers := hname.covers.to hlt htext.covers
    exact .intro hcovers (U.comparison hrule)
      (.cons (Nat.le_refl p) hname (htext.single hlt (Nat.le_refl q)))
  | expression hclimbs => exact hclimbs.written U

theorem IsStop.written {test : Expr} (h : IsStop stream test p q) :
    Written stream Q (ofExpr test) p q :=
  expression_written U _ _ _ _ (Nat.zero_le p) h

omit U in
/-- A statement from `p` up to `q` is written there if its parts are. -/
theorem written_stmt {s : Stmt} (hQ : Q (.stmt s) p q)
    (hspan : s.span = stream.spanTo (stream.spanAt p) q) (hlt : p < q) (hle : q ≤ stream.size)
    (hchildren : WrittenInOrder stream Q (Node.stmtChildren s) p q) :
    Written stream Q (.stmt s) p q := by
  refine .intro ?_ hQ hchildren
  rw [show (Node.stmt s).span = s.span from rfl, hspan]
  exact Stream.covers_spanTo_spanAt hlt hle

end Parts

/-! ## Statements -/

section Statements

variable {statement : StmtParser}

/-- All statements that the parser reads are written where they are read. -/
def StatementsWritten (stream : Stream) (Q : Node → Nat → Nat → Prop)
    (statement : StmtParser) : Prop :=
  ∀ s p q, Reads statement s p q → Written stream Q (ofStmt s) p q

variable (h : StatementsWritten stream Q statement)

include h

theorem StatementsWritten.bounds (s : Stmt) (p q : Nat) (hs : Reads statement s p q) :
    p < q ∧ q ≤ stream.size :=
  ⟨(h s p q hs).lt, (h s p q hs).le_size⟩

theorem Body.written {body : List Stmt} (hbody : Body stream statement body p q) :
    WrittenInOrder stream Q (body.map ofStmt) p q := by
  induction hbody with
  | nil => exact .nil (Nat.le_refl _)
  | last hs => exact (h _ _ _ hs).single (Nat.le_refl _) (Nat.le_refl _)
  | cons hs hline hrest ih => exact .cons (Nat.le_refl _) (h _ _ _ hs) ih

theorem Body.tiled {body : List Stmt} (hbody : Body stream statement body p q) :
    Tiled stream (body.map Stmt.span) p q := by
  induction hbody with
  | nil => exact .nil
  | last hs =>
    have hcovers := (h _ _ _ hs).covers
    rw [Node.span_ofStmt] at hcovers
    exact .cons hcovers (fun hne => absurd rfl hne) .nil
  | cons hs hline hrest ih =>
    have hcovers := (h _ _ _ hs).covers
    rw [Node.span_ofStmt] at hcovers
    exact .cons hcovers (fun _ => hline) ih

variable (U : Upholds stream Q)

include U

theorem Braces.written {braces : Block} (hbraces : Braces stream statement braces p q) :
    Written stream Q (.block braces) p q := by
  obtain @⟨body, _, close, hopen, hbody, hclose⟩ := hbraces
  have hinner := hbody.written h
  have hle := hinner.le
  exact .intro (Stream.covers_spanTo_spanAt (by omega) hclose.lt_size)
    (U.block hopen (hbody.tiled h) hclose) (hinner.mono (Nat.le_succ p) (Nat.le_succ close))

theorem IsCatch.written {clause : CatchClause} (hclause : IsCatch stream statement clause p q) :
    Written stream Q (.catchClause clause) p q := by
  cases hclause with
  | bare hsize hbody =>
    have hbody := h _ _ _ hbody
    have hlt := hbody.lt
    exact .intro (Stream.covers_spanTo_spanAt (by omega) hbody.le_size) (U.plain rfl)
      (hbody.single (Nat.le_succ p) (Nat.le_refl q))
  | named hsize htoken hword hbody =>
    have hname := IsName.written U ⟨_, htoken, hword, rfl, rfl⟩
    have hbody := h _ _ _ hbody
    have hlt := hbody.lt
    exact .intro (Stream.covers_spanTo_spanAt (by omega) hbody.le_size) (U.plain rfl)
      (.cons (Nat.le_succ p) hname (hbody.single (Nat.le_refl _) (Nat.le_refl q)))

theorem function_written {name : Identifier} {params : List (Option Expr)} {span : Span}
    {braces : Block} {m : Nat}
    (hcall : expression stream .any p = .ok (some (.call (.identifier name) params span, m)))
    (hbraces : Braces stream statement braces m q) :
    Written stream Q (.stmt (.function name params braces (name.span.to braces.span.stop)))
      p q := by
  -- the call ends with its arguments, and its name starts where the call starts
  obtain ⟨hclimbs, -⟩ := expression_climbs hcall
  cases hclimbs with
  | start hprimary => cases hprimary
  | @step _ _ open_ _ hname hcontinues hstep =>
    cases hstep with
    | @call _ close hopen htouches hlist hclose =>
      have hname := hname.written U
      have hparams := list_written U (expression_written U) (Nat.zero_le _) hlist
      have hbraces := hbraces.written h U
      have hlt := hname.lt
      have hle := hparams.le
      exact .intro (hname.covers.to (by omega) hbraces.covers) (U.plain rfl)
        (.cons (Nat.le_refl p) hname
          ((hparams.mono (Nat.le_succ _) (Nat.le_succ close)).append
            (hbraces.single (Nat.le_refl _) (Nat.le_refl q))))

theorem Rule.written {s : Stmt} (hrule : Rule stream statement p s q) :
    Written stream Q (ofStmt s) p q := by
  have hreads := h.bounds
  cases hrule with
  | @hotstring _ _ _ _ first colons m _ hcolon hlt htrigger hsize hreplacement haction =>
    have hlt' := htrigger.bounds
    have hm := hreplacement.bounds fun _ _ _ => IsText.bounds
    have hq := haction.bounds hreads
    have hreplacement := hreplacement.written .legacyLiteral fun _ _ _ => (·.written U)
    exact written_stmt (U.plain rfl) rfl (by omega) (hq.2 (hm.2 (by omega)))
      (.cons (Nat.le_of_lt hlt) (htrigger.written U)
        ((hreplacement.mono (by omega) (Nat.le_refl m)).append (haction.written ofStmt h)))
  | @hotkey _ _ _ _ m n n' colons _ htrigger hle hfirst hle' hsecond hsize haction =>
    have hsecond := hsecond.written U
    have hlt := hsecond.lt
    have hq := haction.bounds hreads
    have hfirst := hfirst.written .key fun _ _ _ => (·.written U)
    have hle'' := hfirst.le
    exact written_stmt (U.hotkey htrigger) rfl (by omega) (hq.2 (by omega))
      ((hfirst.mono hle hle').append (.cons (Nat.le_refl n') hsecond
        ((haction.written ofStmt h).mono (by omega) (Nat.le_refl q))))
  | label hlt hsize => exact written_stmt (U.plain rfl) rfl (by omega) hsize (.nil (by omega))
  | block hbraces => exact hbraces.written h U
  | @branch _ _ _ m n _ hsize htest hconsequent halternate =>
    have htest := htest.written U
    have hconsequent := h _ _ _ hconsequent
    have hlt := htest.lt
    have hlt' := hconsequent.lt
    have hq := halternate.bounds hreads
    exact written_stmt (U.plain rfl) rfl (by omega) (hq.2 hconsequent.le_size)
      (.cons (Nat.le_succ p) htest (.cons (Nat.le_refl m) hconsequent (halternate.written ofStmt h)))
  | @whileLoop _ _ m _ hsize htest hbody =>
    have htest := htest.written U
    have hbody := h _ _ _ hbody
    have hlt := htest.lt
    have hlt' := hbody.lt
    exact written_stmt (U.plain rfl) rfl (by omega) hbody.le_size
      (.cons (Nat.le_succ p) htest (hbody.single (Nat.le_refl m) (Nat.le_refl q)))
  | @loop _ _ _ _ first m n _ hlt hsize harguments hbody hstop =>
    have hm := harguments.bounds
    have hbody := h _ _ _ hbody
    have hlt' := hbody.lt
    have hq := hstop.bounds fun _ _ _ => IsStop.bounds
    exact written_stmt (U.plain rfl) rfl (by omega) (hq.2 hbody.le_size)
      (((harguments.written U).mono (Nat.le_of_lt hlt) (Nat.le_refl m)).append
        (.cons (Nat.le_refl m) hbody (hstop.written ofExpr fun _ _ _ => (·.written U))))
  | @forLoop _ _ _ _ _ k l m n _ hsize hname hvalue hiterable hbody hstop =>
    have hname := hname.written U
    have hlt := hname.lt
    have hvalue := hvalue.written .identifier fun _ _ _ => (·.written U)
    have hle := hvalue.le
    have hiterable := expression_written U _ _ _ _ (Nat.zero_le _) hiterable
    have hlt' := hiterable.lt
    have hbody := h _ _ _ hbody
    have hlt'' := hbody.lt
    have hq := hstop.bounds fun _ _ _ => IsStop.bounds
    have hrest := WrittenInOrder.cons (Nat.le_refl m) hbody
      (hstop.written ofExpr fun _ _ _ => (·.written U))
    exact written_stmt (U.plain rfl) rfl (by omega) (hq.2 hbody.le_size)
      (.cons (Nat.le_succ p) hname (hvalue.append (.cons (Nat.le_succ l) hiterable hrest)))
  | @attempt _ _ _ m n _ hsize hbody hhandler hfinalizer =>
    have hbody := h _ _ _ hbody
    have hlt := hbody.lt
    have hcatch : ∀ clause p q, IsCatch stream statement clause p q →
        Written stream Q (.catchClause clause) p q := fun _ _ _ => (·.written h U)
    have hn := hhandler.bounds fun clause p q hclause =>
      ⟨(hcatch clause p q hclause).lt, (hcatch clause p q hclause).le_size⟩
    have hq := hfinalizer.bounds hreads
    exact written_stmt (U.plain rfl) rfl (by omega) (hq.2 (hn.2 hbody.le_size))
      (.cons (Nat.le_succ p) hbody
        ((hhandler.written .catchClause hcatch).append (hfinalizer.written ofStmt h)))
  | @command _ _ _ head m _ hrule hle htoken hword hlt hsize harguments =>
    have hname := IsName.written U ⟨_, htoken, hword, rfl, rfl⟩
    have hq := harguments.bounds
    exact written_stmt (U.command hrule) rfl (by omega) (hq.2 hsize)
      (.cons hle hname ((harguments.written U).mono hlt (Nat.le_refl q)))
  | assignment hrule htoken hword hsize hright =>
    have hname := IsName.written U ⟨_, htoken, hword, rfl, rfl⟩
    have hq := hright.bounds fun _ _ _ => IsText.bounds
    have hright := hright.written .legacyLiteral fun _ _ _ => (·.written U)
    exact .intro (Stream.covers_spanTo htoken (by omega) (hq.2 hsize)) (U.assignment hrule)
      (.cons (Nat.le_refl p) hname (hright.mono (Nat.le_succ _) (Nat.le_refl q)))
  | expression hexpression => exact expression_written U _ _ _ _ (Nat.zero_le p) hexpression
  | function hcall hbraces => exact function_written h U hcall hbraces

end Statements

/-- Every statement is written where it is read. -/
theorem statement_written (U : Upholds stream Q) :
    StatementsWritten stream Q (statement stream) := by
  intro s p q hs
  exact statement_induction (P := fun s p q => Written stream Q (ofStmt s) p q)
    (fun _ h _ _ _ hrule => hrule.written h U) hs

/-! ## Scripts -/

variable {source : Source} {script : Script}

/-- The body of a script is read from all the tokens of the source. -/
theorem parse_reads (h : parse source = .ok script) :
    ∃ stop, (Stream.ofSource source).size ≤ stop ∧
      Body (Stream.ofSource source) (statement (Stream.ofSource source)) script.body 0 stop ∧
      script.span = scriptSpan source script.body := by
  simp only [parse, bind_eq_ok] at h
  obtain ⟨⟨body, stop⟩, hbody, h⟩ := h
  simp only at h
  split at h
  · cases h
  · next hstop =>
    cases h
    exact ⟨stop, Nat.le_of_not_lt hstop, bodyWithin_reads hbody, rfl⟩

/-- The expression of a source is read from all its tokens. -/
theorem parseExpression_reads {e : Expr} (h : parseExpression source = .ok (some e)) :
    expression (Stream.ofSource source) .any 0 = .ok (some (e, (Stream.ofSource source).size)) := by
  simp only [parseExpression, bind_eq_ok] at h
  obtain ⟨_ | ⟨root, stop⟩, hexpression, h⟩ := h
  · simp only at h
    split at h <;> cases h
  · simp only at h
    split at h
    · cases h
    · next hstop =>
      cases h
      have hadv := expression_advances _ _ _ _ _ hexpression
      rw [hexpression, show stop = (Stream.ofSource source).size by omega]

/-- The statements of a script are written by the tokens of the source, and leave none out. -/
theorem parse_written (U : Upholds (Stream.ofSource source) Q) (h : parse source = .ok script) :
    WrittenInOrder (Stream.ofSource source) Q (Node.script script).children 0
        (Stream.ofSource source).size ∧
      Tiled (Stream.ofSource source) (script.body.map Stmt.span) 0
        (Stream.ofSource source).size := by
  obtain ⟨stop, hsize, hbody, -⟩ := parse_reads h
  have hwritten := hbody.written (statement_written U)
  have htiled := hbody.tiled (statement_written U)
  have hstop : stop = (Stream.ofSource source).size :=
    Nat.le_antisymm (htiled.le_size (Nat.zero_le _)) hsize
  rw [hstop] at hwritten htiled
  exact ⟨hwritten, htiled⟩

/-- A script reaches from the first token of the source to the last. -/
theorem scriptSpan_eq {body : List Stmt} {stream : Stream}
    (h : Tiled stream (body.map Stmt.span) 0 stream.size) :
    scriptSpan source body =
      if stream.size = 0 then { start := 0, stop := Source.byteLength source }
      else { start := (stream.spanAt 0).start, stop := (stream.spanAt (stream.size - 1)).stop } := by
  have hnil := h.eq_nil_iff
  cases body with
  | nil =>
    have hsize : stream.size = 0 := (hnil.mp rfl).symm
    simp [hsize, scriptSpan]
  | cons s body =>
    have hsize : stream.size ≠ 0 := by
      intro hzero
      exact absurd (hnil.mpr hzero.symm) (by simp)
    obtain ⟨last, hlast⟩ : ∃ last, (s :: body).getLast? = some last :=
      ⟨_, List.getLast?_eq_some_getLast (by simp)⟩
    have hspan : ((s :: body).map Stmt.span).getLast? = some last.span := by
      rw [List.getLast?_map, hlast]
      rfl
    have hstop := h.getLast hspan
    rw [if_neg hsize, ← h.head, ← hstop]
    simp [scriptSpan, hlast]

end HotkeyScript.Grammar
