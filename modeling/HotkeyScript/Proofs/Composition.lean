import HotkeyScript.Proofs.Grammar.Window.Statement
import HotkeyScript.Proofs.Stream.Sections
import HotkeyScript.Proofs.Stream.Stacked

/-!
# Scripts behind each other

Two scripts with a line break between them make up one script: its statements are those of the first
and then those of the second, at their later places. Neither the lexer, which ends a token with its
line, nor the pass over the tokens, nor any rule of the grammar looks over the edge between them.

What could join the two is excluded by name. A carriage return at the end of the first text would be
one break with the line feed; a comment could be left open; a comma or a star at the end could
ask for more. The second text starts with a word that carries no statement on, and closes no section
that was opened above it.

## Main definitions

* `Stream.Composable` — two sources that can stand behind each other.
-/

namespace HotkeyScript

namespace Stream

open Source (byteLength)
open Text (lineBreaks)

/-- The second source can stand on the lines below the first. -/
structure Composable (a b : Source) : Prop where
  /-- The line break behind the first source is one of its own. -/
  feed : a.getLast? ≠ some '\r'
  /-- No block comment of the first source is left open. -/
  ended : ∀ comment ∈ (ofSource a).comments, Ended comment
  /-- The last token of the first source is neither a comma nor a star. -/
  last : ∀ token ∈ (ofSource a).tokens.getLast?, token.text ≠ "," ∧ token.text ≠ "*"
  /-- A byte order mark stands at the start of a text only. -/
  mark : b.head? ≠ some Source.byteOrderMark
  /-- The second source starts with a word that carries no statement on. -/
  word : ∃ token ∈ (Token.tokenize b).head?, token.kind = .word ∧ Keyword.isClause token = false
  /-- No line of the second source starts with a closing parenthesis. -/
  unclosed : ∀ token ∈ Token.tokenize b, closesSection token = false

namespace Composable

variable {a b : Source} (h : Composable a b)
include h

theorem stacked : Stacked a b where
  feed := h.feed
  ended := h.ended
  mark := h.mark
  apart _ _ _ := h.unclosed
  unclosed token htoken := h.unclosed token (List.mem_of_mem_tail htoken)

theorem size : (ofSource (a ++ '\n' :: b)).size = (ofSource a).size + (ofSource b).size :=
  h.stacked.size

/-- The first item of the second source is its first token. -/
theorem first : ∃ item, (ofSource b).items[0]? = some item ∧ item.token.kind = .word ∧
    Keyword.isClause item.token = false ∧ item.token.WellKinded := by
  obtain ⟨token, htoken, hkind, hclause⟩ := h.word
  obtain ⟨rest, htokens⟩ := List.head?_eq_some_iff.mp htoken
  have hkinded : token.WellKinded :=
    (placed_tokenize b token (List.mem_of_mem_head? htoken)).kinded
  have htext : ∀ text : String, text.toList.any (!Token.isWordChar ·) = true →
      (token.text == text) = false := by
    intro text htext
    rw [beq_eq_false_iff_ne]
    rintro rfl
    obtain ⟨c, hc, hchar⟩ := List.any_eq_true.mp htext
    simp [hkinded.word hkind c hc] at hchar
  -- a word is neither a slash nor a parenthesis, so the first step keeps it
  have hnext : Draft.next b {} token rest = (Draft.emit {} none token, rest) := by
    have hslash : opensBlockComment token rest = false := by
      cases rest with
      | nil => rfl
      | cons next rest => simp [opensBlockComment, htext "/" (by decide)]
    simp [Draft.next, hslash, hkind, htext "(" (by decide)]
  have hunclosed : ∀ other ∈ rest.tail, closesSection other = false := by
    intro other hother
    refine h.unclosed other ?_
    rw [htokens]
    exact List.mem_cons_of_mem _ (List.mem_of_mem_tail hother)
  obtain ⟨newer, hnewer⟩ := grows_read hunclosed b (Draft.emit {} none token)
  refine ⟨{ token, startsLine := true, inSection := none }, ?_, hkind, hclause, hkinded⟩
  simp only [ofSource, Draft.toStream, htokens, Draft.read_cons, hnext, hnewer.items]
  simp [Draft.emit]

theorem wordEdge {item : Item}
    (hitem : (ofSource (a ++ '\n' :: b)).items[(ofSource a).size]? = some item) :
    WordEdge (ofSource a) item := by
  obtain ⟨first, hfirst, hkind, hclause, hkinded⟩ := h.first
  have hright := h.stacked.item_right 0
  rw [Nat.add_zero, hitem, hfirst, Option.map_some, Option.some.injEq] at hright
  subst hright
  have hlast : ∀ text, (∀ token ∈ (ofSource a).tokens.getLast?, token.text ≠ text) →
      (ofSource a).reads ((ofSource a).size - 1) text = false := by
    intro text htext
    rw [Bool.eq_false_iff]
    intro hreads
    obtain ⟨last, hlast, rfl⟩ := reads_iff.mp hreads
    refine htext last ?_ rfl
    simpa [tokens, List.getLast?_eq_getElem?, token?, Stream.size] using hlast
  refine ⟨hkind, hkinded.word hkind, ?_, hclause, ?_, ?_⟩
  · intro hoperator
    cases hkind.symm.trans (hkinded.operator hoperator)
  · exact hlast "," fun token htoken => (h.last token htoken).1
  · exact hlast "*" fun token htoken => (h.last token htoken).2

/-- A word carries no line on. -/
theorem ends : (ofSource (a ++ '\n' :: b)).continues (ofSource a).size = false := by
  cases hitem : (ofSource (a ++ '\n' :: b)).items[(ofSource a).size]? with
  | none => simp [continues, hitem]
  | some item =>
    have hedge := h.stacked.edge hitem
    simp [continues, hitem, hedge.startsLine, hedge.outside, isContinuationOperator,
      (h.wordEdge hitem).word]

/-- The first source is a window at the start. -/
theorem window_left : ClosedWindow (ofSource a) (ofSource (a ++ '\n' :: b)) 0 0 [] ('\n' :: b) where
  toWindow := h.stacked.window_left h.ends
  closed item hitem := h.wordEdge (by rwa [Nat.zero_add] at hitem)

/-- The second source is a window behind it. -/
theorem window_right : ClosedWindow (ofSource b) (ofSource (a ++ '\n' :: b)) (ofSource a).size
    (lineBreaks a + 1) (a ++ ['\n']) [] :=
  h.stacked.window_right

end Composable

end Stream

open Source (byteLength)
open Text (lineBreaks)

variable {a b source : Source} {script scriptA scriptB : Script}

namespace Grammar

/-- A script is the statements of its source, with no token left. -/
theorem body_of_parse (h : parse source = .ok script) :
    body (Stream.ofSource source) (statement (Stream.ofSource source)) 0 =
      .ok (script.body, (Stream.ofSource source).size) := by
  simp only [parse, bind_eq_ok] at h
  obtain ⟨⟨statements, stop⟩, hbody, h⟩ := h
  simp only at h
  split at h
  · cases h
  · next hstop =>
    cases h
    have hbounds := (bodyWithin_reads hbody).bounds (statement_advances _) (Nat.zero_le _)
    rw [hbody, show stop = (Stream.ofSource source).size by omega]

theorem exists_parse_of_body {statements : List Stmt}
    (h : body (Stream.ofSource source) (statement (Stream.ofSource source)) 0 =
      .ok (statements, (Stream.ofSource source).size)) :
    ∃ script, parse source = .ok script ∧ script.body = statements := by
  simp only [parse, h]
  refine ⟨_, if_neg (Nat.lt_irrefl _), rfl⟩

/-- A script of one statement is that statement from the first token to the last. -/
theorem statement_of_parse {s : Stmt} (h : parse source = .ok script)
    (hbody : script.body = [s]) :
    statement (Stream.ofSource source) 0 = .ok (some (s, (Stream.ofSource source).size)) := by
  have hs := body_of_parse h
  rw [hbody, body_eq_cons_iff] at hs
  obtain ⟨next, hs, hrest⟩ := hs
  split at hrest
  · rw [eq_of_body_nil hrest, hs]
  · rw [hrest.2, hs]

/-- A statement that takes all tokens is the script. -/
theorem exists_parse_of_statement {s : Stmt}
    (h : statement (Stream.ofSource source) 0 =
      .ok (some (s, (Stream.ofSource source).size))) :
    ∃ script, parse source = .ok script ∧ script.body = [s] := by
  refine exists_parse_of_body (body_eq_cons_iff.mpr ⟨_, h, ?_⟩)
  rw [if_pos (Stream.startsLine_of_size_le (Nat.le_refl _))]
  exact (lacking_of_size_le (Nat.le_refl _)).dangling.body

end Grammar

/-- Two scripts with a line break between them are one script: the statements of the first, and
behind them those of the second, further on by the bytes and the lines of the first. -/
theorem parse_append (ha : parse a = .ok scriptA) (hb : parse b = .ok scriptB)
    (h : Stream.Composable a b) :
    ∃ script, parse (a ++ '\n' :: b) = .ok script ∧
      script.body = scriptA.body ++
        scriptB.body.map (Stmt.mapSpan (Span.shift (byteLength a + 1) (lineBreaks a + 1))) := by
  have hend : Grammar.body (Stream.ofSource (a ++ '\n' :: b))
      (Grammar.statement (Stream.ofSource (a ++ '\n' :: b)))
      ((Stream.ofSource a).size + (Stream.ofSource b).size) =
      .ok ([], (Stream.ofSource (a ++ '\n' :: b)).size) := by
    rw [← h.size]
    exact (Grammar.lacking_of_size_le (Nat.le_refl _)).dangling.body
  -- from the end backwards: the second window before nothing, the first before the second
  have hright := Grammar.body_append h.window_right (Nat.zero_le _) (Grammar.body_of_parse hb) hend
  have hleft := Grammar.body_append h.window_left (Nat.zero_le _) (Grammar.body_of_parse ha)
    (by rw [Nat.zero_add]; exact hright)
  obtain ⟨script, hparse, hbody⟩ := Grammar.exists_parse_of_body hleft
  refine ⟨script, hparse, ?_⟩
  have hstay : h.window_left.move = id := rfl
  have hmove : h.window_right.move = Span.shift (byteLength a + 1) (lineBreaks a + 1) := by
    rw [Stream.Window.move, Source.byteLength_append]
    rfl
  rw [hbody, hstay, hmove, List.map_id'' Stmt.mapSpan_id, List.append_nil]

/-- A branch whose command ends in a string that a section carries on, and a hotkey below. -/
theorem parse_append_section :
    let a := "/* c */ if x\n  y := \"p\n(\nq\n)\" ; d".toList
    let b := "F1::z := \"é\"\nwhile z\n  z--".toList
    Stream.Composable a b ∧
      ∃ scriptA scriptB script, parse a = .ok scriptA ∧ parse b = .ok scriptB ∧
      parse (a ++ '\n' :: b) = .ok script ∧ scriptA.body.length = 1 ∧ scriptB.body.length = 2 ∧
      script.body = scriptA.body ++ scriptB.body.map (Stmt.mapSpan (Span.shift 34 5)) := by
  intro a b
  have hcomposable : Stream.Composable a b :=
    { feed := by decide +kernel
      ended := by decide +kernel
      last := by decide +kernel
      mark := by decide +kernel
      word := by decide +kernel
      unclosed := by decide +kernel }
  have ha : (parse a).toOption.map (·.body.length) = some 1 := by decide +kernel
  have hb : (parse b).toOption.map (·.body.length) = some 2 := by decide +kernel
  obtain ⟨scriptA, ha, hlengthA⟩ := Grammar.exists_of_toOption_map ha
  obtain ⟨scriptB, hb, hlengthB⟩ := Grammar.exists_of_toOption_map hb
  obtain ⟨script, hscript, hbody⟩ := parse_append ha hb hcomposable
  have hbytes : byteLength a + 1 = 34 := by decide +kernel
  have hlines : lineBreaks a + 1 = 5 := by decide +kernel
  rw [hbytes, hlines] at hbody
  exact ⟨hcomposable, scriptA, scriptB, script, ha, hb, hscript, hlengthA, hlengthB, hbody⟩

end HotkeyScript
