import HotkeyScript.Proofs.Stream.SectionLines

/-!
# A string that a section carries on

A line ends with a quote that opens a string, and the string is closed right behind the closing
parenthesis of the section below. The quote, the section and the closing quote are one token, and
the text of the string is what the options of the section make of its lines, all of them.
-/

namespace HotkeyScript.Stream

open Source (byteLength)
open Text (Unbroken)
open Token (scan tokenize)

variable {head header tail : List Char} {ls : List (List Char)} {first quote : Token}
  {more : List Token}

/-! ## The lines of the section -/

theorem continued_eq_aboveLines (head header : List Char) (ls : List (List Char))
    (tail : List Char) :
    continued head header ls tail =
      (aboveLines head header ++ Text.unlines ls) ++ ')' :: tail := by
  simp [continued, aboveLines]

theorem endsLine_aboveLines_append (head header : List Char) (ls : List (List Char)) :
    Text.EndsLine (aboveLines head header ++ Text.unlines ls) := by
  intro c hc
  obtain rfl | ⟨init, last, rfl⟩ := List.eq_nil_or_concat ls
  · rw [Text.unlines_nil, List.append_nil] at hc
    exact endsLine_aboveLines head header c hc
  · rw [List.concat_eq_append, Text.unlines_append, Text.unlines_cons, Text.unlines_nil,
      ← List.append_assoc, ← List.append_assoc, List.getLast?_concat] at hc
    cases hc
    rfl

theorem start_closing (head header : List Char) (ls : List (List Char)) (tail : List Char) :
    (writtenTokens head header ls tail).closing.span.start =
      byteLength (aboveLines head header ++ Text.unlines ls) := by
  rw [Source.byteLength_append]
  rfl

theorem stop_closing (head header : List Char) (ls : List (List Char)) (tail : List Char) :
    (writtenTokens head header ls tail).closing.span.stop =
      byteLength ((aboveLines head header ++ Text.unlines ls) ++ [')']) := by
  rw [Source.byteLength_append, ← start_closing head header ls tail]
  rfl

/-- The lines that the section has are those that are written. -/
theorem sectionLines_continued (h : Continues head header ls) (tail : List Char) :
    sectionLines (continued head header ls tail) (openingToken head)
      (writtenTokens head header ls tail).closing = ls := by
  have hstart : Source.nextLineStart (continued head header ls tail)
      (openingToken head).span.stop = byteLength (aboveLines head header) := by
    have hafter : Source.lineAfter (continued head header ls tail) (openingToken head).span.stop =
        header := by
      rw [stop_openingToken, continued_eq, Source.lineAfter, Source.dropBytes_byteLength_append,
        List.takeWhile_append_of_pos (fun c hc => by simp [h.options c hc])]
      exact List.append_nil header
    have hend : Source.lineEnd (continued head header ls tail) (openingToken head).span.stop =
        byteLength (head ++ '\n' :: '(' :: header) := by
      rw [Source.lineEnd, hafter, stop_openingToken]
      simp [Nat.add_assoc]
    have hbehind : Source.dropBytes (byteLength (head ++ '\n' :: '(' :: header))
        (continued head header ls tail) = '\n' :: (Text.unlines ls ++ ')' :: tail) := by
      have hsplit : continued head header ls tail =
          (head ++ '\n' :: '(' :: header) ++ '\n' :: (Text.unlines ls ++ ')' :: tail) := by
        simp [continued]
      rw [hsplit, Source.dropBytes_byteLength_append]
    simp only [Source.nextLineStart, hend, hbehind]
    simp [aboveLines, Nat.add_assoc, show '\n'.utf8Size = 1 from rfl]
  have hstop : Source.lineStart (continued head header ls tail)
      (writtenTokens head header ls tail).closing.span.start =
        byteLength (aboveLines head header ++ Text.unlines ls) := by
    have hbefore := Source.lineBefore_before (endsLine_aboveLines_append head header ls)
      (')' :: tail) 0
    rw [Nat.zero_add] at hbefore
    rw [Source.lineStart, start_closing, continued_eq_aboveLines, hbefore, Source.lineBefore,
      Source.takeBytes_zero]
    rfl
  have hslice : Source.slice (continued head header ls tail) (byteLength (aboveLines head header))
      (byteLength (aboveLines head header ++ Text.unlines ls)) = Text.unlines ls := by
    rw [continued_eq_aboveLines, List.append_assoc, Source.byteLength_append, Source.slice_append]
  cases ls with
  | nil => simp [sectionLines, hstart, hstop]
  | cons text ls =>
    have hlt : ¬byteLength (aboveLines head header ++ Text.unlines (text :: ls)) ≤
        byteLength (aboveLines head header) := by
      rw [Source.byteLength_append, Text.unlines_cons, Source.byteLength_append,
        Source.byteLength_cons, show '\n'.utf8Size = 1 from rfl]
      omega
    simp only [sectionLines, hstart, hstop, if_neg hlt, hslice]
    exact Text.lines_dropFinalBreak_unlines (List.cons_ne_nil _ _) h.lines

/-! ## The string -/

/-- The string from the quote to the end of the source. -/
def writtenString (head header : List Char) (ls : List (List Char)) (quote : Token) : Token where
  kind := .string
  text := String.ofList (Source.slice (continued head header ls ['"']) quote.span.start
    (byteLength (continued head header ls ['"'])))
  span := quote.span.to (byteLength (continued head header ls ['"']))
  opensLine := quote.opensLine

/-- The section that carries on the string. -/
def stringSection (head header : List Char) (ls : List (List Char)) : Section :=
  { writtenSection head header ls with
    literal := some (String.ofList ((Section.Options.ofText header).joinLines ls)) }

/-- Below a line that ends with an open quote the section is part of a string. -/
theorem carried_continued_string (h : Continues head header ls) (hhead : Flat head)
    (htokens : tokenize head = first :: more ++ [quote]) (hquote : isOpenQuote quote = true)
    (hstop : quote.span.stop = byteLength head)
    (hfront : ∀ token ∈ first :: more, isOpenQuote token = false) :
    Carried (ofSource (continued head header ls ['"'])) (stringSection head header ls)
      (first :: more) [writtenString head header ls quote] := by
  set source := continued head header ls ['"'] with hsource
  set tokens := writtenTokens head header ls ['"'] with hwritten
  set options := Section.Options.ofText header
  have hread := read_continued h hhead ['"']
  obtain ⟨hitems, hsections⟩ := foldl_emit_tokenize h.above
  simp only at hread
  generalize (tokenize head).foldl (Draft.emit · none ·) {} = draft at *
  rw [htokens] at hitems
  let item : Item := { token := quote, startsLine := false, inSection := none }
  have hitems : draft.items = item :: (lineItems (first :: more)).reverse := by
    simp [hitems, lineItems, item]
  have hopen : openQuote? quote.span.line draft.items =
      some (item, (lineItems (first :: more)).reverse) := by
    have hnone : openQuote? quote.span.line (lineItems (first :: more)).reverse = none := by
      refine openQuote?_eq_none fun item hitem => hfront _ ?_
      simp only [lineItems, List.mem_reverse, List.mem_cons, List.mem_map] at hitem
      rcases hitem with rfl | ⟨token, htoken, rfl⟩
      · exact List.mem_cons_self
      · exact List.mem_cons_of_mem _ htoken
    simp [hitems, openQuote?, item, hnone, hquote]
  have hbehind : Source.dropBytes tokens.closing.span.stop source = ['"'] := by
    rw [hwritten, stop_closing, hsource, continued_eq_aboveLines,
      List.append_cons _ _ ['"'], Source.dropBytes_byteLength_append]
  have hend : tokens.closing.span.stop + byteLength ['"'] = byteLength source := by
    rw [hwritten, stop_closing, ← Source.byteLength_append, hsource, continued_eq_aboveLines,
      List.append_cons _ _ ['"']]
  have hline : Source.lineAfter source item.token.span.stop = [] := by
    change Source.lineAfter source quote.span.stop = []
    rw [hstop, hsource, continued, Source.lineAfter, Source.dropBytes_byteLength_append]
    rfl
  have hlines : sectionLines source (openingToken head) tokens.closing = ls :=
    sectionLines_continued h ['"']
  have hrest : ∀ line column,
      Token.tokenizeLine source (byteLength source) line column = [] := by
    intro line column
    have hnil := Source.dropBytes_byteLength_append source []
    rw [List.append_nil] at hnil
    rw [Token.tokenizeLine, hnil, scan]
  have hafter : tokens.after.dropWhile (·.span.line == tokens.closing.span.line) = [] := by
    refine List.dropWhile_eq_nil_iff.mpr fun token htoken => ?_
    have hunbroken : Unbroken ['"'] := by decide
    rw [(Token.of_mem_scan_line hunbroken htoken).1]
    exact beq_self_eq_true _
  have hstring : (draft.continuedString? source options (openingToken head) tokens).map
      (fun read => (read.1.items, read.1.sections, read.2)) =
        some ({ token := writtenString head header ls quote, startsLine := false,
                inSection := some 0 } :: (lineItems (first :: more)).reverse,
          [stringSection head header ls], []) := by
    simp only [Draft.continuedString?, hitems, List.head?_cons, Option.bind_eq_bind, Option.bind_some]
    rw [← hitems, hopen, Option.bind_some, hbehind, show Token.closingQuote ['"'] = some 1 from rfl,
      Option.bind_some]
    simp only [List.take_succ_cons, List.take_zero, hend, hrest, hafter, hline, hlines, hsections,
      List.foldl_nil, List.dropLast_singleton, List.append_nil, List.nil_append]
    rfl
  obtain ⟨⟨joined, rest⟩, hjoined, hview⟩ := Option.map_eq_some_iff.mp hstring
  simp only [Prod.mk.injEq] at hview
  obtain ⟨hitems', hsections', rfl⟩ := hview
  rw [hjoined, Option.getD_some, Draft.read] at hread
  constructor
  · rw [ofSource, hread, Draft.toStream, hitems', List.reverse_cons, List.reverse_reverse]
    rfl
  · rw [ofSource, hread, Draft.toStream, hsections']
    rfl

end HotkeyScript.Stream
