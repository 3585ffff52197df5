import HotkeyScript.Proofs.Stream.OneLine
import HotkeyScript.Proofs.Token.Row

/-!
# A line with a section below it

A source is written from a line, the options of a continuation section, and the lines of the
section. The lexer reads it line by line, so the section is found where it was written, with the
options that were written, whatever the tokens of its lines are.

## Main definitions

* `Stream.continued` — a line with a section below it.
* `Stream.Continues` — what the parts must not have for the section to be found.
* `Stream.Carried` — the tokens of a stream are those of a line and of one section.
-/

namespace HotkeyScript.Stream

open Source (byteLength)
open Text (Unbroken)
open Token (Place scan rows tokenize)

variable {head header tail : List Char} {ls : List (List Char)} {source : Source} {draft : Draft}
  {token : Token} {tokens rest : List Token}

/-! ## The source -/

/-- A line with a continuation section below it, and what follows the closing parenthesis. -/
def continued (head header : List Char) (ls : List (List Char)) (tail : List Char) : Source :=
  head ++ '\n' :: '(' :: (header ++ '\n' :: (Text.unlines ls ++ ')' :: tail))

/-- The place of the opening parenthesis. -/
def openingPlace (head : List Char) : Place :=
  .atLine (byteLength head + 1) 1

/-- The source up to the lines of the section. -/
def aboveLines (head header : List Char) : List Char :=
  head ++ '\n' :: '(' :: (header ++ ['\n'])

theorem endsLine_aboveLines (head header : List Char) : Text.EndsLine (aboveLines head header) := by
  intro c hc
  rw [aboveLines, ← List.cons_append, ← List.cons_append, ← List.append_assoc,
    List.getLast?_concat] at hc
  cases hc
  rfl

/-- The place at the start of the lines of the section. -/
def linesPlace (head header : List Char) : Place :=
  .atLine (byteLength (aboveLines head header)) 2

/-- The place of the closing parenthesis. -/
def closingPlace (head header : List Char) (ls : List (List Char)) : Place :=
  .atLine ((linesPlace head header).offset + byteLength (Text.unlines ls)) (2 + ls.length)

/-- The opening parenthesis. -/
def openingToken (head : List Char) : Token :=
  (openingPlace head).token .symbol ['(']

/-- The tokens behind the opening parenthesis. -/
def writtenTokens (head header : List Char) (ls : List (List Char)) (tail : List Char) :
    SectionTokens where
  header := scan false ((openingPlace head).afterToken ['(']) header
  inner := rows (linesPlace head header).offset 2 ls
  closing := (closingPlace head header ls).token .symbol [')']
  after := scan false ((closingPlace head header ls).afterToken [')']) tail

/-- The tokens of the line are read one after the other: none is a comment or opens one, and none
opens a section. -/
structure Flat (head : List Char) : Prop where
  kind : ∀ token ∈ tokenize head, token.kind ≠ .comment
  opens : ∀ token ∈ tokenize head, token.opensLine = true → token.text ≠ "/" ∧ token.text ≠ "("

/-- The options are on one line without a comment and without a parenthesis that closes the section,
and no line of the section starts with one. -/
structure Continues (head header : List Char) (ls : List (List Char)) : Prop where
  above : Unbroken head
  options : Unbroken header
  uncommented : ';' ∉ header
  unclosed : ')' ∉ header
  lines : ∀ text ∈ ls, Unbroken text
  inside : ∀ text ∈ ls, (Text.trimStart text).head? ≠ some ')'

/-! ## The tokens -/

theorem scan_parenthesis {c : Char} (hc : c = '(' ∨ c = ')') (place : Place) (cs : List Char) :
    scan false place (c :: cs) =
      place.token .symbol [c] :: scan false (place.afterToken [c]) cs := by
  have hlexeme : Token.lexeme place.before place.fresh (c :: cs) = (.symbol, 1) := by
    have hnumber : Token.numberLength (c :: cs) = 0 :=
      Token.numberLength_eq_zero (by rcases hc with rfl | rfl <;> decide) cs
    have hword : Token.wordLength (c :: cs) = 0 := by rcases hc with rfl | rfl <;> rfl
    have hcomment : Token.commentLength (c :: cs) = 0 := by rcases hc with rfl | rfl <;> rfl
    have hoperator : Token.operatorLength (c :: cs) = 0 := by rcases hc with rfl | rfl <;> rfl
    have hstring : Token.stringLength (c :: cs) = 0 := by rcases hc with rfl | rfl <;> rfl
    simp only [Token.lexeme, hnumber, hword, hcomment, hoperator, hstring, bne_self_eq_false,
      Bool.and_false, Bool.false_eq_true, if_false]
  exact Token.scan_lexeme hlexeme (by rcases hc with rfl | rfl <;> decide)
    (by rcases hc with rfl | rfl <;> decide)

theorem tokenize_continued (h : Continues head header ls) (tail : List Char) :
    tokenize (continued head header ls tail) = tokenize head ++ openingToken head ::
      ((writtenTokens head header ls tail).header ++ ((writtenTokens head header ls tail).inner ++
        (writtenTokens head header ls tail).closing ::
          (writtenTokens head header ls tail).after)) := by
  have hbelow : ∀ rest, tokenize (head ++ '\n' :: rest) =
      tokenize head ++ scan false (openingPlace head) rest := by
    intro rest
    have hcut : head.getLast? = some '\r' → ('\n' :: rest).head? ≠ some '\n' :=
      fun hlast => absurd hlast (Token.getLast?_ne_of_unbroken h.above)
    rw [Token.tokenize_append_scan head (Token.stopsLine_cons rfl rest) hcut]
    have hbreak := Token.scan_append_break (Place.past {} head)
      (show Unbroken [] from List.forall_mem_nil _) rest
    simpa [scan, Place.past, openingPlace, Text.lineBreaks_eq_zero_iff.mpr h.above] using hbreak
  have hlines : (Place.atLine (((openingPlace head).afterToken ['(']).offset + byteLength header + 1)
      (((openingPlace head).afterToken ['(']).line + 1)) = linesPlace head header := by
    simp only [openingPlace, linesPlace, aboveLines, Place.atLine, Place.afterToken,
      Source.byteLength_append, Source.byteLength_cons, Source.byteLength_nil,
      show '('.utf8Size = 1 from rfl, show '\n'.utf8Size = 1 from rfl, Place.mk.injEq, and_true]
    omega
  rw [continued, hbelow, scan_parenthesis (.inl rfl), Token.scan_append_break _ h.options, hlines,
    linesPlace, Token.scan_unlines h.lines, scan_parenthesis (.inr rfl)]
  rfl

theorem of_mem_header (h : Continues head header ls)
    (htoken : token ∈ (writtenTokens head header ls tail).header) :
    token.span.line = 1 ∧ token.kind ≠ .comment ∧ token.text ≠ ")" := by
  obtain ⟨hsubset, hcomment⟩ := Token.subset_of_mem_scan htoken
  refine ⟨(Token.of_mem_scan_line h.options htoken).1, fun hkind => h.uncommented (hcomment hkind),
    fun htext => h.unclosed (hsubset ?_)⟩
  rw [htext]
  decide

theorem of_mem_inner (h : Continues head header ls)
    (htoken : token ∈ (writtenTokens head header ls tail).inner) :
    2 ≤ token.span.line ∧ closesSection token = false := by
  obtain ⟨hline, text, htext, hopens, -⟩ := Token.of_mem_rows h.lines htoken
  refine ⟨hline, Bool.eq_false_iff.mpr fun hcloses => ?_⟩
  simp only [closesSection, Bool.and_eq_true, beq_iff_eq] at hcloses
  have hhead := hopens hcloses.1
  rw [hcloses.2] at hhead
  exact h.inside text htext hhead.symm

/-- A list is cut where a property stops to hold. -/
theorem takeWhile_dropWhile_append {p : Token → Bool} (htokens : ∀ token ∈ tokens, p token = true)
    (hrest : ∀ token ∈ rest.head?, p token = false) :
    (tokens ++ rest).takeWhile p = tokens ∧ (tokens ++ rest).dropWhile p = rest := by
  rw [List.takeWhile_append_of_pos htokens, List.dropWhile_append_of_pos htokens]
  cases rest with
  | nil => simp
  | cons token rest => simp [hrest token rfl]

/-- The section is found where it is written. -/
theorem sectionTokens?_continued (h : Continues head header ls) (tail : List Char) :
    sectionTokens? (openingToken head)
        ((writtenTokens head header ls tail).header ++ ((writtenTokens head header ls tail).inner ++
          (writtenTokens head header ls tail).closing ::
            (writtenTokens head header ls tail).after)) =
      some (writtenTokens head header ls tail) := by
  have hheader := fun token htoken => @of_mem_header _ _ tail _ token h htoken
  have hinner := fun token htoken => @of_mem_inner _ _ tail _ token h htoken
  have hclosing : closesSection (writtenTokens head header ls tail).closing = true := rfl
  have hline : 2 ≤ (writtenTokens head header ls tail).closing.span.line := Nat.le_add_right _ _
  generalize writtenTokens head header ls tail = written at *
  have hstops : ∀ token ∈ (written.inner ++ written.closing :: written.after).head?,
      (token.span.line == (openingToken head).span.line) = false := by
    intro token htoken
    have hle : 2 ≤ token.span.line := by
      cases hinside : written.inner with
      | nil =>
        rw [hinside] at htoken
        cases htoken
        exact hline
      | cons first more =>
        rw [hinside] at htoken
        cases htoken
        exact (hinner _ (by rw [hinside]; exact List.mem_cons_self)).1
    refine beq_eq_false_iff_ne.mpr fun heq => ?_
    have : token.span.line = 1 := heq
    omega
  obtain ⟨htake, hdrop⟩ := takeWhile_dropWhile_append
    (p := (·.span.line == (openingToken head).span.line))
    (fun token htoken => beq_iff_eq.mpr (hheader token htoken).1) hstops
  obtain ⟨htake', hdrop'⟩ := takeWhile_dropWhile_append (p := (!closesSection ·))
    (fun token (htoken : token ∈ written.inner) => by simp [(hinner token htoken).2])
    (fun token (htoken : token ∈ (written.closing :: written.after).head?) => by
      cases htoken
      simp [hclosing])
  have hany : (written.header.any fun token => token.kind != .comment && token.text == ")") =
      false :=
    List.any_eq_false.mpr fun token htoken => by simp [(hheader token htoken).2.2]
  simp only [sectionTokens?, htake, hdrop, htake', hdrop', hany, Bool.false_eq_true, if_false]

/-! ## The options -/

theorem stop_openingToken (head : List Char) :
    (openingToken head).span.stop = byteLength (head ++ ['\n', '(']) := by
  simp [openingToken, openingPlace, Place.token, Place.atLine, show '\n'.utf8Size = 1 from rfl,
    Nat.add_assoc]

theorem continued_eq (head header : List Char) (ls : List (List Char)) (tail : List Char) :
    continued head header ls tail =
      (head ++ ['\n', '(']) ++ (header ++ '\n' :: (Text.unlines ls ++ ')' :: tail)) := by
  simp [continued]

/-- The options that are read are those that are written. -/
theorem ofText_optionsText (h : Continues head header ls) (tail : List Char) :
    Section.Options.ofText (optionsText (continued head header ls tail) (openingToken head)
      (writtenTokens head header ls tail).header) = Section.Options.ofText header := by
  have hrow := Token.scan_row ((openingPlace head).afterToken ['(']) h.options
  have hoffset : ((openingPlace head).afterToken ['(']).offset = byteLength (head ++ ['\n', '(']) :=
    stop_openingToken head
  change Section.Options.ofText (Source.slice _ _
    (((scan false _ header).filter _).getLastD _).span.stop) = _
  rw [hoffset] at hrow
  generalize (scan false ((openingPlace head).afterToken ['(']) header).filter
    (·.kind != .comment) = kept at hrow ⊢
  have hwords : Text.words (Source.slice (continued head header ls tail)
      (openingToken head).span.stop (kept.getLastD (openingToken head)).span.stop) =
        Text.words header := by
    rw [stop_openingToken, continued_eq]
    cases kept with
    | nil =>
      cases hrow with
      | rest hremains hhead =>
        have hblank := hremains.isBlank h.uncommented
        rw [List.getLastD_nil, stop_openingToken, Source.slice, Nat.sub_self, Source.takeBytes_zero,
          ← List.append_nil header, Text.words_blank_append hblank]
    | cons first more =>
      obtain ⟨lead, mid, rest, hframe⟩ := hrow.exists_frame
      have hblank := hframe.remains.isBlank fun hmem => h.uncommented (by simp [hframe.text_eq, hmem])
      have hstop := hframe.stop
      rw [Nat.add_assoc, ← Source.byteLength_append] at hstop
      rw [List.getLastD_cons, hstop, hframe.text_eq, ← List.append_assoc lead,
        List.append_assoc (lead ++ mid), Source.slice_append, Text.words_append_blank hblank]
  rw [Section.Options.ofText, hwords, Section.Options.ofText]

/-! ## The pass over the source -/

/-- Tokens that open neither a section nor a comment are read one after the other. -/
theorem read_outside (hkind : ∀ token ∈ tokens, token.kind ≠ .comment)
    (hopens : ∀ token ∈ tokens, token.opensLine = true → token.text ≠ "/" ∧ token.text ≠ "(") :
    draft.read source (tokens ++ rest) =
      (tokens.foldl (Draft.emit · none ·) draft).read source rest := by
  induction tokens generalizing draft with
  | nil => rfl
  | cons token tokens ih =>
    obtain ⟨htoken, hkind⟩ := List.forall_mem_cons.mp hkind
    obtain ⟨hopen, hopens⟩ := List.forall_mem_cons.mp hopens
    have hnext : draft.next source token (tokens ++ rest) =
        (draft.emit none token, tokens ++ rest) := by
      have hblock : (token.opensLine && opensBlockComment token (tokens ++ rest)) = false := by
        rw [Bool.and_eq_false_imp]
        intro hline
        cases tokens ++ rest with
        | nil => rfl
        | cons next rest => simp [opensBlockComment, (hopen hline).1]
      have hsection : (token.opensLine && token.text == "(") = false := by
        rw [Bool.and_eq_false_imp]
        intro hline
        simp [(hopen hline).2]
      simp only [Draft.next, hblock, hsection, htoken, Bool.false_eq_true, if_false]
    rw [List.cons_append, Draft.read_cons, hnext, List.foldl_cons]
    exact ih hkind hopens

/-- The line above is read, and then the section. -/
theorem read_continued (h : Continues head header ls) (hhead : Flat head) (tail : List Char) :
    let source := continued head header ls tail
    let draft := (tokenize head).foldl (Draft.emit · none ·) {}
    let options := Section.Options.ofText header
    let tokens := writtenTokens head header ls tail
    let read := (draft.continuedString? source options (openingToken head) tokens).getD
      (draft.joinedLines options (openingToken head) tokens)
    Draft.read source {} (tokenize source) = read.1.read source read.2 := by
  intro source draft options tokens read
  have hcontinuation : draft.continuation? source (openingToken head) (tokens.header ++
      (tokens.inner ++ tokens.closing :: tokens.after)) = some read := by
    simp only [Draft.continuation?, sectionTokens?_continued h, tokens, source,
      ofText_optionsText h, Option.bind_eq_bind, Option.bind_some]
    rfl
  rw [tokenize_continued h, read_outside hhead.kind hhead.opens, Draft.read_cons]
  have hnext : draft.next source (openingToken head) (tokens.header ++
      (tokens.inner ++ tokens.closing :: tokens.after)) = read := by
    have htext : (openingToken head).text = "(" := rfl
    have hkind : (openingToken head).kind ≠ .comment := fun hkind => by cases hkind
    have hblock : ∀ rest, opensBlockComment (openingToken head) rest = false := by
      intro rest
      cases rest with
      | nil => rfl
      | cons next rest => simp [opensBlockComment, htext]
    have hopens : ((openingToken head).opensLine && (openingToken head).text == "(") = true := rfl
    rw [Draft.next, hblock, Bool.and_false, if_neg Bool.false_ne_true, if_neg hkind, if_pos hopens,
      hcontinuation, Option.getD_some]
  rw [hnext]

/-- The items of the tokens of a line. -/
def lineItems : List Token → List Item
  | [] => []
  | first :: more =>
    { token := first, startsLine := true, inSection := none } ::
      more.map fun token => { token, startsLine := false, inSection := none }

/-- The line above is read as its tokens. -/
theorem foldl_emit_tokenize (hhead : Unbroken head) :
    ((tokenize head).foldl (Draft.emit · none ·) {}).items = (lineItems (tokenize head)).reverse ∧
      ((tokenize head).foldl (Draft.emit · none ·) {}).sections = [] := by
  have hsections : ∀ (tokens : List Token) (draft : Draft),
      (tokens.foldl (Draft.emit · none ·) draft).sections = draft.sections := by
    intro tokens
    induction tokens with
    | nil => exact fun _ => rfl
    | cons token tokens ih => exact fun draft => ih (draft.emit none token)
  refine ⟨?_, hsections _ _⟩
  have hline : ∀ token ∈ tokenize head, token.span.line = 0 := fun token =>
    line_of_mem_tokenize (Text.lineBreaks_eq_zero_iff.mpr hhead)
  cases htokens : tokenize head with
  | nil => rfl
  | cons first more =>
    rw [htokens] at hline
    obtain ⟨hfirst, hmore⟩ := List.forall_mem_cons.mp hline
    rw [List.foldl_cons, items_foldl_emit hmore (congrArg some hfirst), lineItems, List.reverse_cons]
    rfl

/-- The items of the tokens of a section. -/
def sectionItems (index : Nat) (tokens : List Token) : List Item :=
  tokens.map fun token => { token, startsLine := false, inSection := some index }

theorem items_foldl_sort_inSection (apart : Bool) (index : Nat) (tokens : List Token)
    (draft : Draft) :
    (tokens.foldl (Draft.sort apart (some index)) draft).items =
      (sectionItems index (tokens.filter fun token => !(token.kind = .comment && apart))).reverse ++
        draft.items := by
  induction tokens generalizing draft with
  | nil => rfl
  | cons token tokens ih => grind [sectionItems, Draft.sort, Draft.comment, Draft.emit]

theorem openQuote?_eq_none {line : Nat} {items : List Item}
    (h : ∀ item ∈ items, isOpenQuote item.token = false) : openQuote? line items = none := by
  induction items with
  | nil => rfl
  | cons item items ih =>
    obtain ⟨hitem, hitems⟩ := List.forall_mem_cons.mp h
    simp [openQuote?, ih hitems, hitem]

/-- The section that is written below a line without an open quote. -/
def writtenSection (head header : List Char) (ls : List (List Char)) : Section where
  options := .ofText header
  opening := openingToken head
  closing := (closingPlace head header ls).token .symbol [')']

/-- The tokens of the stream are those of a line and, behind them, those of a section. -/
structure Carried (stream : Stream) (around : Section) (front inner : List Token) : Prop where
  items : stream.items = (lineItems front ++ sectionItems 0 inner).toArray
  sections : stream.sections = #[around]

/-- Below a line without an open quote the tokens of the lines are tokens of the stream. -/
theorem carried_continued (h : Continues head header ls) (hhead : Flat head)
    (hquote : ∀ token ∈ tokenize head, isOpenQuote token = false) :
    Carried (ofSource (continued head header ls [])) (writtenSection head header ls)
      (tokenize head) ((rows (linesPlace head header).offset 2 ls).filter fun token =>
        !(token.kind = .comment && (Section.Options.ofText header).comments)) := by
  have hread := read_continued h hhead []
  obtain ⟨hitems, hsections⟩ := foldl_emit_tokenize h.above
  simp only at hread
  generalize (tokenize head).foldl (Draft.emit · none ·) {} = draft at *
  have hquote' : ∀ item ∈ draft.items, isOpenQuote item.token = false := by
    rw [hitems]
    intro item hitem
    refine hquote _ ?_
    rw [List.mem_reverse] at hitem
    cases htokens : tokenize head with
    | nil => simp [htokens, lineItems] at hitem
    | cons first more =>
      rw [htokens, lineItems] at hitem
      rcases List.mem_cons.mp hitem with rfl | hitem
      · exact List.mem_cons_self
      · obtain ⟨token, htoken, rfl⟩ := List.mem_map.mp hitem
        exact List.mem_cons_of_mem _ htoken
  have hstring : ∀ options, draft.continuedString? (continued head header ls []) options
      (openingToken head) (writtenTokens head header ls []) = none := by
    intro options
    simp only [Draft.continuedString?, openQuote?_eq_none hquote', Option.bind_eq_bind,
      Option.bind_none, Option.bind_fun_none]
  have hafter : (writtenTokens head header ls []).after = [] := by
    simp only [writtenTokens, scan]
  rw [hstring, Option.getD_none] at hread
  simp only [Draft.joinedLines, hafter, Draft.read] at hread
  constructor
  · rw [ofSource, hread]
    simp only [Draft.toStream, items_foldl_sort_inSection, hitems, hsections, List.reverse_append,
      List.reverse_reverse, List.length_nil]
    rfl
  · rw [ofSource, hread]
    simp only [Draft.toStream, sections_foldl_sort, hsections]
    rfl

namespace Carried

variable {stream : Stream} {around : Section} {front inner : List Token} {i : Nat}
  (h : Carried stream around front inner)
include h

theorem token?_eq (i : Nat) : stream.token? i = (front ++ inner)[i]? := by
  have htokens : (lineItems front ++ sectionItems 0 inner).map (·.token) = front ++ inner := by
    cases front <;> simp [lineItems, sectionItems, Function.comp_def]
  rw [token?, h.items, List.getElem?_toArray, ← List.getElem?_map, htokens]

theorem size_eq : stream.size = front.length + inner.length := by
  have hlength : (lineItems front).length = front.length := by cases front <;> simp [lineItems]
  simp [size, h.items, hlength, sectionItems]

theorem section?_front (hi : i < front.length) : stream.section? i = none := by
  cases front with
  | nil => cases hi
  | cons first more =>
    rw [section?, h.items, List.getElem?_toArray,
      List.getElem?_append_left (by simpa [lineItems] using hi)]
    cases i with
    | zero => rfl
    | succ i => simp [lineItems, Option.bind_map]

theorem section?_inner (hi : i < inner.length) :
    stream.section? (front.length + i) = some around := by
  have hlength : (lineItems front).length = front.length := by
    cases front <;> simp [lineItems]
  rw [section?, h.items, h.sections, List.getElem?_toArray,
    List.getElem?_append_right (by omega), hlength, Nat.add_sub_cancel_left]
  simp [sectionItems, hi]

/-- All tokens but the first carry on the line. -/
theorem continues_eq (hpos : 0 < i) (hlt : i < stream.size) : stream.continues i = true := by
  have hinner : ∀ item ∈ sectionItems 0 inner, item.startsLine = false := by
    simp [sectionItems]
  have hitems : ∀ item ∈ (lineItems front ++ sectionItems 0 inner).tail,
      item.startsLine = false := by
    cases front with
    | nil => exact fun item hitem => hinner item (List.mem_of_mem_tail hitem)
    | cons first more => exact List.forall_mem_append.mpr ⟨by simp, hinner⟩
  obtain ⟨item, hitem⟩ : ∃ item, stream.items[i]? = some item :=
    ⟨_, Array.getElem?_eq_getElem hlt⟩
  obtain ⟨i, rfl⟩ := Nat.exists_eq_succ_of_ne_zero (Nat.pos_iff_ne_zero.mp hpos)
  have hmem : item ∈ (lineItems front ++ sectionItems 0 inner).tail := by
    refine List.mem_of_getElem? (i := i) ?_
    rw [List.getElem?_tail, ← List.getElem?_toArray, ← h.items]
    exact hitem
  refine continues_of_not_startsLine ?_
  rw [startsLine, hitem]
  exact hitems item hmem

end Carried

end HotkeyScript.Stream
