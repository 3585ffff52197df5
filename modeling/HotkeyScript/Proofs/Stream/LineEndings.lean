import HotkeyScript.Proofs.Stream.Origin
import HotkeyScript.Proofs.Token.LineEndings

/-!
# The stream and line endings

The pass over the tokens looks at the text of a source when it reads block comments and sections. It
finds the same there, whether its lines end with a line feed or with a carriage return in front of
it: every part of the pass commutes with moving the tokens on.

## Main definitions

* `Stream.stretch` — the stream in the source with a carriage return in front of every line feed.
-/

namespace HotkeyScript

open Source (byteLength IsBoundary)
open Text (crlf)
open Token (Cut)

/-- The section in the source with a carriage return in front of every line feed. -/
def Section.stretch (source : Source) (around : Section) : Section :=
  { around with
    opening := around.opening.stretch source
    closing := around.closing.stretch source }

namespace Section.Options

theorem ofText_crlf (text : List Char) : ofText (crlf text) = ofText text := by
  rw [ofText, Text.words, Text.wordsAfter_crlf, ofText, Text.words]

end Section.Options

namespace Stream

variable {source : Source} {draft : Draft} {bound : Nat} {opening slash token : Token}
  {rest tokens : List Token} {parts : SectionTokens}

/-! ## Drafts further on -/

/-- The item in the source with a carriage return in front of every line feed. -/
def Item.stretch (source : Source) (item : Item) : Item :=
  { item with token := item.token.stretch source }

/-- The draft in the source with a carriage return in front of every line feed. -/
def Draft.stretch (source : Source) (draft : Draft) : Draft :=
  { items := draft.items.map (Item.stretch source)
    sections := draft.sections.map (Section.stretch source)
    comments := draft.comments.map (Token.stretch source)
    lastLine := draft.lastLine }

theorem foldl_sort_stretch (apart : Bool) (inSection : Option Nat) (tokens : List Token)
    (draft : Draft) :
    (tokens.map (Token.stretch source)).foldl (Draft.sort apart inSection) (draft.stretch source) =
      (tokens.foldl (Draft.sort apart inSection) draft).stretch source := by
  have hsort : ∀ (draft : Draft) token,
      (draft.stretch source).sort apart inSection (token.stretch source) =
        (draft.sort apart inSection token).stretch source := by
    intro draft token
    unfold Draft.sort
    rw [Token.stretch_kind]
    split <;> rfl
  induction tokens generalizing draft with
  | nil => rfl
  | cons token tokens ih => rw [List.map_cons, List.foldl_cons, hsort, ih, List.foldl_cons]

/-! ## Block comments -/

theorem opensBlockComment_stretch (token : Token) (rest : List Token) :
    opensBlockComment (token.stretch source) (rest.map (Token.stretch source)) =
      opensBlockComment token rest := by
  cases rest with
  | nil => rfl
  | cons next rest =>
    have hstar : ((crlf next.text.toList).head? == some '*') =
        (next.text.toList.head? == some '*') := by
      rw [Bool.eq_iff_iff, beq_iff_eq, beq_iff_eq,
        Text.head?_crlf_eq_some_iff (by decide) (by decide)]
    simp only [opensBlockComment, List.map_cons, Token.touches_stretch, Token.stretch_text,
      Token.ofList_crlf_beq "/" (by decide), String.toList_ofList, hstar]

theorem commentBody_crlf (cs : List Char) : commentBody (crlf cs) = crlf (commentBody cs) := by
  fun_induction commentBody cs with
  | case1 cs => rfl
  | case2 c cs hne ih =>
    by_cases hc : c = '\n'
    · subst hc
      rw [Text.crlf_feed, Text.crlf_feed, commentBody, commentBody, ih]
      · rintro _ ⟨⟩
      · rintro _ ⟨⟩
    · rw [Text.crlf_cons hc, Text.crlf_cons hc, commentBody, ih]
      intro more hstar hslash
      have hhead : (crlf cs).head? = some '/' := by rw [hslash]; rfl
      rw [Text.head?_crlf_eq_some_iff (by decide) (by decide)] at hhead
      obtain ⟨tail, rfl⟩ := List.head?_eq_some_iff.mp hhead
      exact hne tail hstar rfl
  | case3 => rfl

/-- The end of a block comment moves on like its start. -/
theorem commentEnd_stretch (hpending : Pending source bound (slash :: rest))
    (hopens : opensBlockComment slash rest = true) :
    commentEnd (crlf source) (Source.stretch source slash.span.start) =
      Source.stretch source (commentEnd source slash.span.start) := by
  obtain ⟨before, text, hsource, hstart, -⟩ := exists_of_opensBlockComment hpending hopens
  have hdrop : Source.dropBytes slash.span.start source = ['/', '*'] ++ text := by
    rw [hstart, hsource, Source.dropBytes_byteLength_append]
    rfl
  have hopening : byteLength ['/', '*'] = 2 := rfl
  have hadd := hpending.cut.start.stretch_add hdrop
  have hboundary := hpending.cut.start.add hdrop
  rw [show crlf ['/', '*'] = ['/', '*'] from rfl, hopening] at hadd
  rw [hopening] at hboundary
  obtain ⟨after, hafter⟩ := commentBody_prefix (Source.dropBytes (slash.span.start + 2) source)
  rw [commentEnd, ← hadd, Source.dropBytes_stretch, commentBody_crlf, commentEnd,
    hboundary.stretch_add hafter.symm]

/-- The predicates of the pass see the same lines and the same order of offsets. -/
theorem line_comp_stretch (line : Nat) :
    (fun token : Token => token.span.line == line) ∘ Token.stretch source =
      fun token => token.span.line == line := rfl

theorem start_comp_stretch (stop : Nat) :
    (fun token : Token => decide (token.span.start < Source.stretch source stop)) ∘
      Token.stretch source = fun token => decide (token.span.start < stop) := by
  funext token
  simp

theorem getLastD_map_stretch (tokens : List Token) (token : Token) :
    (tokens.map (Token.stretch source)).getLastD (token.stretch source) =
      (tokens.getLastD token).stretch source := by
  rw [List.getLastD_eq_getLast?, List.getLast?_map, Option.getD_map, List.getLastD_eq_getLast?]

theorem blockComment_stretch (hreturn : '\r' ∉ source)
    (hpending : Pending source bound (slash :: rest))
    (hopens : opensBlockComment slash rest = true) (draft : Draft) :
    (draft.stretch source).blockComment (crlf source) (slash.stretch source)
        (rest.map (Token.stretch source)) =
      ((draft.blockComment source slash rest).1.stretch source,
        (draft.blockComment source slash rest).2.map (Token.stretch source)) := by
  obtain ⟨hboundary, -, -⟩ := slice_commentEnd hpending hopens
  simp only [Draft.blockComment, Token.stretch_span, Span.stretch_start,
    commentEnd_stretch hpending hopens, Source.slice_stretch hpending.cut.start hboundary,
    List.takeWhile_map, List.dropWhile_map, start_comp_stretch, line_comp_stretch,
    getLastD_map_stretch, Span.stretch_stop, Span.stretch_line, Source.stretch_lt_iff,
    Source.lineBefore_stretch, Token.tokenizeLine_crlf hreturn hboundary]
  have hcomment : ∀ text stop, (draft.stretch source).comment
      { kind := .comment
        text := String.ofList (crlf text)
        span := (slash.span.stretch source).to (Source.stretch source stop)
        opensLine := true } =
      (draft.comment
        { kind := .comment
          text := String.ofList text
          span := slash.span.to stop
          opensLine := true }).stretch source := by
    intro text stop
    simp [Draft.comment, Draft.stretch, Token.stretch, Span.to_stretch]
  rw [hcomment]
  split
  · rw [foldl_sort_stretch]
  · rfl

/-! ## Continuation sections -/

/-- The tokens of a section in the source with a carriage return in front of every line feed. -/
def SectionTokens.stretch (source : Source) (parts : SectionTokens) : SectionTokens :=
  { header := parts.header.map (Token.stretch source)
    inner := parts.inner.map (Token.stretch source)
    closing := parts.closing.stretch source
    after := parts.after.map (Token.stretch source) }

theorem closesSection_stretch (token : Token) :
    closesSection (token.stretch source) = closesSection token := by
  simp only [closesSection, Token.stretch_opensLine, Token.stretch_text,
    Token.ofList_crlf_beq ")" (by decide)]

theorem sectionTokens?_stretch (opening : Token) (rest : List Token) :
    sectionTokens? (opening.stretch source) (rest.map (Token.stretch source)) =
      (sectionTokens? opening rest).map (SectionTokens.stretch source) := by
  have hclosing : (fun token => token.kind != .comment && token.text == ")") ∘
      Token.stretch source = fun token => token.kind != .comment && token.text == ")" := by
    funext token
    simp only [Function.comp_apply, Token.stretch_kind, Token.stretch_text,
      Token.ofList_crlf_beq ")" (by decide)]
  have hcloses : (fun token => !closesSection token) ∘ Token.stretch source =
      fun token => !closesSection token := by
    funext token
    simp only [Function.comp_apply, closesSection_stretch]
  simp only [sectionTokens?, Token.stretch_span, Span.stretch_line, List.takeWhile_map,
    List.dropWhile_map, line_comp_stretch, List.any_map, hclosing, hcloses]
  split
  · rfl
  · cases (rest.dropWhile (·.span.line == opening.span.line)).dropWhile (!closesSection ·) <;> rfl

theorem optionsText_stretch {header : List Token} (hopening : Cut source opening)
    (hheader : ∀ token ∈ header, Cut source token) :
    optionsText (crlf source) (opening.stretch source) (header.map (Token.stretch source)) =
      crlf (optionsText source opening header) := by
  have hkind : (fun token : Token => token.kind != .comment) ∘ Token.stretch source =
      fun token => token.kind != .comment := rfl
  have hlast := cut_getLastD_header hopening hheader
  simp only [optionsText, List.filter_map, hkind, getLastD_map_stretch, Token.stretch_span,
    Span.stretch_stop, Source.slice_stretch hopening.stop hlast.stop]

theorem isOpenQuote_stretch (token : Token) :
    isOpenQuote (token.stretch source) = isOpenQuote token :=
  congrArg (decide (token.kind = .symbol) && ·)
    (Token.ofList_crlf_beq "\"" (by decide) token.text)

theorem openQuote?_stretch (line : Nat) (items : List Item) :
    openQuote? line (items.map (Item.stretch source)) =
      (openQuote? line items).map fun found =>
        (found.1.stretch source, found.2.map (Item.stretch source)) := by
  induction items with
  | nil => rfl
  | cons item items ih =>
    simp only [List.map_cons, openQuote?, ih, Item.stretch, isOpenQuote_stretch, Token.stretch_span,
      Span.stretch_line]
    split
    · rfl
    cases openQuote? line items with
    | some found => rfl
    | none =>
      simp only [Option.map_none]
      split <;> rfl

theorem sectionLines_stretch (hreturn : '\r' ∉ source) {closing : Token}
    (hopening : Cut source opening) (hclosing : Cut source closing) :
    sectionLines (crlf source) (opening.stretch source) (closing.stretch source) =
      sectionLines source opening closing := by
  have hclosing' := InBounds.isBoundary_lineStart hclosing.start
  have hlines : ∀ a b, Text.lines (Text.dropFinalBreak (crlf (Source.slice source a b))) =
      Text.lines (Text.dropFinalBreak (Source.slice source a b)) := by
    intro a b
    have hslice : '\r' ∉ Source.slice source a b := fun h => hreturn (Source.mem_of_mem_slice h)
    rw [Text.dropFinalBreak_crlf hslice,
      Text.lines_crlf fun h => hslice (Text.mem_of_mem_dropFinalBreak h)]
  simp only [sectionLines, Token.stretch_span, Span.stretch_start, Span.stretch_stop,
    Source.nextLineStart_stretch hreturn hopening.stop, Source.lineStart_stretch hclosing.start,
    Source.stretch_le_iff, Source.slice_stretch hopening.stop.nextLineStart hclosing', hlines]

theorem continuedString?_stretch (hreturn : '\r' ∉ source) (hsound : draft.Sound source bound)
    (hpending : Pending source bound (opening :: rest))
    (hparts : sectionTokens? opening rest = some parts) (options : Section.Options) :
    (draft.stretch source).continuedString? (crlf source) options (opening.stretch source)
        (parts.stretch source) =
      (draft.continuedString? source options opening parts).map fun result =>
        (result.1.stretch source, result.2.map (Token.stretch source)) := by
  obtain ⟨-, -, hclosing⟩ := hpending.sectionTokens hparts
  have hitems : (draft.stretch source).items = draft.items.map (Item.stretch source) := rfl
  simp only [Draft.continuedString?, hitems, List.head?_map, openQuote?_stretch,
    SectionTokens.stretch, Token.stretch_span, Span.stretch_stop, Span.stretch_line,
    Source.dropBytes_stretch, Token.closingQuote_crlf,
    sectionLines_stretch hreturn hpending.cut hclosing.cut]
  cases draft.items.head? with
  | none => rfl
  | some last =>
    have hline : (last.stretch source).token.span.line = last.token.span.line := rfl
    simp only [Option.map_some, Option.bind_eq_bind, Option.bind_some, Option.pure_def, hline]
    cases hquote : openQuote? last.token.span.line draft.items with
    | none => rfl
    | some found =>
      obtain ⟨quote, earlier⟩ := found
      have hcut : Cut source quote.token := by
        obtain ⟨newer, hitems⟩ := openQuote?_eq_some hquote
        refine (hsound.items.1 quote.token (List.mem_map_of_mem ?_)).1
        simp [hitems]
      cases hlength : Token.closingQuote (Source.dropBytes parts.closing.span.stop source) with
      | none => rfl
      | some length =>
        -- the string ends on the line of the closing parenthesis, so its end stays as it is
        have htake := Token.take_closingQuote_crlf hlength
        have hdrop := (List.take_append_drop length
          (Source.dropBytes parts.closing.span.stop source)).symm
        have hboundary := hclosing.cut.stop.add hdrop
        have hstop := hclosing.cut.stop.stretch_add hdrop
        rw [Text.crlf_eq_self (Text.feed_not_mem (Token.unbroken_closingQuote hlength))] at hstop
        have hkind : (fun token : Token => decide (token.kind = .comment) && options.comments) ∘
              Token.stretch source =
            fun token => decide (token.kind = .comment) && options.comments := rfl
        simp only [Option.map_some, Option.bind_some, htake, ← hstop, Item.stretch,
          Token.stretch_span, Span.stretch_start, Span.stretch_stop,
          Source.slice_stretch hcut.start hboundary, Source.lineBefore_stretch,
          Source.lineAfter_stretch, Token.tokenizeLine_crlf hreturn hboundary, List.dropWhile_map,
          line_comp_stretch, List.filter_map, hkind, ← foldl_sort_stretch]
        simp only [Draft.stretch, Item.stretch, Token.stretch, Section.stretch, Span.to_stretch,
          String.toList_ofList, List.map_cons, List.map_append, List.map_reverse, List.length_map]

theorem joinedLines_stretch (draft : Draft) (options : Section.Options) (opening : Token)
    (parts : SectionTokens) :
    (draft.stretch source).joinedLines options (opening.stretch source) (parts.stretch source) =
      ((draft.joinedLines options opening parts).1.stretch source,
        (draft.joinedLines options opening parts).2.map (Token.stretch source)) := by
  have hindex : (draft.stretch source).sections.length = draft.sections.length := List.length_map _
  have hread := @foldl_sort_stretch source options.comments (some draft.sections.length) parts.inner
    { draft with sections := { options, opening, closing := parts.closing } :: draft.sections }
  rw [Draft.joinedLines, hindex]
  exact congrArg (fun read : Draft => ({ read with lastLine := some parts.closing.span.line },
    parts.after.map (Token.stretch source))) hread

theorem continuation?_stretch (hreturn : '\r' ∉ source) (hsound : draft.Sound source bound)
    (hpending : Pending source bound (opening :: rest)) :
    (draft.stretch source).continuation? (crlf source) (opening.stretch source)
        (rest.map (Token.stretch source)) =
      (draft.continuation? source opening rest).map fun result =>
        (result.1.stretch source, result.2.map (Token.stretch source)) := by
  simp only [Draft.continuation?, sectionTokens?_stretch]
  cases hparts : sectionTokens? opening rest with
  | none => rfl
  | some parts =>
    have hheader : ∀ token ∈ parts.header, Cut source token := by
      intro token htoken
      refine (hpending.1 token (List.mem_cons_of_mem _ ?_)).1
      rw [sectionTokens?_eq_some hparts]
      exact List.mem_append_left _ htoken
    have htext : optionsText (crlf source) (opening.stretch source) (parts.stretch source).header =
        crlf (optionsText source opening parts.header) :=
      optionsText_stretch hpending.cut hheader
    simp only [Option.map_some, Option.bind_eq_bind, Option.bind_some, Option.pure_def, htext,
      Section.Options.ofText_crlf, continuedString?_stretch hreturn hsound hpending hparts,
      joinedLines_stretch]
    cases draft.continuedString? source (.ofText (optionsText source opening parts.header)) opening
      parts <;> rfl

/-! ## The whole pass -/

theorem next_stretch (hreturn : '\r' ∉ source) (hsound : draft.Sound source bound)
    (hpending : Pending source bound (token :: rest)) :
    (draft.stretch source).next (crlf source) (token.stretch source)
        (rest.map (Token.stretch source)) =
      ((draft.next source token rest).1.stretch source,
        (draft.next source token rest).2.map (Token.stretch source)) := by
  simp only [Draft.next, opensBlockComment_stretch, Token.stretch_opensLine, Token.stretch_kind,
    Token.stretch_text, Token.ofList_crlf_beq "(" (by decide),
    continuation?_stretch hreturn hsound hpending]
  split
  · next hopens =>
    exact blockComment_stretch hreturn hpending (Bool.and_eq_true_iff.mp hopens).2 draft
  split
  · rfl
  split
  · cases draft.continuation? source token rest <;> rfl
  · rfl

theorem read_stretch (hreturn : '\r' ∉ source) (hsound : draft.Sound source bound)
    (hpending : Pending source bound tokens) :
    (draft.stretch source).read (crlf source) (tokens.map (Token.stretch source)) =
      (draft.read source tokens).stretch source := by
  induction draft, tokens using Draft.read_induction source generalizing bound with
  | done draft => rw [List.map_nil, Draft.read, Draft.read]
  | step draft token rest ih =>
    obtain ⟨bound', hsound', hpending'⟩ := hsound.next hpending
    rw [List.map_cons, Draft.read_cons, next_stretch hreturn hsound hpending, ih hsound' hpending',
      ← Draft.read_cons]

/-- The stream in the source with a carriage return in front of every line feed. -/
def stretch (stream : Stream) : Stream :=
  { source := crlf stream.source
    items := stream.items.map (Item.stretch stream.source)
    sections := stream.sections.map (Section.stretch stream.source)
    comments := stream.comments.map (Token.stretch stream.source) }

/-- A source has the same stream further on. -/
theorem ofSource_crlf (hreturn : '\r' ∉ source) :
    ofSource (crlf source) = (ofSource source).stretch := by
  have hempty : Draft.stretch source {} = {} := rfl
  have hread := read_stretch hreturn (sound_empty source) (pending_tokenize source)
  rw [hempty, ← Token.tokenize_crlf hreturn] at hread
  rw [ofSource, hread]
  simp [ofSource, Draft.toStream, Draft.stretch, stretch]

theorem token?_stretch (stream : Stream) (p : Nat) :
    stream.stretch.token? p = (stream.token? p).map (Token.stretch stream.source) := by
  simp only [token?, stretch, Array.getElem?_map, Option.map_map]
  rfl

theorem touchesPrevious_stretch (stream : Stream) (p : Nat) :
    stream.stretch.touchesPrevious p = stream.touchesPrevious p := by
  have hprevious : stream.stretch.previous? p =
      (stream.previous? p).map (Token.stretch stream.source) := by
    cases p with
    | zero => rfl
    | succ p => exact token?_stretch stream p
  rw [touchesPrevious, touchesPrevious, hprevious, token?_stretch]
  cases stream.previous? p <;> cases stream.token? p <;> simp

/-! ## What stays and what changes -/

/-- A token of the stream with a line feed is a string that a section carries on. -/
theorem continued_of_feed_mem {item : Item} (hitem : item ∈ (ofSource source).items)
    (hfeed : '\n' ∈ item.token.text.toList) :
    item.token.kind = .string ∧
      (ofSource source).LiesInSection item (·.literal.isSome = true) := by
  rcases ofSource_fromLexer source item hitem with hlexed | hcontinued
  · exact absurd hfeed (Text.feed_not_mem hlexed.unbroken)
  · exact hcontinued

/-- A comment with a line feed is a block comment. -/
theorem isBlock_of_feed_mem {comment : Token} (hcomment : comment ∈ (ofSource source).comments)
    (hfeed : '\n' ∈ comment.text.toList) : IsBlock comment := by
  rcases ofSource_comments_fromLexer source comment hcomment with hlexed | hblock
  · exact absurd hfeed (Text.feed_not_mem hlexed.unbroken)
  · exact hblock

/-- Line endings do not matter to the stream. With a carriage return in front of every line feed
there are the same tokens, comments and sections, with the same marks; the same tokens touch, and
the sections have the same options and carry on the same strings. Texts change only inside strings
that sections carry on and inside block comments. -/
theorem ofSource_reflows (hreturn : '\r' ∉ source) :
    ((ofSource (crlf source)).size = (ofSource source).size ∧
      (ofSource (crlf source)).comments.length = (ofSource source).comments.length ∧
      (ofSource (crlf source)).sections.size = (ofSource source).sections.size) ∧
    (ofSource (crlf source)).marks = (ofSource source).marks ∧
    (ofSource (crlf source)).tokens.map Token.face = (ofSource source).tokens.map Token.face ∧
    (ofSource (crlf source)).tokens.map (·.text.toList) =
      (ofSource source).tokens.map (crlf ·.text.toList) ∧
    (∀ item ∈ (ofSource source).items, '\n' ∈ item.token.text.toList →
      item.token.kind = .string ∧
        (ofSource source).LiesInSection item (·.literal.isSome = true)) ∧
    (ofSource (crlf source)).comments.map Token.face = (ofSource source).comments.map Token.face ∧
    (ofSource (crlf source)).comments.map (·.text.toList) =
      (ofSource source).comments.map (crlf ·.text.toList) ∧
    (∀ comment ∈ (ofSource source).comments, '\n' ∈ comment.text.toList → IsBlock comment) ∧
    (∀ p, (ofSource (crlf source)).touchesPrevious p = (ofSource source).touchesPrevious p) ∧
    (ofSource (crlf source)).sections.map (fun around => (around.options, around.literal)) =
      (ofSource source).sections.map fun around => (around.options, around.literal) := by
  refine ⟨⟨?_, ?_, ?_⟩, ?_, ?_, ?_, fun _ => continued_of_feed_mem, ?_, ?_,
    fun _ => isBlock_of_feed_mem, ?_, ?_⟩ <;> rw [ofSource_crlf hreturn]
  · simp [stretch, size]
  · simp [stretch]
  · simp [stretch]
  · simp [stretch, marks, Item.stretch]
  · simp [stretch, tokens, Item.stretch]
  · simp [stretch, tokens, Item.stretch]
  · simp [stretch]
  · simp [stretch]
  · exact touchesPrevious_stretch _
  · simp [stretch, Section.stretch]

/-- A string over four lines and a block comment over two. -/
theorem ofSource_reflows_string :
    let source := "x := \"a\n(\nb\n)\"\n/* c\nd */ y".toList
    '\r' ∉ source ∧
      (ofSource (crlf source)).marks =
        [(true, none), (false, none), (false, some 0), (true, none)] ∧
      (ofSource (crlf source)).tokens.map (·.text.toList) =
        ["x", ":=", "\"a\r\n(\r\nb\r\n)\"", "y"].map String.toList ∧
      (ofSource (crlf source)).sections.map (fun around => (around.options, around.literal)) =
        #[({}, some "ab")] := by
  intro source
  have hreturn : '\r' ∉ source := by decide
  obtain ⟨-, hmarks, -, htexts, -, -, -, -, -, hsections⟩ := ofSource_reflows hreturn
  refine ⟨hreturn, hmarks.trans (by decide +kernel), htexts.trans (by decide +kernel),
    hsections.trans (by decide +kernel)⟩

end Stream

end HotkeyScript
