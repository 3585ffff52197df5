import HotkeyScript.Proofs.InBounds.Text
import HotkeyScript.Proofs.Stream.Fits

/-!
# The stream read within bounds

The lexer and the pass that builds the stream, with every slice of the source and every index into
the tokens checked. A slice takes its ends from different tokens: from the parentheses of a section,
from a quote on the line above it, from the end of a block comment. The order of the stream says
that they are boundaries and which of them comes first, so the checks always succeed.

Three kinds of accesses have no check, since their index is taken from the list that they look into.
A loop runs over the tokens up to their number, or over those that it has cut out. The search for an
open quote enumerates the tokens of the stream and then takes the one that it has found. It also
looks up their marks, and a token and its mark are one item (`Stream.length_marks`).

## Main definitions

* `InBounds.lexeme`, `InBounds.scan`, `InBounds.tokenize`, `InBounds.tokenizeLine` — the lexer.
* `InBounds.sectionTokens` — the tokens of a section, by their indices.
* `InBounds.blockComment`, `InBounds.continuation` — the steps of the pass that look at the source.
* `InBounds.ofSource` — the stream of a source.
-/

namespace HotkeyScript.InBounds

open Source (IsBoundary byteLength)
open HotkeyScript.Stream (Draft Item SectionTokens Settled Pending)
open Token (Cut Place)

variable {source : Source} {bound : Nat} {draft : Draft} {opening token : Token} {rest : List Token}
  {parts : SectionTokens}

/-! ## The lexer -/

/-- The kind of the token at the start of a text and the number of its bytes. Numbers, words and
strings are measured by their bytes, and the text of a word is a slice. -/
def lexeme (charBefore : Option Char) (fresh : Bool) (cs : List Char) :
    Option (Token.Kind × Nat) := do
  let number ← numberLength (bytes cs)
  if number != 0 then
    return (.number, number)
  let word := byteRun Token.isWordChar (bytes cs)
  if word != 0 then
    let text ← before cs word
    return (Token.wordKind charBefore (String.ofList text), word)
  if Token.commentAllowed charBefore fresh && Token.commentLength cs != 0 then
    return (.comment, byteLength (cs.take (Token.commentLength cs)))
  if Token.operatorLength cs != 0 then
    return (.symbol, byteLength (cs.take (Token.operatorLength cs)))
  let string ← stringLength (bytes cs)
  if string != 0 then
    return (.string, string)
  return (.symbol, byteLength (cs.take 1))

/-- The tokens from a place on, of which each step uses up one of the bound. The rest of the source,
the character before the place and the text of a token are slices. -/
def scan (source : Source) (oneLine : Bool) : Nat → Place → Option (List Token)
  | 0, _ => none
  | bound + 1, place => do
    match ← behind source place.offset with
    | [] => return []
    | '\r' :: '\n' :: _ =>
      if oneLine then return [] else scan source oneLine bound (place.afterBreak 2 '\n')
    | c :: cs =>
      if Text.isLineBreak c then
        if oneLine then return [] else scan source oneLine bound (place.afterBreak 1 c)
      else if Text.isBlank c then
        scan source oneLine bound (place.afterBlank c)
      else
        let before ← charBefore source place.offset
        let (kind, length) ← lexeme before place.fresh (c :: cs)
        let text ← slice source place.offset (place.offset + length)
        let tokens ← scan source oneLine bound (place.afterToken text)
        return place.token kind text :: tokens

/-- The tokens of a source. -/
def tokenize (source : Source) : Option (List Token) :=
  scan source false (source.length + 1) (Token.start source).1

/-- The tokens from an offset to the end of its line. -/
def tokenizeLine (source : Source) (offset line column : Nat) : Option (List Token) := do
  let before ← charBefore source offset
  scan source true (source.length + 1) { offset, line, column, before, fresh := false }

/-- A token has the bytes of its characters. -/
theorem lexeme_eq (charBefore : Option Char) (fresh : Bool) (cs : List Char) :
    lexeme charBefore fresh cs =
      some ((Token.lexeme charBefore fresh cs).1,
        byteLength (cs.take (Token.lexeme charBefore fresh cs).2)) := by
  have hword : byteRun Token.isWordChar (bytes cs) = Token.wordLength cs :=
    byteRun_bytes onlyAscii_isWordChar cs
  have htext : before cs (Token.wordLength cs) = some (cs.take (Token.wordLength cs)) := by
    have hbefore := before_append (cs.take (Token.wordLength cs)) (cs.drop (Token.wordLength cs))
    rwa [List.take_append_drop, byteLength_take_wordLength] at hbefore
  simp only [lexeme, Token.lexeme, numberLength_eq, hword, htext, stringLength_eq,
    Option.bind_eq_bind, Option.bind_some, Option.pure_def]
  split
  · rw [byteLength_take_numberLength]
  split
  · rw [byteLength_take_wordLength]
  split
  · rfl
  split
  · rfl
  · simp only [bne_iff_ne, ne_eq, byteLength_take_stringLength_eq_zero]
    split <;> rfl

/-- The place stands behind the text and remembers its last character. -/
structure At (place : Place) (text : List Char) : Prop where
  offset : place.offset = byteLength text
  before : place.before = text.getLast?

theorem At.append {place place' : Place} {text part : List Char} (h : At place text)
    (hoffset : place'.offset = place.offset + byteLength part)
    (hbefore : place'.before = part.getLast?.or place.before) : At place' (text ++ part) := by
  constructor
  · rw [hoffset, h.offset, Source.byteLength_append]
  · rw [hbefore, h.before, List.getLast?_append]

theorem scan_eq (oneLine : Bool) {text cs : List Char} {place : Place}
    (hsource : source = text ++ cs) (h : At place text) (hbound : cs.length < bound) :
    scan source oneLine bound place = some (Token.scan oneLine place cs) := by
  induction bound generalizing text cs place with
  | zero => omega
  | succ bound ih =>
    have hrest : behind source place.offset = some cs := by rw [hsource, h.offset, behind_append]
    have hsplit : ∀ n, source = text ++ cs.take n ++ cs.drop n := by
      intro n
      rw [hsource, List.append_assoc, List.take_append_drop]
    have hlength : ∀ n, 0 < n → 0 < cs.length → (cs.drop n).length < bound := by
      intro n hn hcs
      rw [List.length_drop]
      omega
    fun_cases Token.scan oneLine place cs with
    | case1 => simp [scan, hrest]
    | case2 cs honeLine => simp [scan, hrest, honeLine]
    | case3 cs honeLine =>
      have hat : At (place.afterBreak 2 '\n') (text ++ ['\r', '\n']) := h.append rfl rfl
      have hnext := ih (hsplit 2) hat (hlength 2 (by decide) (by simp))
      simpa [scan, hrest, honeLine] using hnext
    | case4 c cs hne hbreak honeLine => simp [scan, hrest, honeLine, hbreak]
    | case5 c cs hne hbreak honeLine =>
      have hat : At (place.afterBreak 1 c) (text ++ [c]) :=
        h.append (by simp [Place.afterBreak, Text.utf8Size_of_isLineBreak hbreak]) rfl
      have hnext := ih (hsplit 1) hat (hlength 1 (by decide) (by simp))
      simpa [scan, hrest, honeLine, hbreak] using hnext
    | case6 c cs hne hbreak hblank =>
      have hat : At (place.afterBlank c) (text ++ [c]) := h.append rfl rfl
      have hnext := ih (hsplit 1) hat (hlength 1 (by decide) (by simp))
      simpa [scan, hrest, hbreak, hblank] using hnext
    | case7 c cs hne hbreak hblank next text' =>
      have hbefore : charBefore source place.offset = some place.before := by
        rw [hsource, h.offset, charBefore, before_append, h.before]
        rfl
      have htext : slice source place.offset (place.offset + byteLength text') = some text' := by
        rw [hsplit next.2, h.offset, List.append_assoc]
        exact slice_append _ _ _
      have hat : At (place.afterToken text') (text ++ text') := h.append rfl rfl
      have hnext := ih (hsplit next.2) hat (hlength next.2 (Token.lexeme_pos _ _ _) (by simp))
      simp only [text', next] at htext hnext
      simp [scan, hrest, hbreak, hblank, hbefore, lexeme_eq, htext, hnext, text', next]

theorem tokenize_eq (source : Source) : tokenize source = some (Token.tokenize source) := by
  obtain ⟨text, hsource, hat⟩ : ∃ text, source = text ++ (Token.start source).2 ∧
      At (Token.start source).1 text := by
    fun_cases Token.start source with
    | case1 => exact ⟨[], rfl, rfl, rfl⟩
    | case2 cs => exact ⟨[Source.byteOrderMark], rfl, rfl, rfl⟩
    | case3 c cs hne => exact ⟨[], rfl, rfl, rfl⟩
  have hlength := congrArg List.length hsource
  rw [List.length_append] at hlength
  exact scan_eq false hsource hat (by omega)

theorem tokenizeLine_eq {offset : Nat} (h : IsBoundary source offset) (line column : Nat) :
    tokenizeLine source offset line column =
      some (Token.tokenizeLine source offset line column) := by
  obtain ⟨text, cs, rfl, rfl⟩ := h
  have hat : At { offset := byteLength text, line, column, before := text.getLast?, fresh := false }
      text := ⟨rfl, rfl⟩
  have hlength : cs.length < (text ++ cs).length + 1 := by
    rw [List.length_append]
    omega
  have hscan := scan_eq true rfl hat hlength
  simp only [tokenizeLine, charBefore_eq (Source.isBoundary_append text cs), Option.bind_eq_bind,
    Option.bind_some, hscan, Token.tokenizeLine, Source.charBefore,
    Source.takeBytes_byteLength_append, Source.dropBytes_byteLength_append]

/-! ## Block comments -/

/-- The offset at which the block comment that starts at `start` ends. -/
def commentEnd (source : Source) (start : Nat) : Option Nat := do
  let text ← behind source (start + 2)
  return start + 2 + byteLength (Stream.commentBody text)

/-- Reads a block comment. The last token that it hides is found by its index. -/
def blockComment (source : Source) (draft : Draft) (slash : Token) (rest : List Token) :
    Option (Draft × List Token) := do
  let stop ← commentEnd source slash.span.start
  let text ← slice source slash.span.start stop
  let draft := draft.comment
    { kind := .comment
      text := String.ofList text
      span := slash.span.to stop
      opensLine := true }
  let hidden := rest.takeWhile (·.span.start < stop)
  let after := rest.dropWhile (·.span.start < stop)
  let last ← (slash :: rest)[hidden.length]?
  if stop < last.span.stop then
    let column ← column source stop
    let tokens ← tokenizeLine source stop last.span.line column
    return (tokens.foldl (Draft.sort false none) draft,
      after.dropWhile (·.span.line == last.span.line))
  else
    return (draft, after)

/-- The last token before a place in a list stands one index before it. -/
theorem getElem?_takeWhile (slash : Token) (rest : List Token) (p : Token → Bool) :
    (slash :: rest)[(rest.takeWhile p).length]? = some ((rest.takeWhile p).getLastD slash) := by
  have hsplit : rest = rest.takeWhile p ++ rest.dropWhile p := List.takeWhile_append_dropWhile.symm
  generalize rest.takeWhile p = hidden at hsplit ⊢
  rw [hsplit, ← List.cons_append, List.getElem?_append_left (by simp)]
  rcases hidden.eq_nil_or_concat with rfl | ⟨hidden, last, rfl⟩
  · rfl
  · simp

theorem blockComment_eq {slash : Token} (hpending : Pending source bound (slash :: rest))
    (hopens : Stream.opensBlockComment slash rest = true) :
    blockComment source draft slash rest = some (draft.blockComment source slash rest) := by
  obtain ⟨hstop, hlt, -⟩ := Stream.slice_commentEnd hpending hopens
  have hend : commentEnd source slash.span.start =
      some (Stream.commentEnd source slash.span.start) := by
    obtain ⟨before, text, rfl, hstart, -⟩ := Stream.exists_of_opensBlockComment hpending hopens
    have hbody : IsBoundary (before ++ '/' :: '*' :: text) (slash.span.start + 2) :=
      ⟨before ++ ['/', '*'], text, by simp, by simp [hstart]; rfl⟩
    simp [commentEnd, behind_eq hbody, Stream.commentEnd]
  have hle := hpending.cut.lt
  have hslice := slice_eq hpending.cut.start hstop (by omega)
  simp only [blockComment, hend, hslice, getElem?_takeWhile, column_eq hstop, tokenizeLine_eq hstop,
    Option.bind_eq_bind, Option.bind_some, Draft.blockComment]
  split <;> rfl

/-! ## Continuation sections -/

/-- The text that holds the options. -/
def optionsText (source : Source) (opening : Token) (header : List Token) : Option (List Char) :=
  slice source opening.span.stop ((header.filter (·.kind != .comment)).getLastD opening).span.stop

/-- The lines between the line of the opening parenthesis and the line of the closing one. -/
def sectionLines (source : Source) (opening closing : Token) : Option (List (List Char)) := do
  let start ← nextLineStart source opening.span.stop
  let stop ← lineStart source closing.span.start
  if stop ≤ start then
    return []
  else
    let body ← slice source start stop
    lines (Text.dropFinalBreak body)

/-- The text of a quoted string that a section carries on: the end of the line behind its quote, the
lines of the section, and the beginning of the line behind the closing parenthesis. -/
def continuedText (source : Source) (options : Section.Options) (quote opening closing : Token)
    (stop : Nat) : Option (List Char) := do
  let lineStop ← lineEnd source quote.span.stop
  let first ← slice source quote.span.stop lineStop
  let lines ← sectionLines source opening closing
  let joined ← joinLines options lines
  let last ← slice source closing.span.stop (stop - 1)
  return first ++ joined ++ last

/-- Reads a section that continues a quoted string, if it does. -/
def continuedString (source : Source) (draft : Draft) (options : Section.Options) (opening : Token)
    (tokens : SectionTokens) : Option (Option (Draft × List Token)) :=
  match draft.items.head?.bind fun last =>
    Stream.openQuote? last.token.span.line draft.items with
  | none => some none
  | some (quote, items) => do
    let behind ← behind source tokens.closing.span.stop
    match ← quoteEnd (bytes behind) (byteLength behind + 1) 0 with
    | none => return none
    | some length =>
      let stop := tokens.closing.span.stop + length
      let line := tokens.closing.span.line
      let literal ← continuedText source options quote.token opening tokens.closing stop
      let text ← slice source quote.token.span.start stop
      let item : Item :=
        { token :=
            { kind := .string
              text := String.ofList text
              span := quote.token.span.to stop
              opensLine := quote.token.opensLine }
          startsLine := quote.startsLine
          inSection := some draft.sections.length }
      let comments := tokens.inner.filter fun token => token.kind = .comment && options.comments
      let joined : Draft :=
        { items := item :: items
          sections :=
            { options, opening, closing := tokens.closing
              literal := some (String.ofList literal) } :: draft.sections
          comments := comments.reverse ++ draft.comments
          lastLine := some line }
      let column ← column source stop
      let tail ← tokenizeLine source stop line column
      return some (tail.foldl (Draft.sort true none) joined,
        tokens.after.dropWhile (·.span.line == line))

/-- The tokens of a continuation section behind its opening parenthesis, cut out between their
indices: that of the first token behind the header, and that of the closing parenthesis. -/
def sectionTokens (opening : Token) (rest : List Token) : Option (Option SectionTokens) := do
  let body := (rest.takeWhile (·.span.line == opening.span.line)).length
  let header ← segment rest 0 body
  if header.any fun token => token.kind != .comment && token.text == ")" then
    return none
  let lines ← segment rest body rest.length
  match lines.findIdx? Stream.closesSection with
  | none => return none
  | some length =>
    let close := body + length
    let inner ← segment rest body close
    let closing ← rest[close]?
    let after ← segment rest (close + 1) rest.length
    return some { header, inner, closing, after }

/-- Reads the continuation section that the token `opening` opens, if it opens one. -/
def continuation (source : Source) (draft : Draft) (opening : Token) (rest : List Token) :
    Option (Option (Draft × List Token)) := do
  match ← sectionTokens opening rest with
  | none => return none
  | some tokens =>
    let text ← optionsText source opening tokens.header
    let options ← optionsOfText text
    let continued ← continuedString source draft options opening tokens
    return some (continued.getD (draft.joinedLines options opening tokens))

/-- In front of the first token that satisfies `p` stand those that do not. -/
theorem findIdx?_of_dropWhile {p : Token → Bool} {tokens after : List Token} {first : Token}
    (h : tokens.dropWhile (!p ·) = first :: after) :
    tokens.findIdx? p = some (tokens.takeWhile (!p ·)).length := by
  have hfirst : p first = true := by
    have hhead := List.head?_dropWhile_not (!p ·) tokens
    simpa [h] using hhead
  have hbefore : (tokens.takeWhile (!p ·)).findIdx? p = none := by
    rw [List.findIdx?_eq_none_iff]
    intro token htoken
    simpa using List.all_eq_true.mp List.all_takeWhile token htoken
  have hfound : (tokens.takeWhile (!p ·) ++ first :: after).findIdx? p =
      some (tokens.takeWhile (!p ·)).length := by
    simp [List.findIdx?_append, hbefore, List.findIdx?_cons, hfirst]
  rwa [← h, List.takeWhile_append_dropWhile] at hfound

/-- The indices are those at which the tokens are split. -/
theorem sectionTokens_eq (opening : Token) (rest : List Token) :
    sectionTokens opening rest = some (Stream.sectionTokens? opening rest) := by
  have hrest : rest.takeWhile (·.span.line == opening.span.line) ++
      rest.dropWhile (·.span.line == opening.span.line) = rest := List.takeWhile_append_dropWhile
  unfold sectionTokens Stream.sectionTokens?
  generalize rest.takeWhile (·.span.line == opening.span.line) = header at hrest ⊢
  generalize rest.dropWhile (·.span.line == opening.span.line) = lines at hrest ⊢
  subst hrest
  have hheader : segment (header ++ lines) 0 header.length = some header := by simp [segment]
  simp only [hheader, segment_end, Option.bind_eq_bind, Option.bind_some]
  split
  · rfl
  cases hdrop : lines.dropWhile (!Stream.closesSection ·) with
  | nil =>
    have hnone : lines.findIdx? Stream.closesSection = none := by
      simpa [List.findIdx?_eq_none_iff] using List.dropWhile_eq_nil_iff.mp hdrop
    simp [hnone]
  | cons closing after =>
    have hfound := findIdx?_of_dropWhile hdrop
    have hlines : lines.takeWhile (!Stream.closesSection ·) ++ closing :: after = lines := by
      rw [← hdrop, List.takeWhile_append_dropWhile]
    generalize lines.takeWhile (!Stream.closesSection ·) = inner at hlines hfound ⊢
    subst hlines
    have hat : (header ++ (inner ++ closing :: after))[header.length + inner.length]? =
        some closing := by
      rw [← List.append_assoc, ← List.length_append, getElem?_append_length]
    have hafter : segment (header ++ (inner ++ closing :: after))
        (header.length + inner.length + 1) (header ++ (inner ++ closing :: after)).length =
          some after := by
      simpa [Nat.add_assoc] using segment_end (header ++ (inner ++ [closing])) after
    simp only [hfound, segment_append, hat, hafter, Option.bind_some, Option.pure_def]

theorem optionsText_eq (hpending : Pending source bound (opening :: rest))
    (hparts : Stream.sectionTokens? opening rest = some parts) :
    optionsText source opening parts.header =
      some (Stream.optionsText source opening parts.header) := by
  have hlast : (parts.header.filter (·.kind != .comment)).getLastD opening ∈ opening :: rest := by
    refine List.cons_subset_cons opening ?_ List.getLastD_mem_cons
    intro token htoken
    rw [Stream.sectionTokens?_eq_some hparts]
    exact List.mem_append_left _ (List.mem_filter.mp htoken).1
  refine slice_eq hpending.cut.stop (hpending.1 _ hlast).1.stop ?_
  rcases List.mem_cons.mp hlast with heq | hmem
  · rw [heq]
  · have hlt := (hpending.1 _ hlast).1.lt
    have hfollows := (List.pairwise_cons.mp hpending.2).1 _ hmem
    exact Nat.le_trans hfollows.1 (Nat.le_of_lt hlt)

theorem sectionLines_eq {closing : Token} (hopening : IsBoundary source opening.span.stop)
    (hclosing : IsBoundary source closing.span.start) :
    sectionLines source opening closing = some (Stream.sectionLines source opening closing) := by
  simp only [sectionLines, nextLineStart_eq hopening, lineStart_eq hclosing, Option.bind_eq_bind,
    Option.bind_some, Stream.sectionLines]
  split
  · rfl
  · next hlt =>
    rw [slice_eq hopening.nextLineStart (isBoundary_lineStart hclosing) (by omega),
      Option.bind_some, lines_eq]

theorem continuedText_eq {options : Section.Options} {quote closing : Token} {length : Nat}
    (hquote : Cut source quote) (hopening : Cut source opening) (hclosing : Cut source closing)
    (hlength : Token.closingQuote (Source.dropBytes closing.span.stop source) = some length) :
    continuedText source options quote opening closing
        (closing.span.stop +
          byteLength ((Source.dropBytes closing.span.stop source).take length)) =
      some (Source.lineAfter source quote.span.stop ++
        options.joinLines (Stream.sectionLines source opening closing) ++
        ((Source.dropBytes closing.span.stop source).take length).dropLast) := by
  obtain ⟨inside, hinside⟩ := Token.take_closingQuote hlength
  have hdrop : Source.dropBytes closing.span.stop source =
      inside ++ '"' :: (Source.dropBytes closing.span.stop source).drop length := by
    rw [← List.singleton_append, ← List.append_assoc, ← hinside, List.take_append_drop]
  have hstop : closing.span.stop + byteLength (inside ++ ['"']) - 1 =
      closing.span.stop + byteLength inside := by
    have hone : byteLength ['"'] = 1 := rfl
    rw [Source.byteLength_append, hone]
    omega
  simp only [continuedText, lineEnd_eq hquote.stop, slice_lineEnd hquote.stop,
    sectionLines_eq hopening.stop hclosing.start, joinLines_eq, hinside, hstop,
    slice_behind hclosing.stop hdrop, Option.bind_eq_bind, Option.bind_some, List.dropLast_concat,
    Option.pure_def]

/-- A section that continues a string is read as if nothing were checked. -/
theorem continuedString_eq {options : Section.Options} (h : draft.Sound source bound)
    (hpending : Pending source bound (opening :: rest))
    (hparts : Stream.sectionTokens? opening rest = some parts) :
    continuedString source draft options opening parts =
      some (draft.continuedString? source options opening parts) := by
  obtain ⟨-, -, hclosing⟩ := hpending.sectionTokens hparts
  have hstring : quoteEnd (bytes (Source.dropBytes parts.closing.span.stop source))
      (byteLength (Source.dropBytes parts.closing.span.stop source) + 1) 0 =
      some ((Token.closingQuote (Source.dropBytes parts.closing.span.stop source)).map fun n =>
        byteLength ((Source.dropBytes parts.closing.span.stop source).take n)) := by
    simpa using quoteEnd_eq [] _ rfl (Nat.lt_succ_self _)
  simp only [continuedString, Draft.continuedString?, behind_eq hclosing.cut.stop,
    Option.bind_eq_bind, Option.bind_some, hstring]
  cases hlast : draft.items.head? with
  | none => rfl
  | some last =>
    cases hquote : Stream.openQuote? last.token.span.line draft.items with
    | none => simp [hquote]
    | some found =>
      obtain ⟨quote, earlier⟩ := found
      cases hlength : Token.closingQuote (Source.dropBytes parts.closing.span.stop source) with
      | none => simp [hquote]
      | some length =>
        obtain ⟨newer, hitems⟩ := Stream.openQuote?_eq_some hquote
        obtain ⟨hcut, hbound⟩ := h.items.1 quote.token (by simp [hitems])
        have hstop := hclosing.cut.stop.add (List.take_append_drop length
          (Source.dropBytes parts.closing.span.stop source)).symm
        have hle : quote.token.span.start ≤ parts.closing.span.stop +
            byteLength ((Source.dropBytes parts.closing.span.stop source).take length) := by
          have := hcut.lt
          have := hclosing.le
          have := hclosing.cut.lt
          omega
        simp [hquote, slice_eq hcut.start hstop hle, column_eq hstop,
          tokenizeLine_eq hstop, continuedText_eq hcut hpending.cut hclosing.cut hlength]

theorem continuation_eq (h : draft.Sound source bound)
    (hpending : Pending source bound (opening :: rest)) :
    continuation source draft opening rest = some (draft.continuation? source opening rest) := by
  simp only [continuation, Draft.continuation?, sectionTokens_eq, Option.bind_eq_bind,
    Option.bind_some]
  cases hparts : Stream.sectionTokens? opening rest with
  | none => rfl
  | some parts =>
    simp [optionsText_eq hpending hparts, optionsOfText_eq, continuedString_eq h hpending hparts]

/-! ## The pass over the tokens -/

/-- One step of the pass. -/
def next (source : Source) (draft : Draft) (token : Token) (rest : List Token) :
    Option (Draft × List Token) :=
  if token.opensLine && Stream.opensBlockComment token rest then
    blockComment source draft token rest
  else if token.kind = .comment then
    some (draft.comment token, rest)
  else if token.opensLine && token.text == "(" then do
    let continued ← continuation source draft token rest
    return continued.getD (draft.emit none token, rest)
  else
    some (draft.emit none token, rest)

/-- Reads the remaining tokens of a source, of which each step uses up one of the bound. -/
def read (source : Source) : Nat → Draft → List Token → Option Draft
  | _, draft, [] => some draft
  | 0, _, _ :: _ => none
  | bound + 1, draft, token :: rest => do
    let (draft, after) ← next source draft token rest
    read source bound draft after

/-- The stream of a source. -/
def ofSource (source : Source) : Option Stream := do
  let tokens ← tokenize source
  let draft ← read source tokens.length {} tokens
  return draft.toStream source

theorem next_eq (h : draft.Sound source bound) (hpending : Pending source bound (token :: rest)) :
    next source draft token rest = some (draft.next source token rest) := by
  unfold next Draft.next
  split
  · next hopens => exact blockComment_eq hpending (Bool.and_eq_true_iff.mp hopens).2
  split
  · rfl
  split
  · rw [continuation_eq h hpending]
    rfl
  · rfl

theorem read_eq {tokens : List Token} {steps : Nat} (h : draft.Sound source bound)
    (hpending : Pending source bound tokens) (hsteps : tokens.length ≤ steps) :
    read source steps draft tokens = some (draft.read source tokens) := by
  induction steps generalizing draft tokens bound with
  | zero =>
    obtain rfl := List.length_eq_zero_iff.mp (Nat.le_zero.mp hsteps)
    rw [read, Draft.read]
  | succ steps ih =>
    cases tokens with
    | nil => rw [read, Draft.read]
    | cons token rest =>
      obtain ⟨bound', hsound', hpending'⟩ := h.next hpending
      have hlength := (draft.next_sublist source token rest).length_le
      have hrest := ih hsound' hpending' (Nat.le_trans hlength (Nat.le_of_succ_le_succ hsteps))
      rw [read, next_eq h hpending, Draft.read_cons]
      exact hrest

/-- The stream is built without an access out of bounds. -/
theorem ofSource_eq (source : Source) : ofSource source = some (Stream.ofSource source) := by
  have hread := read_eq (Stream.sound_empty source) (Stream.pending_tokenize source) (Nat.le_refl _)
  simp [ofSource, tokenize_eq, hread, Stream.ofSource]

end HotkeyScript.InBounds
