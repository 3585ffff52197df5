import HotkeyScript.Section
import HotkeyScript.Token.Lexer

/-!
# The token stream

The grammar reads a stream of tokens without comments, in which every token knows whether it starts
a logical line and in which continuation section it lies. This module builds the stream from the
tokens of a source in one pass from left to right.

* A comment leaves the stream. A block comment starts with a slash and a star at the start of a line
  and takes everything up to its end with it.
* The lines of a continuation section carry on the logical line above it. The parentheses and the
  options leave the stream.
* When the line above a section ends inside a quoted string, and the string is closed behind the
  closing parenthesis, then everything from quote to quote is one string token.

## Main definitions

* `Stream.Item` — a token with its marks.
* `Stream` — the items, the sections and the comments of a source.
* `Stream.ofSource` — the stream of a source.
-/

namespace HotkeyScript

namespace Stream

/-- A token of the stream. -/
structure Item where
  token : Token
  /-- The token starts a logical line. -/
  startsLine : Bool
  /-- The continuation section that the token lies in, by its index. -/
  inSection : Option Nat
  deriving DecidableEq, Repr, Inhabited

/-- The part of a stream that has been built so far, with the latest items and comments first. -/
structure Draft where
  items : List Item := []
  sections : List Section := []
  comments : List Token := []
  /-- The physical line of the latest token. -/
  lastLine : Option Nat := none
  deriving DecidableEq, Repr, Inhabited

namespace Draft

/-- Adds a token. It starts a logical line if it lies in no section and is the first token of the
stream on its physical line. -/
def emit (draft : Draft) (inSection : Option Nat) (token : Token) : Draft :=
  { draft with
    items :=
      { token
        startsLine := inSection.isNone && draft.lastLine != some token.span.line
        inSection } :: draft.items
    lastLine := some token.span.line }

/-- Adds a comment. -/
def comment (draft : Draft) (token : Token) : Draft :=
  { draft with comments := token :: draft.comments }

/-- Adds a comment to the comments if they are kept apart, and any other token to the items. -/
def sort (apart : Bool) (inSection : Option Nat) (draft : Draft) (token : Token) : Draft :=
  if token.kind = .comment && apart then draft.comment token else draft.emit inSection token

end Draft

/-! ## Block comments -/

/-- The tokens start a block comment: a slash, and right behind it a token that starts with a
star. -/
def opensBlockComment (token : Token) : List Token → Bool
  | [] => false
  | next :: _ =>
    token.text == "/" && next.text.toList.head? == some '*' && token.touches next

/-- The text of a block comment after its opening: up to and including the first star with a slash
behind it, or all of it. -/
def commentBody : List Char → List Char
  | '*' :: '/' :: _ => ['*', '/']
  | c :: cs => c :: commentBody cs
  | [] => []

/-- The offset at which the block comment that starts at `start` ends. -/
def commentEnd (source : Source) (start : Nat) : Nat :=
  start + 2 + Source.byteLength (commentBody (Source.dropBytes (start + 2) source))

/-- Reads the block comment that starts with the token `slash`, and gives the tokens after it. When
the comment ends inside a token, the line is read anew from there. -/
def Draft.blockComment (source : Source) (draft : Draft) (slash : Token) (rest : List Token) :
    Draft × List Token :=
  let stop := commentEnd source slash.span.start
  let text := Source.slice source slash.span.start stop
  let draft := draft.comment
    { kind := .comment
      text := String.ofList text
      span := slash.span.to stop
      opensLine := true }
  let hidden := rest.takeWhile (·.span.start < stop)
  let after := rest.dropWhile (·.span.start < stop)
  let last := hidden.getLastD slash
  if stop < last.span.stop then
    let line := last.span.line
    let column := (Source.lineBefore source stop).length
    ((Token.tokenizeLine source stop line column).foldl (Draft.sort false none) draft,
      after.dropWhile (·.span.line == line))
  else
    (draft, after)

/-! ## Continuation sections -/

/-- The tokens of a continuation section behind its opening parenthesis. -/
structure SectionTokens where
  /-- The tokens on the line of the opening parenthesis. -/
  header : List Token
  /-- The tokens between the header and the closing parenthesis. -/
  inner : List Token
  closing : Token
  /-- The tokens behind the closing parenthesis. -/
  after : List Token
  deriving DecidableEq, Repr, Inhabited

/-- The token closes a section: a parenthesis at the start of a line. -/
def closesSection (token : Token) : Bool :=
  token.opensLine && token.text == ")"

/-- Splits the tokens behind an opening parenthesis at the start of a line. There is no section if
a closing parenthesis stands on the same line, or none closes it. -/
def sectionTokens? (opening : Token) (rest : List Token) : Option SectionTokens :=
  let header := rest.takeWhile (·.span.line == opening.span.line)
  let body := rest.dropWhile (·.span.line == opening.span.line)
  if header.any fun token => token.kind != .comment && token.text == ")" then
    none
  else
    match body.dropWhile (!closesSection ·) with
    | [] => none
    | closing :: after =>
      some { header, inner := body.takeWhile (!closesSection ·), closing, after }

/-- The text that holds the options: from the opening parenthesis to the last token of the header
that is no comment. -/
def optionsText (source : Source) (opening : Token) (header : List Token) : List Char :=
  let stop := ((header.filter (·.kind != .comment)).getLastD opening).span.stop
  Source.slice source opening.span.stop stop

/-- The token is a quote that is not closed on its line. -/
def isOpenQuote (token : Token) : Bool :=
  token.kind = .symbol && token.text == "\""

/-- The first open quote on a line, and the items before it. The items come latest first; the search
goes back over those of the line that lie in no section. -/
def openQuote? (line : Nat) : List Item → Option (Item × List Item)
  | [] => none
  | item :: items =>
    if item.token.span.line != line || item.inSection.isSome then none
    else
      match openQuote? line items with
      | some found => some found
      | none => if isOpenQuote item.token then some (item, items) else none

/-- The lines between the line of the opening parenthesis and the line of the closing one. -/
def sectionLines (source : Source) (opening closing : Token) : List (List Char) :=
  let start := Source.nextLineStart source opening.span.stop
  let stop := Source.lineStart source closing.span.start
  if stop ≤ start then []
  else Text.lines (Text.dropFinalBreak (Source.slice source start stop))

/-- Reads a section that continues a quoted string, and gives the tokens after it. The string starts
at an open quote on the line above and is closed behind the closing parenthesis. The rest of that
line is read anew. -/
def Draft.continuedString? (source : Source) (draft : Draft) (options : Section.Options)
    (opening : Token) (tokens : SectionTokens) : Option (Draft × List Token) := do
  let last ← draft.items.head?
  let (quote, items) ← openQuote? last.token.span.line draft.items
  let behind := Source.dropBytes tokens.closing.span.stop source
  let length ← Token.closingQuote behind
  let tail := behind.take length
  let stop := tokens.closing.span.stop + Source.byteLength tail
  let line := tokens.closing.span.line
  let text :=
    Source.lineAfter source quote.token.span.stop ++
    options.joinLines (sectionLines source opening tokens.closing) ++
    tail.dropLast
  let item : Item :=
    { token :=
        { kind := .string
          text := String.ofList (Source.slice source quote.token.span.start stop)
          span := quote.token.span.to stop
          opensLine := quote.token.opensLine }
      startsLine := quote.startsLine
      inSection := some draft.sections.length }
  let comments := tokens.inner.filter fun token => token.kind = .comment && options.comments
  let joined : Draft :=
    { items := item :: items
      sections :=
        { options, opening, closing := tokens.closing, literal := some (String.ofList text) } ::
          draft.sections
      comments := comments.reverse ++ draft.comments
      lastLine := some line }
  let column := (Source.lineBefore source stop).length
  return ((Token.tokenizeLine source stop line column).foldl (Draft.sort true none) joined,
    tokens.after.dropWhile (·.span.line == line))

/-- Reads a section whose lines are tokens of their own, and gives the tokens after it. -/
def Draft.joinedLines (draft : Draft) (options : Section.Options) (opening : Token)
    (tokens : SectionTokens) : Draft × List Token :=
  let index := draft.sections.length
  let entered : Draft :=
    { draft with
      sections := { options, opening, closing := tokens.closing } :: draft.sections }
  let read := tokens.inner.foldl (Draft.sort options.comments (some index)) entered
  ({ read with lastLine := some tokens.closing.span.line }, tokens.after)

/-- Reads the continuation section that the token `opening` opens, and gives the tokens after it. -/
def Draft.continuation? (source : Source) (draft : Draft) (opening : Token) (rest : List Token) :
    Option (Draft × List Token) := do
  let tokens ← sectionTokens? opening rest
  let options := Section.Options.ofText (optionsText source opening tokens.header)
  return (draft.continuedString? source options opening tokens).getD
    (draft.joinedLines options opening tokens)

/-! ## The pass over the tokens -/

theorem Draft.length_blockComment_le (source : Source) (draft : Draft) (slash : Token)
    (rest : List Token) : (draft.blockComment source slash rest).2.length ≤ rest.length := by
  simp only [Draft.blockComment]
  split
  · exact Nat.le_trans (List.dropWhile_sublist _).length_le (List.dropWhile_sublist _).length_le
  · exact (List.dropWhile_sublist _).length_le

theorem SectionTokens.length_after_le {opening : Token} {rest : List Token}
    {tokens : SectionTokens} (h : sectionTokens? opening rest = some tokens) :
    tokens.after.length ≤ rest.length := by
  simp only [sectionTokens?] at h
  split at h
  · simp at h
  · split at h
    · simp at h
    · rename_i closing after heq
      have hcons : (closing :: after).length ≤ rest.length :=
        heq ▸ Nat.le_trans (List.dropWhile_sublist _).length_le (List.dropWhile_sublist _).length_le
      have hafter : tokens.after = after := by
        rw [Option.some.injEq] at h
        exact h ▸ rfl
      rw [hafter]
      simp only [List.length_cons] at hcons
      omega

theorem Draft.length_continuedString?_le {source : Source} {draft : Draft}
    {options : Section.Options} {opening : Token} {tokens : SectionTokens}
    {result : Draft × List Token}
    (h : draft.continuedString? source options opening tokens = some result) :
    result.2.length ≤ tokens.after.length := by
  simp only [Draft.continuedString?, Option.bind_eq_bind, Option.bind_eq_some_iff, Option.pure_def,
    Option.some.injEq] at h
  obtain ⟨last, -, ⟨quote, items⟩, -, length, -, rfl⟩ := h
  exact (List.dropWhile_sublist _).length_le

theorem Draft.length_continuation?_le {source : Source} {draft : Draft} {opening : Token}
    {rest : List Token} {result : Draft × List Token}
    (h : draft.continuation? source opening rest = some result) :
    result.2.length ≤ rest.length := by
  simp only [Draft.continuation?, Option.bind_eq_bind, Option.bind_eq_some_iff, Option.pure_def,
    Option.some.injEq] at h
  obtain ⟨tokens, htokens, rfl⟩ := h
  refine Nat.le_trans ?_ (SectionTokens.length_after_le htokens)
  cases hstring : draft.continuedString? source _ opening tokens with
  | none => simp [Draft.joinedLines]
  | some found => simpa using Draft.length_continuedString?_le hstring

/-- Reads the remaining tokens of a source. -/
def Draft.read (source : Source) (draft : Draft) : List Token → Draft
  | [] => draft
  | token :: rest =>
    if token.opensLine && opensBlockComment token rest then
      match h : draft.blockComment source token rest with
      | (draft', after) =>
        have : after.length ≤ rest.length := by
          simpa [h] using draft.length_blockComment_le source token rest
        draft'.read source after
    else if token.kind = .comment then
      (draft.comment token).read source rest
    else if token.opensLine && token.text == "(" then
      match h : draft.continuation? source token rest with
      | some (draft', after) =>
        have : after.length ≤ rest.length := Draft.length_continuation?_le h
        draft'.read source after
      | none => (draft.emit none token).read source rest
    else
      (draft.emit none token).read source rest
termination_by tokens => tokens.length

end Stream

/-- The tokens of a source as the grammar reads them. -/
structure Stream where
  source : Source
  items : Array Stream.Item
  sections : Array Section
  comments : List Token
  deriving DecidableEq, Repr, Inhabited

namespace Stream

/-- The stream that a draft holds. -/
def Draft.toStream (draft : Draft) (source : Source) : Stream :=
  { source
    items := draft.items.reverse.toArray
    sections := draft.sections.reverse.toArray
    comments := draft.comments.reverse }

/-- The stream of a source. -/
def ofSource (source : Source) : Stream :=
  (Draft.read source {} (Token.tokenize source)).toStream source

end Stream

end HotkeyScript
