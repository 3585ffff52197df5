import HotkeyScript.Grammar.Expression

/-!
# Literal text

Commands, older assignments and comparisons, and hotstrings take text that is not an expression: the
tokens up to the end of the logical line, with the blanks between them. Where the text runs over
several lines, one space stands for an end of line, except inside a continuation section, whose
options say how its lines are joined.

## Main definitions

* `Grammar.gap` — the text between two tokens.
* `Grammar.assembled`, `Grammar.assemble` — the text of a run of tokens, before and after its
  escapes are replaced.
* `Grammar.legacyText?` — literal text up to the end of a line.
* `Grammar.params` — parameters with commas between them.
-/

namespace HotkeyScript.Grammar

variable (stream : Stream)

/-! ## Assembling text -/

/-- The indentation in front of a token that is the first of a continuation section, unless the
section trims it. -/
def sectionIndent (position : Nat) : List Char :=
  match stream.section? position with
  | none => []
  | some around =>
    let opens := (stream.previous? position).all (·.span.stop ≤ around.opening.span.start)
    if opens && !around.options.trimLeft then
      Source.lineBefore stream.source (stream.spanAt position).start
    else []

/-- The text between two tokens on different lines that a section joins, of which the first ends at
`start` and the second starts at `stop`. -/
def sectionGap (around : Section) (start stop : Nat) : List Char :=
  let options := around.options
  let lines := Text.lines (Source.slice stream.source start stop)
  let trailing := options.trimEnd (options.stripComment (lines.headD []))
  let leading := options.trimStart (lines.getLastD [])
  if start ≤ around.opening.span.start then
    leading
  else if around.closing.span.stop ≤ stop then
    trailing ++ Source.slice stream.source around.closing.span.stop stop
  else
    let separator := options.separator.toList
    let kept := (lines.drop 1).dropLast.filter fun line =>
      !(options.comments && Section.isCommentLine line)
    trailing ++ (kept.flatMap fun line => separator ++ options.trimLine line) ++ separator ++
      leading

/-- The text between the token at a position and the one before it. -/
def gap (position : Nat) : List Char :=
  let before := stream.spanAt (position - 1)
  let span := stream.spanAt position
  if before.line = span.line then
    Source.slice stream.source before.stop span.start
  else
    match (stream.section? position).or (stream.section? (position - 1)) with
    | none => [' ']
    | some around => sectionGap stream around before.stop span.start

/-- The text of the tokens from `first` up to, and without, `stop`, with its escapes. -/
def assembled (first stop : Nat) : List Char :=
  (List.range' first (stop - first)).flatMap fun position =>
    (if position = first then sectionIndent stream position else gap stream position) ++
      stream.textAt position

/-- The tokens from `first` up to, and without, `stop` reach into a section in which accents have no
special meaning. -/
def hasLiteralAccent (first stop : Nat) : Bool :=
  (List.range' first (stop - first)).any fun position =>
    (stream.section? position).any (·.options.literalAccent)

/-- The tokens from `first` up to, and without, `stop` as literal text. -/
def assemble (first stop : Nat) : LegacyLiteral :=
  let text := assembled stream first stop
  let span := stream.spanTo (stream.spanAt first) stop
  { value :=
      String.ofList (if hasLiteralAccent stream first stop then text else Text.unescape text)
    raw := String.ofList (Source.slice stream.source span.start span.stop)
    span }

/-- The literal text from a position to the end of its logical line, or to a position at which
`halt` holds; nothing if there is no token. -/
def legacyText? (halt : Nat → Bool) (position : Nat) : Option (Read LegacyLiteral) :=
  let stop := stream.skip (fun i => stream.continues i && !halt i) position
  if stop = position then none else some (assemble stream position stop, stop)

/-! ## Parameters -/

/-- The number of accents directly in front of the token at a position, each touching the next. -/
def accentsBefore : Nat → Nat
  | 0 => 0
  | position + 1 =>
    if stream.reads position "\x60" && stream.touchesPrevious (position + 1) then
      accentsBefore position + 1
    else 0

/-- The token at a position is escaped: an odd number of accents stands in front of it. -/
def isEscaped (position : Nat) : Bool :=
  !(stream.section? position).any (·.options.literalAccent) &&
    accentsBefore stream position % 2 == 1

/-- A comma that separates parameters stands at a position. -/
def isDelimiter (position : Nat) : Bool :=
  stream.continuesWith position "," &&
    !(stream.section? position).any (·.options.literalComma) && !isEscaped stream position

/-- A percent sign that makes its parameter an expression: one with a gap behind it. -/
def forcesExpression (position : Nat) : Bool :=
  stream.reads position "%" && !(stream.section? position).any (·.options.literalPercent) &&
    !stream.touchesPrevious (position + 1)

/-- A parameter: an expression behind a percent sign, or literal text. -/
def param (halt : Nat → Bool) (position : Nat) : Checked (Read (Option Expr)) :=
  if forcesExpression stream position then do
    let (expr, next) ← required (expression stream (.above Operator.comma) (position + 1))
      (stream.errorAt (position + 1))
    if stream.continues next && !isDelimiter stream next && !halt next then
      .error (stream.errorAt next)
    else
      .ok (some expr, next)
  else
    match legacyText? stream (fun i => isDelimiter stream i || halt i) position with
    | none => .ok (none, position)
    | some (text, next) => .ok (some (.legacyLiteral text), next)

/-- The parameters from a position on, each of which uses up one of the bound. -/
def paramsWithin (halt : Nat → Bool) : Nat → Nat → Checked (Read (List (Option Expr)))
  | 0, position => .ok ([], position)
  | bound + 1, position =>
    if !stream.continues position || halt position then
      .ok ([], position)
    else if isDelimiter stream position then do
      let (params, stop) ← paramsWithin halt bound (position + 1)
      .ok (none :: params, stop)
    else do
      let (first, next) ← param stream halt position
      let (params, stop) ←
        paramsWithin halt bound (if isDelimiter stream next then next + 1 else next)
      .ok (first :: params, stop)

/-- The parameters from a position to the end of the logical line, or to a position at which `halt`
holds. -/
def params (halt : Nat → Bool) (position : Nat) : Checked (Read (List (Option Expr))) :=
  paramsWithin stream halt (stream.size - position) position

end HotkeyScript.Grammar
