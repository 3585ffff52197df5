import HotkeyScript.Source
import HotkeyScript.Token.Lexeme

/-!
# Lexer

Splits a source into tokens. The lexer never fails: blanks and line breaks only move the place, and
every other character belongs to a token.

## Main definitions

* `Token.Place` — where the lexer stands, and what it remembers of the text before.
* `Token.scan` — the tokens of the text that starts at a place.
* `Token.tokenize` — the tokens of a source.
* `Token.tokenizeLine` — the tokens from an offset to the end of its line.
-/

namespace HotkeyScript.Token

/-- A place between two characters of the source. -/
structure Place where
  offset : Nat := 0
  line : Nat := 0
  column : Nat := 0
  /-- The character before the place. -/
  before : Option Char := none
  /-- No token stands before the place on its line. -/
  fresh : Bool := true
  deriving DecidableEq, Repr, Inhabited

namespace Place

/-- The place after the blank `c`. -/
def afterBlank (place : Place) (c : Char) : Place :=
  { place with
    offset := place.offset + c.utf8Size
    column := place.column + 1
    before := some c }

/-- The place after a line break of `n` characters that ends in `c`. -/
def afterBreak (place : Place) (n : Nat) (c : Char) : Place :=
  { offset := place.offset + n
    line := place.line + 1
    column := 0
    before := some c
    fresh := true }

/-- The place after the token with the given characters. -/
def afterToken (place : Place) (text : List Char) : Place :=
  { place with
    offset := place.offset + Source.byteLength text
    column := place.column + text.length
    before := text.getLast?.or place.before
    fresh := false }

/-- The token with the given kind and characters that starts at the place. -/
def token (place : Place) (kind : Kind) (text : List Char) : Token :=
  { kind
    text := String.ofList text
    span :=
      { start := place.offset
        stop := place.offset + Source.byteLength text
        line := place.line
        column := place.column }
    opensLine := place.fresh }

end Place

/-- The tokens of the text that starts at a place. With `oneLine` the scan ends at the first line
break. -/
def scan (oneLine : Bool) (place : Place) : List Char → List Token
  | [] => []
  | '\r' :: '\n' :: cs => if oneLine then [] else scan oneLine (place.afterBreak 2 '\n') cs
  | c :: cs =>
    if Text.isLineBreak c then
      if oneLine then [] else scan oneLine (place.afterBreak 1 c) cs
    else if Text.isBlank c then
      scan oneLine (place.afterBlank c) cs
    else
      let next := lexeme place.before place.fresh (c :: cs)
      let text := (c :: cs).take next.2
      place.token next.1 text :: scan oneLine (place.afterToken text) ((c :: cs).drop next.2)
termination_by cs => cs.length
decreasing_by
  all_goals simp only [List.length_cons, List.length_drop]
  · omega
  · omega
  · omega
  · have := lexeme_pos place.before place.fresh (c :: cs)
    omega

/-- The place at which the tokens of a source start: after a byte order mark, if there is one. -/
def start : Source → Place × List Char
  | [] => ({}, [])
  | c :: cs =>
    if c = Source.byteOrderMark then
      ({ offset := c.utf8Size, before := some c }, cs)
    else
      ({}, c :: cs)

/-- The tokens of a source. -/
def tokenize (source : Source) : List Token :=
  scan false (start source).1 (start source).2

/-- The tokens from an offset to the end of its line, the rest of a line whose beginning is already
read; `line` and `column` are those of the offset. -/
def tokenizeLine (source : Source) (offset line column : Nat) : List Token :=
  let place :=
    { offset, line, column, before := Source.charBefore source offset, fresh := false }
  scan true place (Source.dropBytes offset source)

end HotkeyScript.Token
