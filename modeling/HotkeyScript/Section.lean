import HotkeyScript.Text.Blank
import HotkeyScript.Text.Escape
import HotkeyScript.Token

/-!
# Continuation sections

A continuation section is a pair of parentheses, each at the start of a line, around lines that
belong to the logical line above. The text after the opening parenthesis holds options that say how
the lines are trimmed and joined and which characters lose their special meaning.

## Main definitions

* `Section.Options` — the options, read from text by `Section.Options.ofText`.
* `Section.Options.trimLine`, `Section.Options.joinLines` — what the options do to lines.
* `Section` — a section with its parentheses.
-/

namespace HotkeyScript

namespace Section

/-- The options of a continuation section. -/
structure Options where
  /-- A separator was asked for. -/
  join : Bool := false
  /-- The text between two lines. -/
  separator : String := "\n"
  trimLeft : Bool := false
  trimRight : Bool := true
  /-- Comments are left out of the text. -/
  comments : Bool := false
  literalPercent : Bool := false
  literalComma : Bool := false
  literalAccent : Bool := false
  deriving DecidableEq, Repr, Inhabited

/-- Replaces each accent with an `s` after it by a space. -/
def spaceEscapes : List Char → List Char
  | '\x60' :: 's' :: cs => ' ' :: spaceEscapes cs
  | c :: cs => c :: spaceEscapes cs
  | [] => []

namespace Options

/-- The options after the option `word`; a word that is no option changes nothing. -/
def apply (options : Options) (word : List Char) : Options :=
  let name := String.ofList (word.map Char.toLower)
  if name == "ltrim" then { options with trimLeft := true }
  else if name == "ltrim0" then { options with trimLeft := false }
  else if name == "rtrim0" then { options with trimRight := false }
  else if ["c", "com", "comment", "comments"].contains name then { options with comments := true }
  else if name == "%" then { options with literalPercent := true }
  else if name == "," then { options with literalComma := true }
  else if name == "\x60" then { options with literalAccent := true }
  else if "join".toList.isPrefixOf name.toList then
    { options with
      join := true
      separator := String.ofList (Text.unescape (spaceEscapes (word.drop 4))) }
  else options

/-- The options written in a text; of two options that disagree the later one counts. -/
def ofText (text : List Char) : Options :=
  (Text.words text).foldl apply {}

end Options

/-- The text of a line before the first blank that a semicolon follows. -/
def beforeComment : List Char → List Char
  | c :: ';' :: cs => if Text.isSpaceOrTab c then [] else c :: beforeComment (';' :: cs)
  | c :: cs => c :: beforeComment cs
  | [] => []

/-- The line holds nothing but a comment. -/
def isCommentLine (line : List Char) : Bool :=
  (Text.trimStart line).head? == some ';'

/-- A line without its comment. -/
def stripComment (line : List Char) : List Char :=
  if isCommentLine line then [] else beforeComment line

namespace Options

/-- Drops a comment, if comments are left out. -/
def stripComment (options : Options) (line : List Char) : List Char :=
  if options.comments then Section.stripComment line else line

/-- Drops blanks at the start, if these are trimmed. -/
def trimStart (options : Options) (line : List Char) : List Char :=
  if options.trimLeft then line.dropWhile Text.isSpaceOrTab else line

/-- Drops blanks at the end, if these are trimmed. -/
def trimEnd (options : Options) (line : List Char) : List Char :=
  if options.trimRight then Text.trimEndWhile Text.isSpaceOrTab line else line

/-- A line of a section as the options leave it. -/
def trimLine (options : Options) (line : List Char) : List Char :=
  options.trimEnd (options.trimStart (options.stripComment line))

/-- The trimmed lines with the separator between them. -/
def joinLines (options : Options) (lines : List (List Char)) : List Char :=
  options.separator.toList.intercalate (lines.map options.trimLine)

end Options

end Section

/-- A continuation section. -/
structure Section where
  options : Section.Options
  /-- The opening parenthesis. -/
  opening : Token
  /-- The closing parenthesis. -/
  closing : Token
  /-- The text of the quoted string that the section continues, if it continues one. -/
  literal : Option String := none
  deriving DecidableEq, Repr, Inhabited

end HotkeyScript
