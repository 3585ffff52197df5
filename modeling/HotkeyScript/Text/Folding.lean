/-!
# Letters that fold to ASCII

Some patterns compare letters by Unicode's simple case folding. Then a letter counts in either case,
and two letters of other scripts count as the ASCII letter that they fold to: the long s as `S` and
the Kelvin sign as `K`. Texts that are compared letter by letter know neither (`Text.sameText`).
-/

namespace HotkeyScript.Text

/-- The upper-case letter that a character folds to. Letters that do not fold to an ASCII letter
stay as they are, since the patterns have none of them. -/
def fold (c : Char) : Char :=
  if c = '\u017f' then 'S' else if c = '\u212a' then 'K' else c.toUpper

/-- What is left of a text behind a beginning in upper case, which may be written in any case. -/
def stripStart? : List Char → List Char → Option (List Char)
  | [], cs => some cs
  | _ :: _, [] => none
  | k :: start, c :: cs => if fold c = k then stripStart? start cs else none

end HotkeyScript.Text
