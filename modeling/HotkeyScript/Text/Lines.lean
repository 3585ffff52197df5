/-!
# Lines

A line ends at a carriage return and line feed together, at a line feed, or at a carriage return.

## Main definitions

* `Text.isLineBreak` — the two characters that end a line.
* `Text.lines` — the lines of a text, without their breaks.
* `Text.lineBreaks` — how many line breaks a text has.
-/

namespace HotkeyScript.Text

/-- A carriage return or a line feed. -/
def isLineBreak (c : Char) : Bool :=
  c == '\r' || c == '\n'

/-- The lines of a text without their breaks; a text with `n` breaks has `n + 1` lines. -/
def lines : List Char → List (List Char)
  | [] => [[]]
  | '\r' :: '\n' :: cs => [] :: lines cs
  | c :: cs =>
    if isLineBreak c then
      [] :: lines cs
    else
      match lines cs with
      | [] => [[c]]
      | l :: ls => (c :: l) :: ls

/-- The number of line breaks of a text. -/
def lineBreaks : List Char → Nat
  | [] => 0
  | '\r' :: '\n' :: cs => lineBreaks cs + 1
  | c :: cs => if isLineBreak c then lineBreaks cs + 1 else lineBreaks cs

/-- A text has one line more than it has line breaks. -/
theorem length_lines (cs : List Char) : (lines cs).length = lineBreaks cs + 1 := by
  fun_induction lines cs with
  | case1 => rfl
  | case2 cs ih => simp [lineBreaks, ih]
  | case3 c cs hcr h ih => simp [lineBreaks, h, ih]
  | case4 c cs hcr h hnil ih => simp [hnil] at ih
  | case5 c cs hcr h l ls hcons ih => simp_all [lineBreaks]

/-- Drops the line break that ends a text, if one does. -/
def dropFinalBreak (cs : List Char) : List Char :=
  match cs.reverse with
  | '\n' :: '\r' :: rest => rest.reverse
  | c :: rest => if isLineBreak c then rest.reverse else cs
  | [] => cs

end HotkeyScript.Text
