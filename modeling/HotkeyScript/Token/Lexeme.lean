import HotkeyScript.Text.Blank
import HotkeyScript.Text.Lines
import HotkeyScript.Token

/-!
# Lexemes

How long the token at the start of a text is, and of which kind. Each class of tokens has a function
that counts the characters of the longest member at the start of the text, zero when there is none;
the classes are tried in a fixed order, and a character that starts no member of any class is a
symbol by itself.

## Main definitions

* `Token.numberLength`, `Token.wordLength`, `Token.commentLength`, `Token.operatorLength`,
  `Token.stringLength` — the classes.
* `Token.closingQuote` — the way to the quote that closes a string.
* `Token.lexeme` — the kind and the length of the next token.

A token is never empty and lies within the text: `Token.lexeme_pos` and `Token.lexeme_le`.
-/

namespace HotkeyScript.Token

/-- An ASCII letter or digit, or an underscore. -/
def isWordChar (c : Char) : Bool :=
  c.isAlphanum || c == '_'

/-- A hexadecimal digit. -/
def isHexDigit (c : Char) : Bool :=
  c.isDigit || ('a' ≤ c && c ≤ 'f') || ('A' ≤ c && c ≤ 'F')

/-- The length of the longest beginning whose characters all satisfy `p`. -/
def runLength (p : Char → Bool) (cs : List Char) : Nat :=
  (cs.takeWhile p).length

/-- The length of `0x` and the hexadecimal digits after it, if there are any. -/
def hexLength : List Char → Nat
  | '0' :: x :: cs =>
    if (x == 'x' || x == 'X') && runLength isHexDigit cs != 0 then
      2 + runLength isHexDigit cs
    else
      0
  | _ => 0

/-- The length of a fraction: a point and the digits after it, if there are any. -/
def fractionLength : List Char → Nat
  | '.' :: cs => if runLength Char.isDigit cs == 0 then 0 else 1 + runLength Char.isDigit cs
  | _ => 0

/-- The length of digits with an optional fraction. -/
def decimalLength (cs : List Char) : Nat :=
  let whole := runLength Char.isDigit cs
  if whole == 0 then 0 else whole + fractionLength (cs.drop whole)

/-- The length of a number. -/
def numberLength (cs : List Char) : Nat :=
  if hexLength cs == 0 then decimalLength cs else hexLength cs

/-- The length of a word. -/
def wordLength (cs : List Char) : Nat :=
  runLength isWordChar cs

/-- The length of a comment, which runs from a semicolon to the end of the line. -/
def commentLength : List Char → Nat
  | ';' :: cs => 1 + runLength (!Text.isLineBreak ·) cs
  | _ => 0

/-- The operators of more than one character; an operator stands before its own beginnings. -/
def operators : List String :=
  ["//=", ">>=", "<<=", "++", "--", "**", "//", "<<", ">>", "~=", "<=", ">=", "==", "<>", "!=",
   "&&", "||", ":=", "+=", "-=", "*=", "/=", ".=", "|=", "&=", "^="]

/-- The length of an operator of more than one character. -/
def operatorLength (cs : List Char) : Nat :=
  match operators.find? (·.toList.isPrefixOf cs) with
  | some op => op.length
  | none => 0

/-- The number of characters up to and including the quote that closes a string, in the text after
its opening quote. A doubled quote does not close the string, and the end of the line ends the
search. -/
def closingQuote : List Char → Option Nat
  | '"' :: '"' :: cs => (closingQuote cs).map (· + 2)
  | c :: cs =>
    if c == '"' then some 1
    else if Text.isLineBreak c then none
    else (closingQuote cs).map (· + 1)
  | [] => none

/-- The length of a string that is closed on its line. -/
def stringLength : List Char → Nat
  | '"' :: cs => ((closingQuote cs).map (· + 1)).getD 0
  | _ => 0

/-- The words that are operators. -/
def wordOperators : List String :=
  ["new", "not", "and", "or"]

/-- The kind of a word. Right after a word character, as after the digits of `1true`, a boolean is
an ordinary word. -/
def wordKind (before : Option Char) (word : String) : Kind :=
  if !before.any isWordChar && (Text.sameText word "true" || Text.sameText word "false") then
    .boolean
  else if wordOperators.any (Text.sameText word ·) then
    .symbol
  else
    .word

/-- A semicolon starts a comment at the start of a line and after a blank. -/
def commentAllowed (before : Option Char) (fresh : Bool) : Bool :=
  fresh || before.all Text.isBlank

/-- The kind and the length of the token at the start of a text that is not empty. `before` is the
character in front of the text, and `fresh` says that no token stands before it on its line. -/
def lexeme (before : Option Char) (fresh : Bool) (cs : List Char) : Kind × Nat :=
  if numberLength cs != 0 then
    (.number, numberLength cs)
  else if wordLength cs != 0 then
    (wordKind before (String.ofList (cs.take (wordLength cs))), wordLength cs)
  else if commentAllowed before fresh && commentLength cs != 0 then
    (.comment, commentLength cs)
  else if operatorLength cs != 0 then
    (.symbol, operatorLength cs)
  else if stringLength cs != 0 then
    (.string, stringLength cs)
  else
    (.symbol, 1)

/-- A token has at least one character. -/
theorem lexeme_pos (before : Option Char) (fresh : Bool) (cs : List Char) :
    0 < (lexeme before fresh cs).2 := by
  unfold lexeme
  split
  · simp_all; omega
  split
  · simp_all; omega
  split
  · simp_all; omega
  split
  · simp_all; omega
  split
  · simp_all; omega
  · simp

theorem runLength_le (p : Char → Bool) (cs : List Char) : runLength p cs ≤ cs.length :=
  (List.takeWhile_sublist p).length_le

theorem hexLength_le (cs : List Char) : hexLength cs ≤ cs.length := by
  fun_cases hexLength cs with
  | case1 x cs h =>
    have := runLength_le isHexDigit cs
    simp only [List.length_cons]
    omega
  | case2 => exact Nat.zero_le _
  | case3 => exact Nat.zero_le _

theorem fractionLength_le (cs : List Char) : fractionLength cs ≤ cs.length := by
  fun_cases fractionLength cs with
  | case1 => exact Nat.zero_le _
  | case2 cs h =>
    have := runLength_le Char.isDigit cs
    simp only [List.length_cons]
    omega
  | case3 => exact Nat.zero_le _

theorem numberLength_le (cs : List Char) : numberLength cs ≤ cs.length := by
  have hhex := hexLength_le cs
  have hwhole := runLength_le Char.isDigit cs
  have hfraction := fractionLength_le (cs.drop (runLength Char.isDigit cs))
  rw [List.length_drop] at hfraction
  simp only [numberLength, decimalLength]
  split
  · split <;> omega
  · exact hhex

theorem commentLength_le (cs : List Char) : commentLength cs ≤ cs.length := by
  fun_cases commentLength cs with
  | case1 cs =>
    have := runLength_le (!Text.isLineBreak ·) cs
    simp only [List.length_cons]
    omega
  | case2 => exact Nat.zero_le _

theorem operatorLength_le (cs : List Char) : operatorLength cs ≤ cs.length := by
  fun_cases operatorLength cs with
  | case1 op h =>
    have hmatch := List.find?_some h
    exact (List.isPrefixOf_iff_prefix.mp hmatch).length_le
  | case2 => exact Nat.zero_le _

theorem closingQuote_le {cs : List Char} {n : Nat} (h : closingQuote cs = some n) :
    n ≤ cs.length := by
  fun_induction closingQuote cs generalizing n with
  | case1 cs ih =>
    obtain ⟨m, hm, rfl⟩ := Option.map_eq_some_iff.mp h
    have := ih hm
    simp only [List.length_cons]
    omega
  | case2 c cs hne hquote =>
    simp only [Option.some.injEq] at h
    simp only [List.length_cons]
    omega
  | case3 => simp at h
  | case4 c cs hne hquote hbreak ih =>
    obtain ⟨m, hm, rfl⟩ := Option.map_eq_some_iff.mp h
    have := ih hm
    simp only [List.length_cons]
    omega
  | case5 => simp at h

theorem stringLength_le (cs : List Char) : stringLength cs ≤ cs.length := by
  fun_cases stringLength cs with
  | case1 cs =>
    cases h : closingQuote cs with
    | none => simp
    | some n =>
      have := closingQuote_le h
      simp only [Option.map_some, Option.getD_some, List.length_cons]
      omega
  | case2 => exact Nat.zero_le _

/-- A token has no more characters than there are. -/
theorem lexeme_le (before : Option Char) (fresh : Bool) {cs : List Char} (h : cs ≠ []) :
    (lexeme before fresh cs).2 ≤ cs.length := by
  have hpos := List.length_pos_iff.mpr h
  unfold lexeme
  split
  · exact numberLength_le cs
  split
  · exact runLength_le isWordChar cs
  split
  · exact commentLength_le cs
  split
  · exact operatorLength_le cs
  split
  · exact stringLength_le cs
  · exact hpos

end HotkeyScript.Token
