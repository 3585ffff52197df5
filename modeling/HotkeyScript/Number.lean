import HotkeyScript.Token.Lexeme

/-!
# Values of numbers

A decimal number is read to the nearest double. A hexadecimal number is added up from the left, one
digit at a time, so a long one is rounded at each step.
-/

namespace HotkeyScript.Number

/-- The value of a hexadecimal digit. -/
def hexDigit? (c : Char) : Option Nat :=
  if c.isDigit then some (c.toNat - '0'.toNat)
  else if 'a' ≤ c ∧ c ≤ 'f' then some (c.toNat - 'a'.toNat + 10)
  else if 'A' ≤ c ∧ c ≤ 'F' then some (c.toNat - 'A'.toNat + 10)
  else none

/-- The value of hexadecimal digits that follow digits of the value `high`. -/
def hex? (high : Float) : List Char → Option Float
  | [] => some high
  | c :: cs =>
    match hexDigit? c with
    | some digit => hex? (high * 16.0 + Float.ofNat digit) cs
    | none => none

/-- The number that decimal digits write. -/
def digitsValue (digits : List Char) : Nat :=
  digits.foldl (fun value c => value * 10 + (c.toNat - '0'.toNat)) 0

/-- The value of decimal digits with an optional fraction. -/
def decimal? (cs : List Char) : Option Float :=
  let whole := cs.takeWhile Char.isDigit
  let fraction := cs.dropWhile Char.isDigit
  if whole.isEmpty then none
  else
    match fraction with
    | [] => some (Float.ofScientific (digitsValue whole) true 0)
    | '.' :: digits =>
      if !digits.isEmpty && digits.all Char.isDigit then
        some (Float.ofScientific (digitsValue (whole ++ digits)) true digits.length)
      else none
    | _ => none

/-- The value of a number. -/
def value? : List Char → Option Float
  | '0' :: x :: cs => if x == 'x' || x == 'X' then hex? 0.0 cs else decimal? ('0' :: x :: cs)
  | cs => decimal? cs

end HotkeyScript.Number
