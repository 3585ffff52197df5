/-!
# Decoding UTF-8

Bytes are read as UTF-8, and what is not UTF-8 is replaced: each longest beginning of a character
that cannot be completed, and each byte that starts no character, becomes one replacement character.

## Main definitions

* `Text.Utf8.leadForm?` — what may follow the first byte of a character.
* `Text.Utf8.decode` — the characters of bytes.
-/

namespace HotkeyScript.Text.Utf8

/-- The character that stands for bytes that are not UTF-8. -/
def replacement : Char := '\uFFFD'

/-- How a character of several bytes goes on behind its first byte. -/
structure LeadForm where
  /-- The bits that the first byte holds. -/
  bits : Nat
  /-- The number of bytes that follow. -/
  following : Nat
  /-- The least and the greatest value of the byte behind the first. -/
  low : Nat := 0x80
  high : Nat := 0xBF
  deriving DecidableEq, Repr, Inhabited

/-- How the character goes on that starts with a byte; none if the byte starts no character of
several bytes. The bounds on the second byte leave out overlong forms, surrogates and values that
are too large. -/
def leadForm? (b : Nat) : Option LeadForm :=
  if b < 0xC2 then none
  else if b < 0xE0 then some { bits := b - 0xC0, following := 1 }
  else if b = 0xE0 then some { bits := 0, following := 2, low := 0xA0 }
  else if b = 0xED then some { bits := 0xD, following := 2, high := 0x9F }
  else if b < 0xF0 then some { bits := b - 0xE0, following := 2 }
  else if b = 0xF0 then some { bits := 0, following := 3, low := 0x90 }
  else if b < 0xF4 then some { bits := b - 0xF0, following := 3 }
  else if b = 0xF4 then some { bits := 4, following := 3, high := 0x8F }
  else none

/-- The bytes, at most `n`, that may follow in a character; the first has to lie in the given
bounds. -/
def continuation (low high : Nat) : Nat → List Nat → List Nat
  | 0, _ => []
  | _ + 1, [] => []
  | n + 1, b :: bs => if low ≤ b ∧ b ≤ high then b :: continuation 0x80 0xBF n bs else []

/-- The character at the start of bytes whose first is `b`, and how many of the others it uses. -/
def firstChar (b : Nat) (bs : List Nat) : Char × Nat :=
  if b < 0x80 then (Char.ofNat b, 0)
  else
    match leadForm? b with
    | none => (replacement, 0)
    | some form =>
      let used := continuation form.low form.high form.following bs
      if used.length = form.following then
        (Char.ofNat (used.foldl (fun value b => value * 0x40 + (b - 0x80)) form.bits), used.length)
      else (replacement, used.length)

/-- The characters of bytes. -/
def decodeBytes : List Nat → List Char
  | [] => []
  | b :: bs => (firstChar b bs).1 :: decodeBytes (bs.drop (firstChar b bs).2)
termination_by bs => bs.length
decreasing_by simp only [List.length_drop, List.length_cons]; omega

/-- The characters of bytes, with a replacement for what is not UTF-8. -/
def decode (bytes : List UInt8) : List Char :=
  decodeBytes (bytes.map (·.toNat))

end HotkeyScript.Text.Utf8
