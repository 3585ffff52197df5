/-!
# Quoted text

A text between double quotes, as it is shown in messages: quotes, backslashes and characters that do
not print are escaped.
-/

namespace HotkeyScript.Text

/-- The ranges of control and format characters, combining marks of the common blocks, separators of
lines, and characters for private use. -/
def unprintableRanges : List (Nat × Nat) :=
  [(0x00, 0x1F), (0x7F, 0x9F), (0xAD, 0xAD), (0x300, 0x36F), (0x483, 0x489), (0x591, 0x5BD),
   (0x600, 0x605), (0x610, 0x61A), (0x61C, 0x61C), (0x64B, 0x65F), (0x180E, 0x180E),
   (0x1AB0, 0x1ACE), (0x1DC0, 0x1DFF), (0x1680, 0x1680), (0x2000, 0x200F), (0x2028, 0x202F),
   (0x205F, 0x206F), (0x20D0, 0x20F0), (0x3000, 0x3000), (0xE000, 0xF8FF), (0xFE00, 0xFE0F),
   (0xFE20, 0xFE2F), (0xFEFF, 0xFEFF), (0xFFF0, 0xFFFB), (0xFFFE, 0xFFFF), (0xE0000, 0x10FFFF)]

/-- The character is shown by an escape. -/
def isUnprintable (c : Char) : Bool :=
  c == '\u00A0' || unprintableRanges.any fun range => range.1 ≤ c.toNat && c.toNat ≤ range.2

/-- How a character is shown between double quotes. -/
def quotedChar (c : Char) : List Char :=
  if c = '"' then ['\\', '"']
  else if c = '\\' then ['\\', '\\']
  else if c = '\n' then ['\\', 'n']
  else if c = '\r' then ['\\', 'r']
  else if c = '\t' then ['\\', 't']
  else if c = '\x00' then ['\\', '0']
  else if isUnprintable c then
    ['\\', 'u', '\x7b'] ++ Nat.toDigits 16 c.toNat ++ ['\x7d']
  else [c]

/-- A text between double quotes. -/
def quoted (text : String) : String :=
  String.ofList ('"' :: text.toList.flatMap quotedChar ++ ['"'])

end HotkeyScript.Text
