import HotkeyScript.Number
import HotkeyScript.Text.Digit
import HotkeyScript.Text.Folding

/-!
# Names of keys

Which names a hotkey may give to a key: any single character, a name from the list, a numbered
function key or joystick control, a digit of the number pad, or a scan code or virtual key code. The
number of a joystick may stand in front of its control.

The case of a name does not matter. The names of the list are compared in ASCII. The other forms are
patterns, for which letters that fold to ASCII count (`Text.fold`) and a digit of any script is a
digit. A number with a limit is read as well, and then only ASCII digits make one.
-/

namespace HotkeyScript.KeyName

/-- The keys that have a name of their own. -/
def names : List String :=
  ["LButton", "RButton", "MButton", "XButton1", "XButton2",
   "WheelDown", "WheelUp", "WheelLeft", "WheelRight",
   "CapsLock", "Space", "Tab", "Enter", "Return", "Escape", "Esc", "Backspace", "BS",
   "ScrollLock", "Delete", "Del", "Insert", "Ins", "Home", "End", "PgUp", "PgDn",
   "Up", "Down", "Left", "Right",
   "NumpadIns", "NumpadEnd", "NumpadDown", "NumpadPgDn", "NumpadLeft", "NumpadClear",
   "NumpadRight", "NumpadHome", "NumpadUp", "NumpadPgUp", "NumpadDot", "NumpadDel",
   "NumLock", "NumpadDiv", "NumpadMult", "NumpadAdd", "NumpadSub", "NumpadEnter",
   "LWin", "RWin", "Control", "Ctrl", "Alt", "Shift", "LControl", "LCtrl", "RControl",
   "RCtrl", "LShift", "RShift", "LAlt", "RAlt",
   "Browser_Back", "Browser_Forward", "Browser_Refresh", "Browser_Stop", "Browser_Search",
   "Browser_Favorites", "Browser_Home", "Volume_Mute", "Volume_Down", "Volume_Up",
   "Media_Next", "Media_Prev", "Media_Stop", "Media_Play_Pause", "Launch_Mail",
   "Launch_Media", "Launch_App1", "Launch_App2",
   "AppsKey", "PrintScreen", "CtrlBreak", "Pause", "Break", "Help", "Sleep"]

/-- One or two digits that write a number from one to `limit`. Digits of other scripts match the
pattern and make no number. -/
def isNumberUpTo (limit : Nat) (digits : List Char) : Bool :=
  (digits.length == 1 || digits.length == 2) && digits.all Char.isDigit &&
    1 ≤ Number.digitsValue digits && Number.digitsValue digits ≤ limit

/-- Drops the number of a joystick, from 1 to 16, in front of a joystick control. -/
def dropJoystick (cs : List Char) : List Char :=
  let number := cs.takeWhile Text.isDecimalDigit
  let control := cs.dropWhile Text.isDecimalDigit
  if isNumberUpTo 16 number && (Text.stripStart? "JOY".toList control).isSome then control else cs

/-- A function key, or a control of a joystick. -/
def isNumbered (cs : List Char) : Bool :=
  (Text.stripStart? "F".toList cs).any (isNumberUpTo 24) ||
    (Text.stripStart? "JOY".toList cs).any (isNumberUpTo 32)

/-- A code of `length` digits behind its beginning. -/
def isCodeOf (start : String) (length : Nat) (isDigit : Char → Bool) (cs : List Char) : Bool :=
  (Text.stripStart? start.toList cs).any fun rest => rest.length == length && rest.all isDigit

/-- A digit of a scan code or virtual key code. -/
def isCodeDigit (c : Char) : Bool :=
  Text.isDecimalDigit c || Token.isHexDigit c

/-- A digit of the number pad, a scan code, or a virtual key code. -/
def isCode (cs : List Char) : Bool :=
  isCodeOf "NUMPAD" 1 Text.isDecimalDigit cs || isCodeOf "SC" 3 isCodeDigit cs ||
    isCodeOf "VK" 2 isCodeDigit cs

/-- The text names a key. -/
def isValid (text : String) : Bool :=
  text.length == 1 ||
    let name := dropJoystick text.toList
    names.any (Text.sameText · (String.ofList name)) || isNumbered name || isCode name

end HotkeyScript.KeyName
