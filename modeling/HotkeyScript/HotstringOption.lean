import HotkeyScript.Text.Digit
import HotkeyScript.Text.Folding
import HotkeyScript.Token.Lexeme

/-!
# Options of hotstrings

The text between the first two colons of a hotstring is a sequence of options without anything
between them. An option is a short code, some of them with a number behind. The codes are tried in
order, so a longer code stands before its own beginning.

The case of a letter does not matter, and letters of other scripts that fold to it count as well
(`Text.fold`). A digit of any script is a digit.

## Main definitions

* `HotstringOption.Form` — the forms of an option, and how long a match of one is.
* `HotstringOption.split` — the options of a text.
-/

namespace HotkeyScript.HotstringOption

/-- A form of an option: a code in upper case, and whether a number follows it. -/
structure Form where
  code : String
  numbered : Bool := false
  deriving DecidableEq, Repr, Inhabited

/-- The forms of options in the order in which they are tried. -/
def forms : List Form :=
  [⟨"*", false⟩, ⟨"?", false⟩, ⟨"B0", false⟩, ⟨"B", false⟩, ⟨"C0", false⟩, ⟨"C1", false⟩,
   ⟨"C", false⟩, ⟨"K-1", false⟩, ⟨"K", true⟩, ⟨"O0", false⟩, ⟨"O", false⟩, ⟨"P", true⟩,
   ⟨"R0", false⟩, ⟨"R", false⟩, ⟨"SI", false⟩, ⟨"SP", false⟩, ⟨"SE", false⟩, ⟨"T0", false⟩,
   ⟨"T", false⟩, ⟨"X", false⟩, ⟨"Z0", false⟩, ⟨"Z", false⟩]

/-- The length of the longest match of a form at the start of a text; zero when there is none. -/
def Form.matchLength (form : Form) (cs : List Char) : Nat :=
  match Text.stripStart? form.code.toList cs with
  | none => 0
  | some rest =>
    if form.numbered then
      let digits := Token.runLength Text.isDecimalDigit rest
      if digits == 0 then 0 else form.code.length + digits
    else form.code.length

/-- The length of the option at the start of a text; zero when there is none. -/
def matchLength (cs : List Char) : Nat :=
  match forms.find? (·.matchLength cs != 0) with
  | some form => form.matchLength cs
  | none => 0

/-- The options of a text; none unless the whole text is made of options. -/
def split (cs : List Char) : Option (List String) :=
  if cs.isEmpty then some []
  else
    let length := matchLength cs
    if length == 0 then none
    else (split (cs.drop length)).map (String.ofList (cs.take length) :: ·)
termination_by cs.length
decreasing_by
  rename_i hne hlen
  have : 0 < cs.length := by
    cases cs
    · simp at hne
    · simp
  have : length ≠ 0 := by simpa using hlen
  simp only [List.length_drop]
  omega

end HotkeyScript.HotstringOption
