/-!
# Comparison without regard to ASCII case

Keywords, operators that are words, and key names are compared after the letters `A` to `Z` are
lowered. No other character changes, so two texts that compare equal have the same length.
-/

namespace HotkeyScript.Text

/-- Lowers the letters `A` to `Z` of a text. -/
def lower (text : String) : String :=
  String.ofList (text.toList.map Char.toLower)

/-- The two texts differ at most in the case of ASCII letters. -/
def sameText (a b : String) : Bool :=
  a.toList.map Char.toLower == b.toList.map Char.toLower

/-- A text is the same as itself. -/
@[simp] theorem sameText_refl (a : String) : sameText a a = true := by
  simp [sameText]

/-- The order of the two texts does not matter. -/
theorem sameText_comm (a b : String) : sameText a b = sameText b a := by
  simp only [sameText]
  exact BEq.comm

/-- Texts that compare equal have equally many characters. -/
theorem length_eq_of_sameText {a b : String} (h : sameText a b = true) :
    a.toList.length = b.toList.length := by
  simp only [sameText, beq_iff_eq] at h
  simpa using congrArg List.length h

end HotkeyScript.Text
