/-!
# Escapes

The grave accent is the escape character of scripts. Before `n`, `r`, `b`, `t`, `v`, `a` and `f` it
stands for a control character, before any other character for that character itself, and at the
end of a text for itself. Two double quotes in a row stand for one.
-/

namespace HotkeyScript.Text

/-- The escape character. -/
def accent : Char := '\x60'

/-- The character that an escaped character stands for. -/
def escaped : Char → Char
  | 'n' => '\n'
  | 'r' => '\r'
  | 'b' => '\x08'
  | 't' => '\t'
  | 'v' => '\x0b'
  | 'a' => '\x07'
  | 'f' => '\x0c'
  | c => c

/-- Replaces escapes and doubled quotes by the characters that they stand for. -/
def unescape : List Char → List Char
  | '\x60' :: c :: cs => escaped c :: unescape cs
  | '"' :: '"' :: cs => '"' :: unescape cs
  | c :: cs => c :: unescape cs
  | [] => []

/-- A text without accents and quotes stands for itself. -/
theorem unescape_eq_self {cs : List Char} (h : ∀ c ∈ cs, c ≠ accent ∧ c ≠ '"') :
    unescape cs = cs := by
  induction cs with
  | nil => rfl
  | cons c cs ih =>
    have hc := h c (by simp)
    rw [unescape, ih fun d hd => h d (by simp [hd])]
    · exact fun d ds hd => absurd hd hc.1
    · exact fun ds hd => absurd hd hc.2

end HotkeyScript.Text
