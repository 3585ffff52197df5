import HotkeyScript.Text.Escape

/-!
# Texts written with escapes

A text is written character by character so that its escapes stand for it again: a line break is an
accent and a letter, and an accent is doubled. What else has to be written in a special way depends
on where the text stands; `other` says it. All that matters of `other` is that what it writes for a
character stands for that character, whatever follows.

## Main definitions

* `Text.written` — how a character is written.
-/

namespace HotkeyScript.Text

variable {c : Char} {other : Char → List Char} {text : List Char}

/-- A character as it is written: line breaks and accents by an escape, and any other character as
`other` says. -/
def written (other : Char → List Char) (c : Char) : List Char :=
  if c = '\n' then [accent, 'n']
  else if c = '\r' then [accent, 'r']
  else if c = accent then [accent, accent]
  else other c

@[simp] theorem unescape_accent (c : Char) (rest : List Char) :
    unescape (accent :: c :: rest) = escaped c :: unescape rest := rfl

@[simp] theorem unescape_quotes (rest : List Char) :
    unescape ('"' :: '"' :: rest) = '"' :: unescape rest := rfl

theorem unescape_cons (haccent : c ≠ accent) (hquote : c ≠ '"') (rest : List Char) :
    unescape (c :: rest) = c :: unescape rest := by
  rw [unescape]
  · exact fun _ _ hc => absurd hc haccent
  · exact fun _ hc => absurd hc hquote

/-- An accent and the character behind it stand for one character. -/
theorem length_unescape_lt (hquote : '"' ∉ text) (haccent : accent ∈ text)
    (hlast : text.getLast? ≠ some accent) : (unescape text).length < text.length := by
  have hle : ∀ cs : List Char, (unescape cs).length ≤ cs.length := by
    intro cs
    fun_induction unescape cs <;> simp <;> omega
  induction text with
  | nil => cases haccent
  | cons c text ih =>
    by_cases hc : c = accent
    · subst hc
      cases text with
      | nil => exact absurd rfl hlast
      | cons d text =>
        rw [unescape_accent, List.length_cons, List.length_cons, List.length_cons]
        have := hle text
        omega
    · have hmem : accent ∈ text := (List.mem_cons.mp haccent).resolve_left (Ne.symm hc)
      obtain ⟨hne, hquote⟩ := not_or.mp (mt List.mem_cons.mpr hquote)
      rw [unescape_cons hc (Ne.symm hne), List.length_cons, List.length_cons]
      refine Nat.succ_lt_succ (ih hquote hmem fun hlast' => hlast ?_)
      rw [List.getLast?_cons, hlast']
      rfl

/-- Without quotes, a text stands for itself only if it has no accent but one at its end. -/
theorem unescape_eq_self_iff (hquote : '"' ∉ text) (hlast : text.getLast? ≠ some accent) :
    unescape text = text ↔ accent ∉ text := by
  constructor
  · intro hself haccent
    have hlt := length_unescape_lt hquote haccent hlast
    rw [hself] at hlt
    exact Nat.lt_irrefl _ hlt
  · intro haccent
    refine unescape_eq_self fun c hc => ⟨?_, ?_⟩ <;> rintro rfl
    · exact haccent hc
    · exact hquote hc

/-- The characters that neither start an escape nor break a line are left to `other`. -/
theorem written_cases (other : Char → List Char) (c : Char) :
    (∃ letter, written other c = [accent, letter] ∧ escaped letter = c ∧
        (letter = 'n' ∨ letter = 'r' ∨ letter = accent)) ∨
      c ≠ '\n' ∧ c ≠ '\r' ∧ c ≠ accent ∧ written other c = other c := by
  unfold written
  split
  · next h => exact .inl ⟨'n', rfl, h.symm, .inl rfl⟩
  split
  · next h => exact .inl ⟨'r', rfl, h.symm, .inr (.inl rfl)⟩
  split
  · next h => exact .inl ⟨accent, rfl, h.symm, .inr (.inr rfl)⟩
  · next hfeed hreturn haccent => exact .inr ⟨hfeed, hreturn, haccent, rfl⟩

/-- A written text stands for the text. -/
theorem unescape_flatMap_written
    (hother : ∀ c ∈ text, c ≠ accent → ∀ rest, unescape (other c ++ rest) = c :: unescape rest) :
    unescape (text.flatMap (written other)) = text := by
  induction text with
  | nil => rfl
  | cons c text ih =>
    have hrest := ih fun d hd => hother d (List.mem_cons_of_mem _ hd)
    rw [List.flatMap_cons]
    rcases written_cases other c with ⟨letter, hwritten, hletter, -⟩ | ⟨-, -, haccent, hwritten⟩
    · rw [hwritten, List.cons_append, List.cons_append, List.nil_append, unescape_accent, hletter,
        hrest]
    · rw [hwritten, hother c List.mem_cons_self haccent, hrest]

end HotkeyScript.Text
