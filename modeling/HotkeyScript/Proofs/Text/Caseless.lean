import HotkeyScript.Text.Caseless

/-!
# Texts without letters

Case matters for letters only: a text that has none is the same as no other.
-/

namespace HotkeyScript.Text

theorem eq_of_toLower_eq {c d : Char} (h : c.toLower = d) (hd : ¬ ('a' ≤ d ∧ d ≤ 'z')) : c = d := by
  delta Char.toLower at h
  by_cases hc : c.val ≥ 'A'.val ∧ c.val ≤ 'Z'.val
  · -- an upper case letter is lowered to a lower case one
    rw [dif_pos hc] at h
    subst h
    refine absurd ?_ hd
    simp only [Char.le_def, UInt32.le_iff_toNat_le] at hc ⊢
    obtain ⟨hlow, hhigh⟩ := hc
    have hA : 'A'.val.toNat = 65 := rfl
    have hZ : 'Z'.val.toNat = 90 := rfl
    have ha : 'a'.val.toNat = 97 := rfl
    have hz : 'z'.val.toNat = 122 := rfl
    have hsum : (c.val + ('a'.val - 'A'.val)).toNat = c.val.toNat + 32 := by
      have hstep : ('a'.val - 'A'.val).toNat = 32 := rfl
      rw [UInt32.toNat_add, hstep]
      exact Nat.mod_eq_of_lt (by omega)
    omega
  · rwa [dif_neg hc] at h

/-- A text of one character that is no letter is only the same as itself. -/
theorem eq_singleton_of_sameText {text : String} {c : Char}
    (h : sameText text (String.singleton c) = true) (hc : ¬ ('a' ≤ c ∧ c ≤ 'z'))
    (hlower : c.toLower = c) : text = String.singleton c := by
  rw [String.singleton_eq_ofList] at h ⊢
  simp only [sameText, String.toList_ofList, List.map_cons, List.map_nil, hlower, beq_iff_eq] at h
  obtain ⟨d, rest, htext, hd, hrest⟩ := List.map_eq_cons_iff.mp h
  rw [List.map_eq_nil_iff.mp hrest, eq_of_toLower_eq hd hc] at htext
  rw [← htext, String.ofList_toList]

end HotkeyScript.Text
