import HotkeyScript.Number
import HotkeyScript.Proofs.Token.Lexed

/-!
# Numbers have a value

A token is a number only if it is written like one: `0x` and hexadecimal digits, or decimal digits
with an optional fraction. Every text of these two forms has a value.
-/

namespace HotkeyScript

open Token (isHexDigit hexLength fractionLength decimalLength numberLength runLength)

variable {cs digits fraction : List Char} {c : Char}

/-! ## Texts with a value -/

namespace Number

theorem hexDigit?_isSome (h : isHexDigit c = true) : (hexDigit? c).isSome = true := by
  simp only [isHexDigit, Bool.or_eq_true, Bool.and_eq_true, decide_eq_true_eq] at h
  grind [hexDigit?]

theorem hex?_isSome (high : Float) (h : ∀ c ∈ cs, isHexDigit c = true) :
    (hex? high cs).isSome = true := by
  fun_induction hex? high cs with
  | case1 high => rfl
  | case2 high c cs digit hdigit ih => exact ih fun d hd => h d (List.mem_cons_of_mem c hd)
  | case3 high c cs hnone =>
    have hsome := hexDigit?_isSome (h c List.mem_cons_self)
    rw [hnone] at hsome
    cases hsome

/-- The text is empty, or a point and digits. -/
def IsFraction (fraction : List Char) : Prop :=
  fraction = [] ∨ ∃ digits, fraction = '.' :: digits ∧ digits ≠ [] ∧
    ∀ c ∈ digits, c.isDigit = true

theorem IsFraction.head? (h : IsFraction fraction) :
    ∀ c, fraction.head? = some c → c.isDigit = false := by
  rcases h with rfl | ⟨digits, rfl, -, -⟩
  · rintro c ⟨⟩
  · rintro c ⟨⟩
    decide

theorem IsFraction.of_mem (h : IsFraction fraction) (hc : c ∈ fraction) :
    c.isDigit = true ∨ c = '.' := by
  rcases h with rfl | ⟨digits, rfl, -, hdigits⟩
  · cases hc
  · exact (List.mem_cons.mp hc).symm.imp_left (hdigits c)

theorem decimal?_isSome (hne : digits ≠ []) (hdigits : ∀ c ∈ digits, c.isDigit = true)
    (hfraction : IsFraction fraction) : (decimal? (digits ++ fraction)).isSome = true := by
  have hwhole : (digits ++ fraction).takeWhile Char.isDigit = digits := by
    rw [Source.takeWhile_after hfraction.head?, List.takeWhile_eq_self_iff.mpr hdigits]
  have hrest : (digits ++ fraction).dropWhile Char.isDigit = fraction := by
    have hsplit := List.takeWhile_append_dropWhile (l := digits ++ fraction) (p := Char.isDigit)
    rw [hwhole] at hsplit
    exact List.append_cancel_left hsplit
  rw [decimal?, hwhole, hrest, if_neg (by simpa using hne)]
  rcases hfraction with rfl | ⟨digits, rfl, hne, hall⟩
  · rfl
  · have hdigits : digits.all Char.isDigit = true := List.all_eq_true.mpr hall
    simp [hne, hdigits]

/-- Digits and a point do not write a hexadecimal number. -/
theorem value?_eq_decimal? (h : ∀ c ∈ cs, c.isDigit = true ∨ c = '.') :
    value? cs = decimal? cs := by
  unfold value?
  split
  · next x cs =>
    have hx : (x == 'x' || x == 'X') = false := by
      have hdigit := h x (by simp)
      rw [Bool.eq_false_iff]
      intro hx
      simp only [Bool.or_eq_true, beq_iff_eq] at hx
      rcases hx with rfl | rfl <;> exact absurd hdigit (by decide)
    rw [hx]
    rfl
  · rfl

end Number

/-! ## Numbers of the lexer -/

namespace Token

open Number (IsFraction)

theorem isFraction_fractionLength (cs : List Char) :
    IsFraction (cs.take (fractionLength cs)) := by
  fun_cases fractionLength cs with
  | case1 => exact .inl rfl
  | case2 cs hdigits =>
    rw [Nat.add_comm, List.take_succ_cons]
    refine .inr ⟨_, rfl, ?_, fun c hc => of_mem_take_runLength hc⟩
    rw [take_runLength]
    simpa [runLength] using hdigits
  | case3 => exact .inl rfl

/-- A text that the lexer reads as a number has a value. -/
theorem value?_isSome_of_numberLength (h : numberLength cs ≠ 0) :
    (Number.value? (cs.take (numberLength cs))).isSome = true := by
  unfold numberLength at h ⊢
  split
  · next hhex =>
    rw [if_pos hhex] at h
    simp only [decimalLength] at h ⊢
    split at h
    · exact absurd rfl h
    next hwhole =>
    rw [if_neg hwhole, List.take_add]
    have hne : cs.take (runLength Char.isDigit cs) ≠ [] := by
      rw [take_runLength]
      simpa [runLength] using hwhole
    have hfraction := isFraction_fractionLength (cs.drop (runLength Char.isDigit cs))
    rw [Number.value?_eq_decimal?]
    · exact Number.decimal?_isSome hne (fun c hc => of_mem_take_runLength hc) hfraction
    · intro c hc
      rcases List.mem_append.mp hc with hc | hc
      · exact .inl (of_mem_take_runLength hc)
      · exact hfraction.of_mem hc
  · next hhex =>
    unfold hexLength at hhex ⊢
    split
    · next x cs =>
      split
      · next hx =>
        rw [Nat.add_comm, List.take_succ_cons, List.take_succ_cons, Number.value?,
          if_pos (Bool.and_eq_true_iff.mp hx).1]
        exact Number.hex?_isSome _ fun c hc => of_mem_take_runLength hc
      · next hx => simp [hx] at hhex
    · simp at hhex

theorem wordKind_ne_number (before : Option Char) (word : String) :
    wordKind before word ≠ .number := by
  unfold wordKind
  split_ifs <;> decide

theorem of_lexeme_number {before : Option Char} {fresh : Bool}
    (h : (lexeme before fresh cs).1 = .number) :
    numberLength cs ≠ 0 ∧ (lexeme before fresh cs).2 = numberLength cs := by
  unfold lexeme at h ⊢
  split_ifs at h ⊢ with hnumber
  · exact ⟨by simpa using hnumber, rfl⟩
  · exact absurd h (wordKind_ne_number _ _)

/-- A number of the lexer has a value. -/
theorem Lexed.value?_isSome {source : Source} {token : Token} (h : Lexed source token)
    (hkind : token.kind = .number) : (Number.value? token.text.toList).isSome = true := by
  obtain ⟨hnumber, hlength⟩ := of_lexeme_number ((congrArg Prod.fst h.lexeme).trans hkind)
  rw [h.text_eq_take, hlength]
  exact value?_isSome_of_numberLength hnumber

end Token

end HotkeyScript
