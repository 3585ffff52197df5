import HotkeyScript.Operator
import HotkeyScript.Proofs.Text.Caseless
import HotkeyScript.Proofs.Token.Spaced

/-!
# The kinds of tokens

What the kind of a token says about its text. An operator is a symbol, whether it is spelled with a
word or with other characters, a word is made up of word characters, and a string stands between its
quotes.

## Main definitions

* `Operator.IsOperator` — the text of an operator, before its operand or between two.
* `Token.WellKinded` — the kind of a token fits its text.
-/

namespace HotkeyScript

/-! ## The texts of operators -/

namespace Operator

/-- The text is an operator. -/
def IsOperator (text : String) : Prop :=
  (leading? text).isSome = true ∨ (binary? text).isSome = true

instance (text : String) : Decidable (IsOperator text) :=
  inferInstanceAs (Decidable (_ ∨ _))

theorem precedence?_congr {table : List (String × Nat)} {a b : String}
    (h : Text.sameText a b = true) : precedence? table a = precedence? table b := by
  have hlower : a.toList.map Char.toLower = b.toList.map Char.toLower := by
    simpa [Text.sameText] using h
  simp only [precedence?, Text.sameText, hlower]

theorem isOperator_congr {a b : String} (h : Text.sameText a b = true) :
    IsOperator a ↔ IsOperator b := by
  simp only [IsOperator, leading?, binary?, precedence?_congr h]

theorem exists_of_precedence? {table : List (String × Nat)} {text : String}
    (h : (precedence? table text).isSome = true) :
    ∃ entry ∈ table, Text.sameText entry.1 text = true := by
  simp only [precedence?, Option.isSome_map, List.find?_isSome] at h
  exact h

/-- The first character of an operator that is no word: it stays the same in lower case and starts
no other token. -/
def leadsSymbol (c : Char) : Bool :=
  !Token.isWordChar c && c != ';' && c != '"' && c.toLower == c && !('a' ≤ c && c ≤ 'z')

/-- An operator is a word, or it starts with a character of its own. -/
theorem IsOperator.cases {text : String} (h : IsOperator text) :
    (∃ word ∈ Token.wordOperators, Text.sameText text word = true) ∨
      ∃ c, text.toList.head? = some c ∧ leadsSymbol c = true := by
  have htables : ∀ entry ∈ leadingTable ++ binaryTable, entry.1 ∈ Token.wordOperators ∨
      entry.1.toList.head?.any leadsSymbol = true := by decide
  obtain ⟨entry, hentry, hsame⟩ : ∃ entry ∈ leadingTable ++ binaryTable,
      Text.sameText entry.1 text = true := by
    rcases h with h | h
    · obtain ⟨entry, hentry, hsame⟩ := exists_of_precedence? h
      exact ⟨entry, List.mem_append_left _ hentry, hsame⟩
    · obtain ⟨entry, hentry, hsame⟩ := exists_of_precedence? h
      exact ⟨entry, List.mem_append_right _ hentry, hsame⟩
  rcases htables entry hentry with hword | hfirst
  · exact .inl ⟨entry.1, hword, by rwa [Text.sameText_comm]⟩
  · obtain ⟨d, hd, hleads⟩ := (Option.any_eq_true _ _).mp hfirst
    have hlower : text.toList.head?.map Char.toLower = some d.toLower := by
      simp only [Text.sameText, beq_iff_eq] at hsame
      rw [← List.head?_map, ← hsame, List.head?_map, hd, Option.map_some]
    obtain ⟨c, hc, hcd⟩ := Option.map_eq_some_iff.mp hlower
    have hfixed := hleads
    simp only [leadsSymbol, Bool.and_eq_true, beq_iff_eq, Bool.not_eq_true', Bool.and_eq_false_iff,
      decide_eq_false_iff_not] at hfixed
    have heq : c = d := Text.eq_of_toLower_eq (hcd.trans hfixed.1.2) (by
      rintro ⟨hlow, hhigh⟩
      exact hfixed.2.elim (· hlow) (· hhigh))
    exact .inr ⟨c, hc, by rwa [heq]⟩

end Operator

namespace Token

open Operator (IsOperator)

/-! ## Tokens -/

/-- The kind of the token fits its text: an operator is a symbol, a word is made up of word
characters, and a string stands between its quotes. -/
structure WellKinded (token : Token) : Prop where
  operator : IsOperator token.text → token.kind = .symbol
  word : token.kind = .word → ∀ c ∈ token.text.toList, isWordChar c = true
  string : token.kind = .string → ∃ inside, token.text.toList = '"' :: (inside ++ ['"'])

/-- A text that starts with neither a letter nor a character of an operator is no operator. -/
theorem not_isOperator {text : String} {c : Char} (hc : text.toList.head? = some c)
    (hword : Operator.leadsSymbol c = false) (hletter : c.toLower = c ∧ ¬ ('a' ≤ c ∧ c ≤ 'z')) :
    ¬ IsOperator text := by
  intro h
  rcases h.cases with ⟨word, hmem, hsame⟩ | ⟨d, hd, hleads⟩
  · have hwords : ∀ word ∈ wordOperators, ∃ d, word.toList.head? = some d ∧ d.toLower = d ∧
        'a' ≤ d ∧ d ≤ 'z' := by
      simp only [wordOperators, List.forall_mem_cons, List.not_mem_nil, false_implies, implies_true,
        and_true]
      exact ⟨⟨'n', by decide⟩, ⟨'n', by decide⟩, ⟨'a', by decide⟩, ⟨'o', by decide⟩⟩
    obtain ⟨d, hd, hlower, hrange⟩ := hwords word hmem
    simp only [Text.sameText, beq_iff_eq] at hsame
    have hfirst : text.toList.head?.map Char.toLower = word.toList.head?.map Char.toLower := by
      rw [← List.head?_map, hsame, List.head?_map]
    simp only [hc, hd, Option.map_some, Option.some.injEq, hlower, hletter.1] at hfirst
    exact hletter.2 (hfirst ▸ hrange)
  · cases hc.symm.trans hd
    rw [hword] at hleads
    cases hleads

theorem toLower_of_isDigit {c : Char} (h : c.isDigit = true) :
    c.toLower = c ∧ ¬ ('a' ≤ c ∧ c ≤ 'z') := by
  simp only [Char.isDigit, ge_iff_le, Bool.and_eq_true, decide_eq_true_eq,
    UInt32.le_iff_toNat_le] at h
  change 48 ≤ c.val.toNat ∧ c.val.toNat ≤ 57 at h
  constructor
  · delta Char.toLower
    refine dif_neg ?_
    rintro ⟨hlow, -⟩
    change 65 ≤ c.val.toNat at hlow
    omega
  · rintro ⟨hlow, -⟩
    change 97 ≤ c.val.toNat at hlow
    omega

theorem isWordChar_of_isDigit {c : Char} (h : c.isDigit = true) : isWordChar c = true := by
  simp [isWordChar, Char.isAlphanum, h]

/-- A number, a comment or a string is no operator, by its first character. -/
theorem not_isOperator_cons {c : Char} {cs : List Char}
    (hc : c.isDigit = true ∨ c = ';' ∨ c = '"') : ¬ IsOperator (String.ofList (c :: cs)) := by
  refine not_isOperator (by rw [String.toList_ofList]; rfl) ?_ ?_
  · rcases hc with hc | rfl | rfl
    · simp [Operator.leadsSymbol, isWordChar_of_isDigit hc]
    · decide
    · decide
  · rcases hc with hc | rfl | rfl
    · exact toLower_of_isDigit hc
    · decide
    · decide

/-- An operator that is made up of word characters is a symbol. -/
theorem wordKind_of_isOperator {before : Option Char} {word : String} (h : IsOperator word)
    (hchars : ∀ c ∈ word.toList, isWordChar c = true) : wordKind before word = .symbol := by
  rcases h.cases with ⟨op, hop, hsame⟩ | ⟨c, hc, hleads⟩
  · have hbooleans : ∀ op ∈ wordOperators,
        Text.sameText op "true" = false ∧ Text.sameText op "false" = false := by decide
    have hcongr : ∀ text, Text.sameText word text = Text.sameText op text := by
      intro text
      simp only [Text.sameText, beq_iff_eq] at hsame ⊢
      rw [hsame]
    have hany : wordOperators.any (Text.sameText word ·) = true :=
      List.any_eq_true.mpr ⟨op, hop, hsame⟩
    rw [wordKind, if_neg (by simp [hcongr, hbooleans op hop]), if_pos hany]
  · simp [Operator.leadsSymbol, hchars c (List.mem_of_mem_head? hc)] at hleads

/-- The text up to the quote that closes a string ends with that quote. -/
theorem take_closingQuote {cs : List Char} {n : Nat} (h : closingQuote cs = some n) :
    ∃ inside, cs.take n = inside ++ ['"'] := by
  fun_induction closingQuote cs generalizing n with
  | case1 cs ih =>
    obtain ⟨m, hm, rfl⟩ := Option.map_eq_some_iff.mp h
    obtain ⟨inside, hinside⟩ := ih hm
    exact ⟨'"' :: '"' :: inside, by simp [hinside]⟩
  | case2 c cs hne hquote =>
    cases h
    exact ⟨[], by simpa using hquote⟩
  | case3 => cases h
  | case4 c cs hne hquote hbreak ih =>
    obtain ⟨m, hm, rfl⟩ := Option.map_eq_some_iff.mp h
    obtain ⟨inside, hinside⟩ := ih hm
    exact ⟨c :: inside, by simp [hinside]⟩
  | case5 => cases h

/-- A string that is closed on its line stands between its quotes. -/
theorem take_stringLength {cs : List Char} (h : stringLength cs ≠ 0) :
    ∃ inside, cs.take (stringLength cs) = '"' :: (inside ++ ['"']) := by
  fun_cases stringLength cs with
  | case1 cs =>
    cases hquote : closingQuote cs with
    | none => simp [stringLength, hquote] at h
    | some n =>
      obtain ⟨inside, hinside⟩ := take_closingQuote hquote
      exact ⟨inside, by simp [hinside]⟩
  | case2 =>
    rename_i hne
    exact absurd (stringLength.eq_2 cs hne) h

theorem wordKind_ne_string (before : Option Char) (word : String) :
    wordKind before word ≠ .string := by
  unfold wordKind
  split
  · decide
  · split <;> decide

theorem wellKinded_lexeme (place : Place) (c : Char) (cs : List Char) :
    WellKinded (place.token (lexeme place.before place.fresh (c :: cs)).1
      ((c :: cs).take (lexeme place.before place.fresh (c :: cs)).2)) := by
  have hcons : ∀ n, n ≠ 0 → (c :: cs).take n = c :: cs.take (n - 1) := by
    intro n hn
    cases n with
    | zero => exact absurd rfl hn
    | succ n => rfl
  have hother : ∀ kind n, n ≠ 0 → kind ≠ .word → c.isDigit = true ∨ c = ';' ∨ c = '"' →
      (kind = .string → ∃ inside, (c :: cs).take n = '"' :: (inside ++ ['"'])) →
      WellKinded (place.token kind ((c :: cs).take n)) := by
    intro kind n hn hkind hc hstring
    refine ⟨fun hoperator => ?_, fun hword => absurd hword hkind, ?_⟩
    · rw [hcons n hn] at hoperator
      exact absurd hoperator (not_isOperator_cons hc)
    · simpa [Place.token, String.toList_ofList] using hstring
  have hsymbol : ∀ n, WellKinded (place.token .symbol ((c :: cs).take n)) :=
    fun n => ⟨fun _ => rfl, fun hword => (by cases hword), fun hstring => (by cases hstring)⟩
  unfold lexeme
  split
  · next hnumber =>
    refine hother .number _ (by simpa using hnumber) (by decide) (.inl ?_) (by simp)
    by_contra hdigit
    rw [Bool.not_eq_true] at hdigit
    simp [numberLength_eq_zero hdigit] at hnumber
  · split
    · have hchars : ∀ d ∈ (c :: cs).take (wordLength (c :: cs)), isWordChar d = true := by
        rw [wordLength, take_runLength]
        exact fun d hd => List.all_eq_true.mp List.all_takeWhile d hd
      refine ⟨fun hoperator => wordKind_of_isOperator hoperator ?_, fun _ => ?_, fun hstring => ?_⟩
      · simpa [String.toList_ofList] using hchars
      · simpa [Place.token, String.toList_ofList] using hchars
      · exact absurd hstring (wordKind_ne_string _ _)
    · split
      · next hcomment =>
        simp only [Bool.and_eq_true, bne_iff_ne, ne_eq] at hcomment
        refine hother .comment _ hcomment.2 (by decide) (.inr (.inl ?_)) (by simp)
        unfold commentLength at hcomment
        split at hcomment
        · next heq => exact (List.cons.inj heq).1
        · exact absurd rfl hcomment.2
      · split
        · exact hsymbol _
        · split
          · next hstring =>
            simp only [bne_iff_ne, ne_eq] at hstring
            obtain ⟨inside, hinside⟩ := take_stringLength hstring
            have hquote : c = '"' := by
              rw [hcons _ hstring] at hinside
              exact (List.cons.inj hinside).1
            exact hother .string _ hstring (by decide) (.inr (.inr hquote))
              fun _ => ⟨inside, hinside⟩
          · exact hsymbol _

theorem scan_wellKinded (oneLine : Bool) (place : Place) (cs : List Char) :
    ∀ token ∈ scan oneLine place cs, WellKinded token := by
  fun_induction scan oneLine place cs with
  | case1 | case2 | case4 => exact List.forall_mem_nil _
  | case3 place cs honeLine ih => exact ih
  | case5 place c cs hne hbreak honeLine ih => exact ih
  | case6 place c cs hne hbreak hblank ih => exact ih
  | case7 place c cs hne hbreak hblank next text =>
    rename_i ih
    exact List.forall_mem_cons.mpr ⟨wellKinded_lexeme place c cs, ih⟩

end Token

end HotkeyScript
