import HotkeyScript.Proofs.Source.Append
import HotkeyScript.Proofs.Token.Order
import Mathlib.Data.List.Find
import Mathlib.Data.List.TakeWhile

/-!
# Words with spaces between them

Words that are written on one line with a space between any two of them are read back one by one:
the space keeps a word from running into the next.

## Main definitions

* `Token.Word` — the kind and the text of a word, and `Token.spell`, the text of several words.
* `Token.Word.Lexes` — a word before a space is one token of its kind.
* `Token.layout` — the tokens of words with spaces between them.
-/

namespace HotkeyScript.Token

open Source (byteLength)

/-- A word: the kind of token that it is, and its text. -/
structure Word where
  kind : Kind
  text : String
  deriving DecidableEq, Repr, Inhabited

/-- The words with one space between any two of them. -/
def spell (words : List Word) : Source :=
  [' '].intercalate (words.map (·.text.toList))

theorem spell_cons (word : Word) (words : List Word) :
    spell (word :: words) = word.text.toList ++ words.flatMap fun next => ' ' :: next.text.toList := by
  induction words generalizing word with
  | nil => simp [spell, List.intercalate]
  | cons next words ih =>
    have hrest := ih next
    simp only [spell, List.intercalate, List.map_cons, List.intersperse_cons_cons, List.flatten_cons]
      at hrest ⊢
    rw [hrest]
    simp

/-! ## Single words -/

/-- What follows a word: nothing, or a space. -/
def EndsWord (rest : List Char) : Prop :=
  rest = [] ∨ ∃ more, rest = ' ' :: more

theorem EndsWord.eq_space {rest : List Char} (h : EndsWord rest) {d : Char}
    (hd : rest.head? = some d) : d = ' ' := by
  rcases h with rfl | ⟨more, rfl⟩ <;> cases hd
  rfl

/-- The word is one token wherever it stands between spaces. -/
structure Word.Lexes (word : Word) : Prop where
  lexeme : ∀ before fresh rest, before = none ∨ before = some ' ' → EndsWord rest →
    Token.lexeme before fresh (word.text.toList ++ rest) = (word.kind, word.text.toList.length)
  first : ∃ c cs, word.text.toList = c :: cs ∧ Text.isLineBreak c = false ∧
    Text.isBlank c = false ∧ c ≠ Source.byteOrderMark

variable {c : Char} {cs rest : List Char} {p : Char → Bool}

theorem runLength_append (h : ∀ d, rest.head? = some d → p d = false) (cs : List Char) :
    runLength p (cs ++ rest) = runLength p cs := by
  rw [runLength, Source.takeWhile_after h, runLength]

theorem numberLength_eq_zero (hc : c.isDigit = false) (cs : List Char) :
    numberLength (c :: cs) = 0 := by
  have hhex : hexLength (c :: cs) = 0 := by
    unfold hexLength
    split
    · next heq =>
      cases heq
      exact absurd hc (by decide)
    · rfl
  simp [numberLength, hhex, decimalLength, runLength, hc]

theorem isDigit_of_numberLength (h : numberLength (c :: cs) = 0) : c.isDigit = false := by
  rw [Bool.eq_false_iff]
  intro hc
  have hwhole : runLength Char.isDigit (c :: cs) ≠ 0 := by simp [runLength, hc]
  simp only [numberLength, decimalLength] at h
  split at h
  · simp [hwhole] at h
  · simp_all

/-- A text of word characters that does not start with a digit is read as a whole, if no word
character follows. -/
theorem lexeme_of_isWordChar {word : List Char} (hdigit : word.head?.all (!·.isDigit) = true)
    (hne : word ≠ []) (hword : ∀ c ∈ word, isWordChar c = true) (before : Option Char)
    (fresh : Bool) (hrest : ∀ d, rest.head? = some d → isWordChar d = false) :
    lexeme before fresh (word ++ rest) = (wordKind before (String.ofList word), word.length) := by
  have hnumber : numberLength (word ++ rest) = 0 := by
    cases word with
    | nil => exact absurd rfl hne
    | cons c cs => exact numberLength_eq_zero (by simpa using hdigit) _
  have hlength : wordLength (word ++ rest) = word.length := by
    rw [wordLength, runLength_append hrest, runLength]
    rw [List.takeWhile_eq_self_iff.mpr hword]
  have hpos := List.length_pos_iff.mpr hne
  have hne' : (word.length != 0) = true := by
    simpa using hne
  simp only [lexeme, hnumber, hlength, hne', List.take_left, bne_self_eq_false, Bool.false_eq_true,
    if_false, if_true]

/-- Digits are read as a number, if what follows is neither a fraction nor hexadecimal. -/
theorem lexeme_of_isDigit {digits : List Char} (hne : digits ≠ [])
    (hdigits : ∀ c ∈ digits, c.isDigit = true)
    (hrest : ∀ d, rest.head? = some d → d.isDigit = false ∧ d ≠ '.' ∧ d ≠ 'x' ∧ d ≠ 'X')
    (before : Option Char) (fresh : Bool) :
    lexeme before fresh (digits ++ rest) = (.number, digits.length) := by
  have hhex : hexLength (digits ++ rest) = 0 := by
    unfold hexLength
    split
    · next x cs heq =>
      have hx : x ≠ 'x' ∧ x ≠ 'X' := by
        rcases digits with _ | ⟨c, _ | ⟨d, digits⟩⟩
        · exact absurd rfl hne
        · cases heq
          exact (hrest x rfl).2.2
        · cases heq
          have hx := hdigits x (by simp)
          constructor <;> (rintro rfl; cases hx)
      simp [hx.1, hx.2]
    · rfl
  have hwhole : runLength Char.isDigit (digits ++ rest) = digits.length := by
    rw [runLength_append fun d hd => (hrest d hd).1, runLength,
      List.takeWhile_eq_self_iff.mpr hdigits]
  have hfraction : fractionLength rest = 0 := by
    unfold fractionLength
    split
    · next cs => exact absurd rfl (hrest '.' rfl).2.1
    · rfl
  have hlength : numberLength (digits ++ rest) = digits.length := by
    have hne' : digits.length ≠ 0 := by simpa using hne
    simp [numberLength, hhex, decimalLength, hwhole, hne', hfraction]
  have hne' : (digits.length != 0) = true := by simpa using hne
  simp [lexeme, hlength, hne']

/-- A character that is part of no number, word, comment or string starts a symbol. -/
theorem lexeme_of_symbol (hword : isWordChar c = false) (hsemicolon : c ≠ ';') (hquote : c ≠ '"')
    (before : Option Char) (fresh : Bool) (cs : List Char) :
    lexeme before fresh (c :: cs) = (.symbol, max 1 (operatorLength (c :: cs))) := by
  have hdigit : c.isDigit = false := by
    simp only [isWordChar, Char.isAlphanum, Bool.or_eq_false_iff] at hword
    exact hword.1.2
  have hnumber := numberLength_eq_zero hdigit cs
  have hnoword : wordLength (c :: cs) = 0 := by simp [wordLength, runLength, hword]
  have hcomment : commentLength (c :: cs) = 0 := by
    unfold commentLength
    split
    · next heq => exact absurd (List.cons.inj heq).1 hsemicolon
    · rfl
  have hstring : stringLength (c :: cs) = 0 := by
    unfold stringLength
    split
    · next heq => exact absurd (List.cons.inj heq).1 hquote
    · rfl
  by_cases hoperator : operatorLength (c :: cs) = 0
  · simp [lexeme, hnumber, hnoword, hcomment, hstring, hoperator]
  · have hmax : max 1 (operatorLength (c :: cs)) = operatorLength (c :: cs) := by omega
    simp [lexeme, hnumber, hnoword, hcomment, hoperator, hmax]

theorem isPrefixOf_append {word : List Char} (h : ∀ d, rest.head? = some d → d ∉ word)
    (cs : List Char) : word.isPrefixOf (cs ++ rest) = word.isPrefixOf cs := by
  induction word generalizing cs with
  | nil => simp
  | cons e word ih =>
    cases cs with
    | nil =>
      cases rest with
      | nil => rfl
      | cons d rest =>
        have hne : (e == d) = false := by simpa using fun heq => h d rfl (by simp [heq])
        simp [List.isPrefixOf, hne]
    | cons c cs =>
      have := ih (fun d hd hmem => h d hd (List.mem_cons_of_mem _ hmem)) cs
      simp [List.isPrefixOf, this]

theorem operatorLength_append
    (h : ∀ d, rest.head? = some d → ∀ op ∈ operators, d ∉ op.toList) (cs : List Char) :
    operatorLength (cs ++ rest) = operatorLength cs := by
  have hfind : operators.find? (·.toList.isPrefixOf (cs ++ rest)) =
      operators.find? (·.toList.isPrefixOf cs) :=
    List.find?_congr fun op hop => isPrefixOf_append (fun d hd => h d hd op hop) cs
  simp only [operatorLength, hfind]

/-- The text is a symbol by itself: its characters make up an operator, or it is a single character
that starts nothing longer. -/
def isSymbol (text : String) : Bool :=
  match text.toList with
  | [] => false
  | c :: cs =>
    !c.isDigit && !isWordChar c && c != ';' && c != '"' && !Text.isLineBreak c && !Text.isBlank c &&
      c != Source.byteOrderMark &&
      (operatorLength (c :: cs) == (c :: cs).length || operatorLength (c :: cs) == 0 && cs.isEmpty)

theorem lexes_of_isSymbol {text : String} (h : isSymbol text = true) :
    Word.Lexes ⟨.symbol, text⟩ := by
  unfold isSymbol at h
  split at h
  · cases h
  · next c cs htext =>
    simp only [Bool.and_eq_true, Bool.not_eq_true', bne_iff_ne, ne_eq] at h
    obtain ⟨⟨⟨⟨⟨⟨⟨-, hword⟩, hsemicolon⟩, hquote⟩, hbreak⟩, hblank⟩, hmark⟩, hoperator⟩ := h
    refine ⟨fun before fresh rest _ hrest => ?_, c, cs, htext, hbreak, hblank, hmark⟩
    have hspace : ∀ op ∈ operators, ' ' ∉ op.toList := by decide
    have hlength := operatorLength_append (fun d hd => hrest.eq_space hd ▸ hspace) (c :: cs)
    rw [List.cons_append] at hlength
    simp only [htext, List.cons_append]
    rw [lexeme_of_symbol hword hsemicolon hquote, hlength]
    simp only [Bool.or_eq_true, beq_iff_eq, Bool.and_eq_true, List.isEmpty_iff] at hoperator
    rcases hoperator with hoperator | ⟨hzero, rfl⟩
    · simp [hoperator]
    · simp [hzero]

theorem isBlank_of_isWordChar (h : isWordChar c = true) : Text.isBlank c = false := by
  simp only [isWordChar, Char.isAlphanum] at h
  delta Char.isAlpha Char.isUpper Char.isLower at h
  simp only [Char.isDigit, Bool.or_eq_true, Bool.and_eq_true, decide_eq_true_eq, beq_iff_eq,
    UInt32.le_iff_toNat_le, ge_iff_le] at h
  rw [Bool.eq_false_iff]
  intro hblank
  simp only [Text.isBlank, Bool.or_eq_true, Bool.and_eq_true, decide_eq_true_eq, beq_iff_eq] at hblank
  change (((65 ≤ c.toNat ∧ c.toNat ≤ 90) ∨ (97 ≤ c.toNat ∧ c.toNat ≤ 122)) ∨
    (48 ≤ c.toNat ∧ c.toNat ≤ 57)) ∨ c = '_' at h
  rcases h with ((h | h) | h) | rfl
  · omega
  · omega
  · omega
  · exact absurd hblank (by decide)

/-- The text is read as one word, whole. -/
def IsWord (text : String) : Prop :=
  lexeme none true text.toList = (.word, text.toList.length)

theorem IsWord.ne_nil {text : String} (h : IsWord text) : text.toList ≠ [] := by
  intro hnil
  rw [IsWord, hnil] at h
  exact absurd h (by decide)

/-- A word is made up of word characters, does not start with a digit, and is no operator. -/
theorem IsWord.chars {text : String} (h : IsWord text) :
    text.toList.head?.all (!·.isDigit) = true ∧ (∀ c ∈ text.toList, isWordChar c = true) ∧
      wordKind none text = .word := by
  have hne := h.ne_nil
  unfold IsWord lexeme at h
  split at h
  · cases (Prod.mk.inj h).1
  · next hnumber =>
    split at h
    · obtain ⟨hkind, hlength⟩ := Prod.mk.inj h
      rw [hlength, List.take_length, String.ofList_toList] at hkind
      have hwhole : text.toList.takeWhile isWordChar = text.toList :=
        (List.takeWhile_prefix _).eq_of_length hlength
      refine ⟨?_, List.takeWhile_eq_self_iff.mp hwhole, hkind⟩
      cases htext : text.toList with
      | nil => exact absurd htext hne
      | cons c cs =>
        rw [htext] at hnumber
        have := isDigit_of_numberLength (by simpa using hnumber)
        simpa using this
    · split at h
      · cases (Prod.mk.inj h).1
      · split at h
        · cases (Prod.mk.inj h).1
        · split at h <;> cases (Prod.mk.inj h).1

theorem IsWord.unbroken {text : String} (h : IsWord text) : Text.Unbroken text.toList := by
  intro c hc
  have hchar := h.chars.2.1 c hc
  refine Bool.eq_false_iff.mpr fun hbreak => ?_
  rcases Text.isLineBreak_iff.mp hbreak with rfl | rfl <;> exact absurd hchar (by decide)

/-- A word that does not start with a digit is one token; its kind is that of a word that stands
alone. -/
theorem lexes_of_isWordChar {text : String} (hdigit : text.toList.head?.all (!·.isDigit) = true)
    (hne : text.toList ≠ []) (hword : ∀ c ∈ text.toList, isWordChar c = true) :
    Word.Lexes ⟨wordKind none text, text⟩ := by
  refine ⟨fun before fresh rest hbefore hrest => ?_, ?_⟩
  · have hspace : isWordChar ' ' = false := by decide
    have hkind : wordKind before text = wordKind none text := by
      rcases hbefore with rfl | rfl <;> simp [wordKind, hspace]
    have hends : ∀ d, rest.head? = some d → isWordChar d = false :=
      fun d hd => hrest.eq_space hd ▸ hspace
    rw [lexeme_of_isWordChar hdigit hne hword before fresh hends, String.ofList_toList, hkind]
  · obtain ⟨c, cs, htext⟩ := List.exists_cons_of_ne_nil hne
    have hc := hword c (by simp [htext])
    have hmark : c ≠ Source.byteOrderMark := by
      rintro rfl
      exact absurd hc (by decide)
    refine ⟨c, cs, htext, ?_, isBlank_of_isWordChar hc, hmark⟩
    have hunbroken := unbroken_runLength (p := isWordChar) (by decide) (by decide) (c :: cs)
    exact hunbroken c (by simp [runLength, hc])

theorem lexes_of_isWord {text : String} (h : IsWord text) : Word.Lexes ⟨.word, text⟩ := by
  obtain ⟨hdigit, hword, hkind⟩ := h.chars
  rw [← hkind]
  exact lexes_of_isWordChar hdigit h.ne_nil hword

/-! ## Words in a row -/

/-- The tokens of the words from a place on, with one space between any two of them. -/
def layout (place : Place) : List Word → List Token
  | [] => []
  | word :: words =>
    place.token word.kind word.text.toList ::
      layout ((place.afterToken word.text.toList).afterBlank ' ') words

theorem scan_blank {oneLine : Bool} {place : Place} (hbreak : Text.isLineBreak c = false)
    (hblank : Text.isBlank c = true) :
    scan oneLine place (c :: cs) = scan oneLine (place.afterBlank c) cs := by
  have hne : ∀ more, c = '\r' → cs = '\n' :: more → False := by
    rintro more rfl -
    exact absurd hbreak (by decide)
  rw [scan, hbreak, hblank]
  · rfl
  · exact hne

theorem scan_word {oneLine : Bool} {place : Place} {word : Word} (h : word.Lexes)
    (hbefore : place.before = none ∨ place.before = some ' ') (hrest : EndsWord rest) :
    scan oneLine place (word.text.toList ++ rest) = place.token word.kind word.text.toList ::
      scan oneLine (place.afterToken word.text.toList) rest := by
  have hlexeme := h.lexeme place.before place.fresh rest hbefore hrest
  obtain ⟨c, cs, htext, hbreak, hblank, -⟩ := h.first
  have hne : ∀ more, c = '\r' → cs ++ rest = '\n' :: more → False := by
    rintro more rfl -
    exact absurd hbreak (by decide)
  rw [htext, List.cons_append] at hlexeme ⊢
  rw [scan, hbreak, hblank, hlexeme]
  · simp
  · exact hne

/-- Words with spaces between them are read as they were written. -/
theorem scan_spell {oneLine : Bool} {place : Place} {words : List Word}
    (h : ∀ word ∈ words, word.Lexes)
    (hbefore : place.before = none ∨ place.before = some ' ') :
    scan oneLine place (spell words) = layout place words := by
  induction words generalizing place with
  | nil => simp [spell, List.intercalate, scan, layout]
  | cons word words ih =>
    have hword := h word List.mem_cons_self
    cases words with
    | nil =>
      have hlast : scan oneLine place (word.text.toList ++ []) = _ :=
        scan_word hword hbefore (.inl rfl)
      rw [List.append_nil] at hlast
      rw [spell_cons, List.flatMap_nil, List.append_nil, hlast]
      simp [scan, layout]
    | cons next words =>
      have hspell : spell (word :: next :: words) =
          word.text.toList ++ ' ' :: spell (next :: words) := by
        rw [spell_cons, spell_cons, List.flatMap_cons, List.cons_append]
      have hrest := @ih ((place.afterToken word.text.toList).afterBlank ' ')
        (fun other hother => h other (List.mem_cons_of_mem _ hother)) (.inr rfl)
      rw [hspell, scan_word hword hbefore (.inr ⟨_, rfl⟩), scan_blank (by decide) (by decide),
        hrest]
      rfl

theorem tokenize_spell {words : List Word} (h : ∀ word ∈ words, word.Lexes) :
    tokenize (spell words) = layout {} words := by
  have hstart : start (spell words) = ({}, spell words) := by
    cases words with
    | nil => rfl
    | cons word words =>
      obtain ⟨c, cs, htext, -, -, hmark⟩ := (h word List.mem_cons_self).first
      rw [spell_cons, htext, List.cons_append, start, if_neg hmark]
  rw [tokenize, hstart]
  exact scan_spell h (.inl rfl)

theorem map_layout (place : Place) (words : List Word) :
    (layout place words).map (fun token => ⟨token.kind, token.text⟩) = words := by
  induction words generalizing place with
  | nil => rfl
  | cons word words ih => simp [layout, ih, Place.token, String.ofList_toList]

/-- The words of a row stand on one line. -/
theorem line_layout {place : Place} {words : List Word} {token : Token}
    (h : token ∈ layout place words) : token.span.line = place.line := by
  induction words generalizing place with
  | nil => cases h
  | cons word words ih =>
    rcases List.mem_cons.mp h with rfl | h
    · rfl
    · have hline := ih h
      exact hline

/-- Only the first word of a row may open a line. -/
theorem opensLine_layout {place : Place} {words : List Word} {token : Token}
    (h : token ∈ layout place words) (hplace : place.fresh = false) : token.opensLine = false := by
  induction words generalizing place with
  | nil => cases h
  | cons word words ih =>
    rcases List.mem_cons.mp h with rfl | h
    · exact hplace
    · exact ih h rfl

theorem le_start_layout {place : Place} {words : List Word} {token : Token}
    (h : token ∈ layout place words) : place.offset ≤ token.span.start := by
  induction words generalizing place with
  | nil => cases h
  | cons word words ih =>
    rcases List.mem_cons.mp h with rfl | h
    · exact Nat.le_refl _
    · have hle := ih h
      simp only [Place.afterBlank, Place.afterToken] at hle
      omega

/-- The words of a row do not touch. -/
theorem pairwise_layout (place : Place) (words : List Word) :
    (layout place words).Pairwise fun token next => token.span.stop < next.span.start := by
  induction words generalizing place with
  | nil => exact .nil
  | cons word words ih =>
    refine List.pairwise_cons.mpr ⟨fun next hnext => ?_, ih _⟩
    have hle := le_start_layout hnext
    have hspace : ' '.utf8Size = 1 := rfl
    simp only [Place.afterBlank, Place.afterToken, Place.token] at hle ⊢
    omega

end HotkeyScript.Token
