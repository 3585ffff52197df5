import HotkeyScript.Proofs.Token.Separate
import HotkeyScript.Proofs.Token.Spaced

/-!
# Symbols

A symbol is one character, an operator of several characters, or a word that is an operator. The
colon is part of one operator only, so two colons in a row are two tokens unless an equals sign
follows.
-/

namespace HotkeyScript.Token

variable {source : Source} {token : Token} {cs : List Char}

/-- What the longest operator takes of a text is an operator. -/
theorem take_operatorLength (h : operatorLength cs ≠ 0) :
    String.ofList (cs.take (operatorLength cs)) ∈ operators := by
  cases hfind : operators.find? (·.toList.isPrefixOf cs) with
  | none => simp [operatorLength, hfind] at h
  | some op =>
    have hmatch := List.find?_some hfind
    have hstarts : op.toList <+: cs := List.isPrefixOf_iff_prefix.mp hmatch
    have hlength : operatorLength cs = op.toList.length := by
      simp only [operatorLength, hfind, String.length_toList]
    rw [hlength, ← List.prefix_iff_eq_take.mp hstarts, String.ofList_toList]
    exact List.mem_of_find?_eq_some hfind

theorem operatorLength_eq_zero (h : ∀ op ∈ operators, ¬op.toList <+: cs) :
    operatorLength cs = 0 := by
  have hfind : operators.find? (·.toList.isPrefixOf cs) = none :=
    List.find?_eq_none.mpr fun op hop hmatch => h op hop (List.isPrefixOf_iff_prefix.mp hmatch)
  simp [operatorLength, hfind]

/-- Of the operators that start a text the longest is read. -/
theorem operatorLength_eq_length {op : String} (hop : op ∈ operators) (hstarts : op.toList <+: cs)
    (hlongest : ∀ other ∈ operators, other.toList <+: cs → other.length ≤ op.length) :
    operatorLength cs = op.length := by
  have hsorted : operators.Pairwise fun op later => later.length ≤ op.length := by decide
  cases hfind : operators.find? (·.toList.isPrefixOf cs) with
  | none =>
    exact absurd (List.isPrefixOf_iff_prefix.mpr hstarts) (List.find?_eq_none.mp hfind op hop)
  | some first =>
    obtain ⟨hmatch, earlier, later, hsplit, hearlier⟩ := List.find?_eq_some_iff_append.mp hfind
    have hle := hlongest first (List.mem_of_find?_eq_some hfind)
      (List.isPrefixOf_iff_prefix.mp hmatch)
    -- no operator in front of the first match starts the text, and none behind it is longer
    have hge : op.length ≤ first.length := by
      rw [hsplit] at hop hsorted
      rcases List.mem_append.mp hop with hmem | hmem
      · have hno := hearlier op hmem
        simp [List.isPrefixOf_iff_prefix.mpr hstarts] at hno
      · rcases List.mem_cons.mp hmem with rfl | hmem
        · exact Nat.le_refl _
        · exact List.rel_of_pairwise_cons (List.pairwise_append.mp hsorted).2.1 hmem
    simp only [operatorLength, hfind]
    omega

/-! ## Colons -/

/-- Of the operators only one starts with a colon. -/
theorem eq_of_operator_colon {op : String} (hop : op ∈ operators)
    (hstarts : op.toList <+: ':' :: cs) : op = ":=" := by
  have hcolon : ∀ op ∈ operators, op.toList.head? = some ':' → op = ":=" := by decide
  have hlong : ∀ op ∈ operators, op.toList ≠ [] := by decide
  refine hcolon op hop ?_
  obtain ⟨d, more, hop'⟩ := List.exists_cons_of_ne_nil (hlong op hop)
  rw [hop', List.cons_prefix_cons] at hstarts
  rw [hop', hstarts.1]
  rfl

/-- A colon is a token by itself unless an equals sign follows. -/
theorem lexeme_colon (hcs : cs.head? ≠ some '=') (before : Option Char) (fresh : Bool) :
    lexeme before fresh (':' :: cs) = (.symbol, 1) := by
  have hoperator : operatorLength (':' :: cs) = 0 := by
    refine operatorLength_eq_zero fun op hop hstarts => hcs ?_
    obtain rfl := eq_of_operator_colon hop hstarts
    obtain ⟨more, hmore⟩ := hstarts
    rw [← (List.cons.inj hmore).2]
    rfl
  rw [lexeme_of_symbol (by decide) (by decide) (by decide), hoperator]
  rfl

theorem lexeme_colonEquals (before : Option Char) (fresh : Bool) (cs : List Char) :
    lexeme before fresh (':' :: '=' :: cs) = (.symbol, 2) := by
  have hoperator : operatorLength (':' :: '=' :: cs) = ":=".length :=
    operatorLength_eq_length (by decide) ⟨cs, rfl⟩ fun other hop hstarts => by
      rw [eq_of_operator_colon hop hstarts]
  rw [lexeme_of_symbol (by decide) (by decide) (by decide), hoperator]
  rfl

/-! ## Texts of symbols -/

/-- A symbol is one character, an operator, or a word. -/
theorem Lexed.text_of_symbol (h : Lexed source token) (hkind : token.kind = .symbol) :
    token.text.toList.length = 1 ∨ token.text ∈ operators ∨
      ∀ c ∈ token.text.toList, isWordChar c = true := by
  have htext := h.text_eq_take
  have hlexeme := h.lexeme
  rw [← String.ofList_toList (s := token.text), htext, String.toList_ofList, ← htext]
  unfold Token.lexeme at hlexeme htext
  split_ifs at hlexeme htext with hnumber hword hcomment hoperator hstring
  · cases (congrArg Prod.fst hlexeme).trans hkind
  · refine .inr (.inr fun c hc => ?_)
    rw [htext] at hc
    exact of_mem_take_runLength hc
  · cases (congrArg Prod.fst hlexeme).trans hkind
  · rw [htext]
    exact .inr (.inl (take_operatorLength (by simpa using hoperator)))
  · cases (congrArg Prod.fst hlexeme).trans hkind
  · exact .inl (congrArg Prod.snd hlexeme).symm

/-- A colon is a token by itself, or joined to an equals sign. -/
theorem Lexed.text_of_colon (h : Lexed source token) (hstring : token.kind ≠ .string)
    (hcomment : token.kind ≠ .comment) (hcolon : ':' ∈ token.text.toList) :
    token.text = ":" ∨ token.text = ":=" := by
  have hoperators : ∀ op ∈ operators, ':' ∈ op.toList → op = ":=" := by decide
  have hlexeme := h.lexeme
  have htext := h.text_eq_take
  unfold Token.lexeme at hlexeme htext
  split_ifs at hlexeme htext with hnumber hword hcomment' hoperator hstring'
  · rw [htext] at hcolon
    rcases of_mem_numberLength hcolon with hchar | hchar <;> exact absurd hchar (by decide)
  · rw [htext] at hcolon
    exact absurd (of_mem_take_runLength hcolon) (by decide)
  · exact absurd (congrArg Prod.fst hlexeme).symm hcomment
  · have hmem := take_operatorLength (by simpa using hoperator)
    rw [← htext, String.ofList_toList] at hmem
    exact .inr (hoperators _ hmem hcolon)
  · exact absurd (congrArg Prod.fst hlexeme).symm hstring
  · obtain ⟨d, hd⟩ := List.length_eq_one_iff.mp (congrArg Prod.snd hlexeme).symm
    rw [hd, List.mem_singleton] at hcolon
    refine .inl (String.toList_injective ?_)
    rw [hd, ← hcolon]
    rfl

end HotkeyScript.Token
