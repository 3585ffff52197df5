import HotkeyScript.Keyword
import HotkeyScript.Proofs.Token.Spaced
import HotkeyScript.Proofs.Tree.Grouping

/-!
# Printing expressions

An expression of names, groups, operators between two operands and conditions is printed as its
words with a space between any two of them, without parentheses other than those of its groups. That
is enough if the operands respect precedence.

## Main definitions

* `Expr.words`, `Expr.print` — the words of an expression, and its text.
* `Expr.Printable` — the expressions that their words determine.
-/

namespace HotkeyScript.Expr

open Token (Word)

/-- The words of an expression, from left to right. -/
def words : Expr → List Word
  | .identifier name => [⟨.word, name.name⟩]
  | .group inner _ => ⟨.symbol, "("⟩ :: (inner.words ++ [⟨.symbol, ")"⟩])
  | .binary op left right _ => left.words ++ ⟨.symbol, op⟩ :: right.words
  | .conditional test consequent alternate _ =>
    test.words ++ ⟨.symbol, "?"⟩ :: (consequent.words ++ ⟨.symbol, ":"⟩ :: alternate.words)
  | _ => []

/-- The text of an expression, on one line. -/
def print (e : Expr) : Source :=
  Token.spell e.words

/-- The words that only carry on a statement. -/
def clauseWords : List String :=
  ["else", "until", "catch", "finally"]

/-- The text is a name: a word that does not carry on a statement. -/
structure IsName (text : String) : Prop where
  word : Token.IsWord text
  clause : ∀ keyword ∈ clauseWords, Text.sameText text keyword = false

/-- The expressions that their words determine. -/
inductive Printable : Expr → Prop
  | identifier {name : Identifier} : IsName name.name → Printable (.identifier name)
  | group {inner : Expr} {span : Span} : Printable inner → Printable (.group inner span)
  | binary {op : String} {precedence : Nat} {left right : Expr} {span : Span} :
      (op, precedence) ∈ Operator.binaryTable → left.LeftOf precedence →
      right.RightOf precedence → Printable left → Printable right →
      Printable (.binary op left right span)
  | conditional {test consequent alternate : Expr} {span : Span} :
      test.RightOf Operator.conditional → consequent.RightOf Operator.comma →
      alternate.RightOf Operator.comma → Printable test → Printable consequent →
      Printable alternate → Printable (.conditional test consequent alternate span)

theorem Printable.words_pos {e : Expr} (h : e.Printable) : 0 < e.words.length := by
  induction h with
  | identifier => simp [words]
  | group => simp [words]
  | binary =>
    simp only [words, List.length_append, List.length_cons]
    omega
  | conditional =>
    simp only [words, List.length_append, List.length_cons]
    omega

/-! ## The words are tokens -/

theorem isSymbol_or_isWordChar_of_mem {op : String} {precedence : Nat}
    (h : (op, precedence) ∈ Operator.binaryTable) :
    Token.isSymbol op = true ∨ op = "and" ∨ op = "or" := by
  have hall : ∀ entry ∈ Operator.binaryTable,
      Token.isSymbol entry.1 = true ∨ entry.1 = "and" ∨ entry.1 = "or" := by decide +kernel
  exact hall _ h

theorem lexes_operator {op : String} {precedence : Nat}
    (h : (op, precedence) ∈ Operator.binaryTable) : Word.Lexes ⟨.symbol, op⟩ := by
  rcases isSymbol_or_isWordChar_of_mem h with hsymbol | rfl | rfl
  · exact Token.lexes_of_isSymbol hsymbol
  · have hand : Word.Lexes ⟨Token.wordKind none "and", "and"⟩ :=
      Token.lexes_of_isWordChar (by decide) (by decide) (List.all_eq_true.mp (by decide))
    exact hand
  · have hor : Word.Lexes ⟨Token.wordKind none "or", "or"⟩ :=
      Token.lexes_of_isWordChar (by decide) (by decide) (List.all_eq_true.mp (by decide))
    exact hor

theorem Printable.lexes {e : Expr} (h : e.Printable) :
    ∀ word ∈ e.words, word.Lexes ∧ word.kind ≠ .comment := by
  have hsymbol : ∀ text, Token.isSymbol text = true →
      Word.Lexes ⟨.symbol, text⟩ ∧ Token.Kind.symbol ≠ .comment :=
    fun text htext => ⟨Token.lexes_of_isSymbol htext, by decide⟩
  induction h with
  | identifier hname =>
    intro word hword
    rw [List.mem_singleton.mp hword]
    exact ⟨Token.lexes_of_isWord hname.word, nofun⟩
  | group hinner ih =>
    intro word hword
    simp only [words, List.mem_cons, List.mem_append, List.not_mem_nil, or_false] at hword
    rcases hword with rfl | hword | rfl
    · exact hsymbol "(" (by decide)
    · exact ih word hword
    · exact hsymbol ")" (by decide)
  | binary hop hleft hright _ _ ihleft ihright =>
    intro word hword
    simp only [words, List.mem_cons, List.mem_append] at hword
    rcases hword with hword | rfl | hword
    · exact ihleft word hword
    · exact ⟨lexes_operator hop, nofun⟩
    · exact ihright word hword
  | conditional htest hconsequent halternate _ _ _ ihtest ihconsequent ihalternate =>
    intro word hword
    simp only [words, List.mem_cons, List.mem_append] at hword
    rcases hword with hword | rfl | hword | rfl | hword
    · exact ihtest word hword
    · exact hsymbol "?" (by decide)
    · exact ihconsequent word hword
    · exact hsymbol ":" (by decide)
    · exact ihalternate word hword

/-! ## Names -/

theorem IsName.isClause {token : Token} (h : IsName token.text) :
    Keyword.isClause token = false := by
  have hclauses : ∀ entry ∈ Keyword.table, entry.2 ∈ [Keyword.elseWord, .untilWord, .catchWord,
      .finallyWord] → entry.1 ∈ clauseWords := by decide
  have hkeyword : ∀ keyword, Keyword.ofToken? token = some keyword →
      keyword ∉ [Keyword.elseWord, .untilWord, .catchWord, .finallyWord] := by
    intro keyword hkeyword hmem
    unfold Keyword.ofToken? at hkeyword
    split at hkeyword
    · obtain ⟨entry, hentry, rfl⟩ := Option.map_eq_some_iff.mp hkeyword
      have hclause := hclauses entry (List.mem_of_find?_eq_some hentry) hmem
      have hsame := List.find?_some hentry
      rw [Token.is, h.clause _ hclause] at hsame
      cases hsame
    · cases hkeyword
  unfold Keyword.isClause
  split
  all_goals first | rfl | (next heq => exact absurd (by simp) (hkeyword _ heq))

end HotkeyScript.Expr
