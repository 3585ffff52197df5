import HotkeyScript.Parse
import HotkeyScript.Proofs.Grammar.ExpressionEquation
import HotkeyScript.Proofs.Stream.Spaced
import HotkeyScript.Proofs.Text.Escape
import HotkeyScript.Proofs.Token.Append

/-!
# Quoted texts are read back

Any text can be written as a string literal, and the literal has the text as its value. Two readers
look at the characters between the quotes in different ways. The lexer looks for the closing quote:
it pairs quotes and knows nothing of accents. The escapes are replaced later: there an accent takes
the next character with it, and only then are quotes paired. The two agree because what is written
for a character is a pair of quotes, or has no quote in it.

## Main definitions

* `Literal.quote` — a text as a string literal.
-/

namespace HotkeyScript

open Source (byteLength)
open Text (accent written)

variable {c : Char} {source : Source} {token : Token}

namespace Literal

/-- A quote inside a string literal is doubled. -/
def doubled (c : Char) : List Char :=
  if c = '"' then ['"', '"'] else [c]

/-- A text as a string literal. -/
def quote (text : List Char) : Source :=
  '"' :: (text.flatMap (written doubled) ++ ['"'])

end Literal

open Literal (doubled quote)

/-! ## The closing quote -/

namespace Token

/-- A character that is no quote and breaks no line does not close a string. -/
theorem closingQuote_cons (hquote : c ≠ '"') (hbreak : Text.isLineBreak c = false)
    (cs : List Char) : closingQuote (c :: cs) = (closingQuote cs).map (· + 1) := by
  rw [closingQuote]
  · simp [hquote, hbreak]
  · exact fun _ hc => absurd hc hquote

/-- The string goes on behind what is written for a character. -/
theorem closingQuote_written (c : Char) (rest : List Char) :
    closingQuote (written doubled c ++ rest) =
      (closingQuote rest).map (· + (written doubled c).length) := by
  rcases Text.written_cases doubled c with
    ⟨letter, hwritten, -, hletter⟩ | ⟨hfeed, hreturn, -, hwritten⟩
  · have hplain : letter ≠ '"' ∧ Text.isLineBreak letter = false := by
      rcases hletter with rfl | rfl | rfl <;> decide
    rw [hwritten, List.cons_append, List.cons_append, List.nil_append,
      closingQuote_cons (by decide) (by decide), closingQuote_cons hplain.1 hplain.2,
      Option.map_map]
    rfl
  · rw [hwritten, doubled]
    split
    · rfl
    · next hquote =>
      exact closingQuote_cons hquote (by simp [Text.isLineBreak, hfeed, hreturn]) rest

theorem closingQuote_flatMap_written (text : List Char) :
    closingQuote (text.flatMap (written doubled) ++ ['"']) =
      some ((text.flatMap (written doubled)).length + 1) := by
  induction text with
  | nil => rfl
  | cons c text ih =>
    rw [List.flatMap_cons, List.append_assoc, closingQuote_written, ih, Option.map_some,
      List.length_append]
    congr 1
    omega

/-- A quoted text is one string token, wherever it starts. -/
theorem lexeme_quote (before : Option Char) (fresh : Bool) (text : List Char) :
    lexeme before fresh (quote text) = (.string, (quote text).length) := by
  have hstring : stringLength (quote text) = (quote text).length := by
    simp [quote, stringLength, closingQuote_flatMap_written]
  have hnumber : numberLength (quote text) = 0 := numberLength_eq_zero (by decide) _
  have hword : wordLength (quote text) = 0 := rfl
  have hcomment : commentLength (quote text) = 0 := rfl
  have hoperator : operatorLength (quote text) = 0 := rfl
  have hpos : ((quote text).length != 0) = true := by simp [quote]
  simp only [lexeme, hnumber, hword, hcomment, hoperator, hstring, hpos, bne_self_eq_false,
    Bool.and_false, Bool.false_eq_true, if_false, if_true]

theorem tokenize_quote (text : List Char) :
    tokenize (quote text) = [Place.token {} .string (quote text)] := by
  have hlexeme : lexeme none true (quote text) = (.string, (quote text).length) :=
    lexeme_quote none true text
  have hmark : (quote text).head? ≠ some Source.byteOrderMark := fun h => by cases h
  have hscan : scan false {} (quote text) = _ := scan_lexeme hlexeme (by decide) (by decide)
  rw [tokenize_eq_scan hmark, hscan]
  change _ :: scan false _ ((quote text).drop (quote text).length) = _
  rw [List.drop_length, scan]
  exact congrArg (fun cs => [Place.token {} .string cs]) List.take_length

end Token

/-! ## Sources of one token -/

namespace Stream

/-- A source of one token that is no comment has just this token in its stream. -/
theorem ofSource_of_tokenize (h : Token.tokenize source = [token]) (hkind : token.kind ≠ .comment) :
    ofSource source =
      { source
        items := #[{ token, startsLine := true, inSection := none }]
        sections := #[]
        comments := [] } := by
  have hread : Draft.read source {} [token] = Draft.emit {} none token :=
    read_row (by simpa using hkind) (by simp) (by simp) (by simp)
  simp [ofSource, h, hread, Draft.toStream, Draft.emit]

end Stream

open Grammar in
/-- A string token that is all of a source is the expression of the source. -/
theorem parseExpression_of_tokenize (h : Token.tokenize source = [token])
    (hkind : token.kind = .string) :
    parseExpression source =
      .ok (some (.literal
        { value := .string (String.ofList (Text.unescape (unquoted token.text.toList)))
          raw := token.text
          span := token.span })) := by
  have hstream := Stream.ofSource_of_tokenize h (by rw [hkind]; decide)
  have hsize : (Stream.ofSource source).size = 1 := by rw [hstream]; rfl
  have htoken : (Stream.ofSource source).token? 0 = some token := by rw [hstream]; rfl
  have hsection : (Stream.ofSource source).section? 0 = none := by rw [hstream]; rfl
  have hvalue : literalValue (Stream.ofSource source) token 0 =
      .ok (.string (String.ofList (Text.unescape (unquoted token.text.toList)))) := by
    simp [literalValue, hkind, hsection]
  simp [parseExpression, expression_of_string htoken hkind hvalue hsize, hsize, ok_bind]

/-- A quoted text is the string literal with this value: its text is all that is written, and it
stands at the start of the source. -/
theorem parseExpression_quote (text : List Char) :
    parseExpression (quote text) =
      .ok (some (.literal
        { value := .string (String.ofList text)
          raw := String.ofList (quote text)
          span := { start := 0, stop := byteLength (quote text), line := 0, column := 0 } })) := by
  have hinside : Grammar.unquoted (quote text) = text.flatMap (written doubled) := by
    simp [Grammar.unquoted, quote]
  have hvalue : Text.unescape (text.flatMap (written doubled)) = text := by
    refine Text.unescape_flatMap_written fun c _ haccent rest => ?_
    unfold doubled
    split
    · next hquote => rw [hquote]; rfl
    · next hquote => exact Text.unescape_cons haccent hquote rest
  rw [parseExpression_of_tokenize (Token.tokenize_quote text) rfl]
  simp only [Token.Place.token, String.toList_ofList, hinside, hvalue, Nat.zero_add]

end HotkeyScript
