import HotkeyScript.Proofs.Assignments
import HotkeyScript.Proofs.Parameters
import HotkeyScript.Proofs.Remarks

/-!
# Lines that assign text

A word with an equals sign behind it, apart from it, makes its line an older assignment, whatever
text follows. The word may be the name of a key or of a command, or a keyword that only carries a
statement on: the rules that are tried before the one for expressions look no further than the sign,
and it is part of nothing that they read. The text then takes all tokens of the line, so linting has
one remark, which ends with the last token that is no comment.

## Main definitions

* `assigning` — a word, an equals sign and text on one line.

## Main statements

* `lint_assigning` — the one remark about such a line.
-/

namespace HotkeyScript

open Command (nameToken nameToken_text)
open Text (Unbroken)
open Token (IsWord isWordChar tokenize)

variable {name : String} {text : List Char}

/-- A line that assigns text to a name in the older way. -/
def assigning (name : String) (text : List Char) : Source :=
  name.toList ++ " = ".toList ++ text

/-! ## The tokens of the line -/

/-- The equals sign behind a name and a space. -/
def equalsToken (name : String) : Token :=
  ((Token.Place.afterToken {} name.toList).afterBlank ' ').token .symbol ['=']

/-- The name and the sign are the first two tokens. -/
theorem tokenize_assigning (hname : IsWord name) (text : List Char) :
    ∃ more, tokenize (assigning name text) = nameToken name :: equalsToken name :: more := by
  have hequals : Token.Word.Lexes ⟨.symbol, "="⟩ := Token.lexes_of_isSymbol (by decide)
  have hsource : assigning name text = name.toList ++ ' ' :: ("=".toList ++ ' ' :: text) :=
    List.append_assoc name.toList _ text
  have hspace : ∀ d, (' ' :: ("=".toList ++ ' ' :: text)).head? = some d →
      isWordChar d = false := by
    rintro d ⟨⟩
    decide
  rw [hsource, tokenize_name hname hspace, Token.scan_blank (by decide) (by decide),
    Token.scan_word hequals (.inr rfl) (.inr ⟨_, rfl⟩)]
  exact ⟨_, rfl⟩

theorem unbroken_assigning (hname : IsWord name) (htext : Unbroken text) :
    Unbroken (assigning name text) :=
  Token.unbroken_append.mpr ⟨Token.unbroken_append.mpr ⟨hname.unbroken, by decide⟩, htext⟩

/-- The stream has the tokens of the line that are no comments, and the first two are the name and
the sign. -/
theorem exists_tokens_assigning (hname : IsWord name) (htext : Unbroken text) :
    ∃ more,
      (tokenize (assigning name text)).filter (·.kind != .comment) =
        nameToken name :: equalsToken name :: more ∧
      ∀ i, (Stream.ofSource (assigning name text)).token? i =
        (nameToken name :: equalsToken name :: more)[i]? := by
  have honeLine := Text.lineBreaks_eq_zero_iff.mpr (unbroken_assigning hname htext)
  obtain ⟨more, htokens⟩ := tokenize_assigning hname text
  have hkept : (tokenize (assigning name text)).filter (·.kind != .comment) =
      nameToken name :: equalsToken name :: more.filter (·.kind != .comment) := by
    rw [htokens]
    rfl
  have hslash : ∀ first rest, tokenize (assigning name text) = first :: rest →
      Stream.opensBlockComment first rest = false := by
    intro first rest hfirst
    cases htokens.symm.trans hfirst
    exact opensBlockComment_nameToken hname _
  refine ⟨_, hkept, fun i => ?_⟩
  rw [Stream.token?_of_oneLine honeLine hslash, hkept]

/-! ## The statement on the line -/

namespace Grammar

variable {stream : Stream} {name mark : Token} {p : Nat}

/-- If no other line starts, the text behind an equals sign goes to the end. -/
theorem exists_legacyAssignment (hname : stream.token? p = some name) (hkind : name.kind = .word)
    (hmark : stream.token? (p + 1) = some mark) (htext : mark.text = "=")
    (hcontinues : ∀ k, p < k → k < stream.size → stream.continues k = true) :
    ∃ right, legacyAssignment stream p = some (.legacyAssignment (identifier name) right
      (stream.spanTo name.span stream.size), stream.size) := by
  have hlt := Stream.lt_size_of_token? hmark
  rw [legacyAssignment_of_equals hname hkind hmark (hcontinues _ (by omega) hlt) htext]
  rcases Nat.eq_or_lt_of_le hlt with hend | hmore
  · -- nothing stands behind the sign
    have hnone : legacyText? stream (fun _ => false) (p + 2) = none := by
      simp [legacyText?, Stream.skip, Stream.skipWithin, ← hend]
    rw [hnone]
    exact ⟨none, by rw [← hend]⟩
  · rw [legacyText?_of_continues hmore fun k hle hk => hcontinues k (by omega) hk]
    exact ⟨_, rfl⟩

/-- A word that is none of those that start a statement is no keyword that starts one. -/
theorem ofToken?_ne_of_flow {token : Token}
    (h : ∀ word ∈ ["if", "while", "loop", "for", "try"], token.is word = false) :
    ∀ keyword ∈ flowKeywords, Keyword.ofToken? token ≠ some keyword := by
  have htable : ∀ entry ∈ Keyword.table, entry.2 ∈ flowKeywords →
      entry.1 ∈ ["if", "while", "loop", "for", "try"] := by decide
  intro keyword hkeyword hofToken
  simp only [Keyword.ofToken?] at hofToken
  split at hofToken
  · obtain ⟨entry, hfind, rfl⟩ := Option.map_eq_some_iff.mp hofToken
    have hword := h entry.1 (htable entry (List.mem_of_find?_eq_some hfind) hkeyword)
    have hmatch := List.find?_some hfind
    cases hword.symm.trans hmatch
  · cases hofToken

end Grammar

open Grammar in
/-- The line is one assignment, from the name to the last token. -/
theorem exists_parse_assigning (hname : IsWord name)
    (hkeyword : ∀ word ∈ ["if", "while", "loop", "for", "try"], Text.sameText name word = false)
    (htext : Unbroken text) :
    ∃ script last right,
      ((tokenize (assigning name text)).filter (·.kind != .comment)).getLast? = some last ∧
      parse (assigning name text) = .ok script ∧
      script.body = [.expression (.legacyAssignment (identifier (nameToken name)) right
        ((nameToken name).span.to last.span.stop))] := by
  obtain ⟨more, hkept, htokens⟩ := exists_tokens_assigning hname htext
  have honeLine := Text.lineBreaks_eq_zero_iff.mpr (unbroken_assigning hname htext)
  have hsize := Stream.size_eq_length htokens
  set stream := Stream.ofSource (assigning name text)
  have hfirst : stream.token? 0 = some (nameToken name) := htokens 0
  have hmark : stream.token? (0 + 1) = some (equalsToken name) := htokens 1
  have happart : stream.touchesPrevious (0 + 1) = false := by
    have hspace : ' '.utf8Size = 1 := rfl
    simp [Stream.touchesPrevious, hfirst, hmark, Token.touches, nameToken, equalsToken,
      Token.Place.token, Token.Place.afterBlank, Token.Place.afterToken, hspace]
  have hcontinues : ∀ k, 0 < k → k < stream.size → stream.continues k = true :=
    fun k hpos hlt => Stream.continues_of_oneLine honeLine hpos hlt
  obtain ⟨right, hlegacy⟩ := exists_legacyAssignment hfirst rfl hmark rfl hcontinues
  have hflow : ∀ keyword ∈ flowKeywords, Keyword.ofToken? (nameToken name) ≠ some keyword :=
    ofToken?_ne_of_flow fun word hword => by
      rw [Token.is, nameToken_text]
      exact hkeyword word hword
  have hstatement := statement_of_legacyAssignment hfirst rfl (isWordChar_of_mem_nameToken hname)
    hflow hmark happart (hcontinues _ Nat.one_pos (Stream.lt_size_of_token? hmark)) rfl hlegacy
  obtain ⟨script, hparse, hbody⟩ := exists_parse_of_statement hstatement
  obtain ⟨last, hlast⟩ : ∃ last, (nameToken name :: equalsToken name :: more).getLast? = some last :=
    ⟨_, List.getLast?_eq_some_getLast (List.cons_ne_nil _ _)⟩
  have hspan : stream.spanTo (nameToken name).span stream.size =
      (nameToken name).span.to last.span.stop := by
    have htoken : stream.token? (stream.size - 1) = some last := by
      rw [htokens, hsize, ← List.getLast?_eq_getElem?, hlast]
    rw [Stream.spanTo, ← Stream.endBefore_succ htoken, Nat.sub_add_cancel (by rw [hsize]; simp)]
  exact ⟨script, last, right, by rw [hkept, hlast], hparse, by rw [hbody, hspan]⟩

/-- Linting a line that assigns text in the older way gives one remark, whatever the text is and
whatever the word means elsewhere, unless it starts a statement of its own. The remark goes from the
start of the line to the end of the last token that is no comment. -/
theorem lint_assigning (hname : IsWord name)
    (hkeyword : ∀ word ∈ ["if", "while", "loop", "for", "try"], Text.sameText name word = false)
    (htext : Unbroken text) :
    ∃ last, ((tokenize (name.toList ++ " = ".toList ++ text)).filter
        (·.kind != .comment)).getLast? = some last ∧
      lint { source := name.toList ++ " = ".toList ++ text } =
        .ok [{
          code := "no-legacy-assign"
          message := "avoid legacy assignment"
          span := { start := 0, stop := last.span.stop, line := 0, column := 0 } }] := by
  obtain ⟨script, last, right, hlast, hparse, hbody⟩ := exists_parse_assigning hname hkeyword htext
  have hsize : (Stream.ofSource (assigning name text)).size ≠ 0 := by
    rw [Ne, ← body_eq_nil_iff hparse, hbody]
    exact List.cons_ne_nil _ _
  have hassignments : script.legacyAssignments = [(nameToken name).span.to last.span.stop] := by
    simp [Script.legacyAssignments, hbody, assignmentsOfBody, Stmt.legacyAssignments,
      Expr.legacyAssignments]
  have hlint := ((@lint_reports { source := assigning name text } rfl
    (fun _ _ => rfl)).2.2.2 script hparse hsize).1
  rw [hassignments] at hlint
  exact ⟨last, hlast, hlint⟩

/-- A word that carries a statement on, with text that would be a hotkey, an open string, a block
and a comment. -/
theorem lint_assigning_else :
    lint { source := "Else = a::\"% é\x7b ; c".toList } =
      .ok [⟨"no-legacy-assign", "avoid legacy assignment", ⟨0, 16, 0, 0⟩⟩] := by
  obtain ⟨last, hlast, hlint⟩ := @lint_assigning "Else" "a::\"% é\x7b ; c".toList
    (show Token.lexeme none true "Else".toList = (.word, 4) by decide) (by decide) (by decide)
  have hstop : ((tokenize "Else = a::\"% é\x7b ; c".toList).filter
      (·.kind != .comment)).getLast?.map (·.span.stop) = some 16 := by decide +kernel
  have hsource : "Else".toList ++ " = ".toList ++ "a::\"% é\x7b ; c".toList =
      "Else = a::\"% é\x7b ; c".toList := by decide
  rw [hsource] at hlast hlint
  rw [hlast, Option.map_some, Option.some.injEq] at hstop
  rw [hlint, hstop]

end HotkeyScript
