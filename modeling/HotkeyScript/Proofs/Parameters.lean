import HotkeyScript.Proofs.Composition
import HotkeyScript.Proofs.Grammar.PlainText
import HotkeyScript.Proofs.Grammar.RuleOrder
import HotkeyScript.Proofs.Text.Escape

/-!
# Command parameters are read back

Any text without quotes and without blanks at its ends can be written as a parameter of a command,
and the parameter has the text as its value. The lexer that cuts the line into tokens knows nothing
of commands. What is written for a character keeps the line plain: there are no quotes, and an
accent in front of a semicolon keeps a comment from starting. A percent sign never starts a
parameter, and of the commas only those between parameters are not escaped.

## Main definitions

* `Command.write` — a command with its parameters.
-/

namespace HotkeyScript

open Source (byteLength)
open Text (accent isBlank written Unbroken)
open Token (IsWord isSeparate isWordChar tokenize)

/-! ## Writing a command -/

namespace Command

/-- Commas, semicolons and percent signs are escaped in a parameter. -/
def shield (c : Char) : List Char :=
  if c = ',' ∨ c = ';' ∨ c = '%' then [accent, c] else [c]

/-- A text as a parameter. -/
def parameter (value : String) : List Char :=
  value.toList.flatMap (written shield)

/-- A command with its parameters, a comma and a space in front of each. -/
def write (name : String) (values : List String) : Source :=
  name.toList ++ values.flatMap fun value => ',' :: ' ' :: parameter value

/-- The token of a name at the start of a source. -/
def nameToken (name : String) : Token :=
  Token.Place.token {} .word name.toList

@[simp] theorem nameToken_text (name : String) : (nameToken name).text = name :=
  String.ofList_toList

/-- The text can be a parameter: it is not empty, there is no quote in it, and no blank at either
end. -/
structure Writable (value : String) : Prop where
  ne_empty : value ≠ ""
  unquoted : '"' ∉ value.toList
  first : value.toList.head?.all (!isBlank ·) = true
  last : value.toList.getLast?.all (!isBlank ·) = true

instance (value : String) : Decidable (Writable value) :=
  decidable_of_iff (value ≠ "" ∧ '"' ∉ value.toList ∧
      value.toList.head?.all (!isBlank ·) = true ∧ value.toList.getLast?.all (!isBlank ·) = true)
    ⟨fun ⟨hne, hquote, hfirst, hlast⟩ => ⟨hne, hquote, hfirst, hlast⟩,
      fun h => ⟨h.ne_empty, h.unquoted, h.first, h.last⟩⟩

theorem Writable.ne_nil {value : String} (h : Writable value) : value.toList ≠ [] :=
  fun hnil => h.ne_empty (String.toList_eq_nil_iff.mp hnil)

end Command

open Command (shield parameter nameToken nameToken_text Writable)

variable {value name : String} {values : List String} {c d : Char}

/-- A character is written as an escape, or as itself if it has no special meaning. -/
theorem written_shield_cases (c : Char) :
    (∃ letter, written shield c = [accent, letter] ∧ isBlank letter = false ∧ letter ≠ '"') ∨
      c ≠ '\n' ∧ c ≠ '\r' ∧ isSeparate c = false ∧ written shield c = [c] := by
  rcases Text.written_cases shield c with ⟨letter, hwritten, -, hletter⟩ |
    ⟨hfeed, hreturn, haccent, hwritten⟩
  · refine .inl ⟨letter, hwritten, ?_⟩
    rcases hletter with rfl | rfl | rfl <;> decide
  · rw [hwritten, shield]
    split
    · next hc =>
      refine .inl ⟨c, rfl, ?_⟩
      rcases hc with rfl | rfl | rfl <;> decide
    · next hc =>
      refine .inr ⟨hfeed, hreturn, ?_, rfl⟩
      simpa [isSeparate, haccent, not_or, and_assoc] using hc

theorem of_mem_written_shield (hd : d ∈ written shield c) (hc : c ≠ '"') :
    d ≠ '"' ∧ Text.isLineBreak d = false := by
  rcases written_shield_cases c with ⟨letter, hwritten, hblank, hquote⟩ |
    ⟨hfeed, hreturn, -, hwritten⟩
  · rw [hwritten, List.mem_cons, List.mem_singleton] at hd
    rcases hd with rfl | rfl
    · decide
    · refine ⟨hquote, Bool.eq_false_iff.mpr fun hbreak => ?_⟩
      exact absurd ((Text.isBlank_of_isLineBreak hbreak).symm.trans hblank) Bool.noConfusion
  · rw [hwritten, List.mem_singleton] at hd
    subst hd
    exact ⟨hc, by simp [Text.isLineBreak, hfeed, hreturn]⟩

theorem guarded_written_shield (c : Char) : Token.Guarded (written shield c) := by
  rcases written_shield_cases c with ⟨letter, hwritten, -⟩ | ⟨-, -, hseparate, hwritten⟩
  · rw [hwritten]
    exact Token.guarded_accent letter
  · rw [hwritten]
    refine Token.guarded_of_not_mem ?_
    rw [List.mem_singleton]
    rintro rfl
    cases hseparate

theorem shielded_flatMap_written (text : List Char) :
    Text.Shielded false (text.flatMap (written shield)) := by
  induction text with
  | nil => rfl
  | cons c text ih =>
    rw [List.flatMap_cons]
    rcases written_shield_cases c with ⟨letter, hwritten, hblank, -⟩ | ⟨-, -, hseparate, hwritten⟩
    · rw [hwritten]
      exact ⟨.inl rfl, hblank, ih⟩
    · rw [hwritten, List.singleton_append]
      refine ⟨.inr hseparate, ?_⟩
      rwa [Text.beq_accent_of_not_isSeparate hseparate, Bool.and_false]

/-- What is written for a character that is not blank has no blank at either end. -/
theorem written_shield_ends (hc : isBlank c = false) :
    (∃ d more, written shield c = d :: more ∧ isBlank d = false) ∧
      ∃ more d, written shield c = more ++ [d] ∧ isBlank d = false := by
  rcases written_shield_cases c with ⟨letter, hwritten, hblank, -⟩ | ⟨-, -, -, hwritten⟩
  · exact ⟨⟨accent, [letter], hwritten, by decide⟩, [accent], letter, hwritten, hblank⟩
  · exact ⟨⟨c, [], hwritten, hc⟩, [], c, hwritten, hc⟩

theorem of_mem_parameter (h : Writable value) (hd : d ∈ parameter value) :
    d ≠ '"' ∧ Text.isLineBreak d = false := by
  obtain ⟨c, hc, hd⟩ := List.mem_flatMap.mp hd
  refine of_mem_written_shield hd ?_
  rintro rfl
  exact h.unquoted hc

theorem isField_parameter (h : Writable value) : Grammar.IsField (parameter value) where
  shielded := shielded_flatMap_written value.toList
  unbroken d hd := (of_mem_parameter h hd).2
  first := by
    obtain ⟨c, more, hvalue⟩ := List.exists_cons_of_ne_nil h.ne_nil
    have hc : isBlank c = false := by simpa [hvalue] using h.first
    obtain ⟨d, more', hwritten, hd⟩ := (written_shield_ends hc).1
    refine ⟨d, more' ++ more.flatMap (written shield), ?_, hd⟩
    rw [parameter, hvalue, List.flatMap_cons, hwritten, List.cons_append]
  last := by
    intro e he
    have hlast := List.getLast?_eq_some_getLast h.ne_nil
    obtain ⟨init, hinit⟩ := List.getLast?_eq_some_iff.mp hlast
    have hc : isBlank (value.toList.getLast h.ne_nil) = false := by simpa [hlast] using h.last
    obtain ⟨more, d, hwritten, hd⟩ := (written_shield_ends hc).2
    rw [parameter, hinit, List.flatMap_append, List.flatMap_singleton, hwritten,
      ← List.append_assoc, List.getLast?_concat] at he
    cases he
    exact hd

/-- A parameter stands for its value. -/
theorem unescape_parameter (h : Writable value) :
    Text.unescape (parameter value) = value.toList := by
  refine Text.unescape_flatMap_written fun c hc haccent rest => ?_
  unfold shield
  split
  · next hc =>
    rcases hc with rfl | rfl | rfl <;> rfl
  · refine Text.unescape_cons haccent ?_ rest
    rintro rfl
    exact h.unquoted hc

/-! ## The line of a command -/

/-- The line of a command has no quotes and no line breaks. -/
theorem of_mem_write (hname : IsWord name) (hvalues : ∀ value ∈ values, Writable value)
    (hd : d ∈ Command.write name values) : d ≠ '"' ∧ Text.isLineBreak d = false := by
  rcases List.mem_append.mp hd with hd | hd
  · have hword := hname.chars.2.1 d hd
    refine ⟨?_, hname.unbroken d hd⟩
    rintro rfl
    exact absurd hword (by decide)
  · obtain ⟨value, hvalue, hd⟩ := List.mem_flatMap.mp hd
    simp only [List.mem_cons] at hd
    rcases hd with rfl | rfl | hd
    · decide
    · decide
    · exact of_mem_parameter (hvalues value hvalue) hd

/-- An accent stands in front of every semicolon of a command. -/
theorem guarded_write (hname : IsWord name) (values : List String) :
    Token.Guarded (Command.write name values) := by
  have hword : Token.Guarded name.toList := Token.guarded_of_not_mem fun hsemicolon =>
    absurd (hname.chars.2.1 _ hsemicolon) (by decide)
  have hcomma : Token.Guarded [',', ' '] := Token.guarded_of_not_mem (by decide)
  have hparameter : ∀ value, Token.Guarded (',' :: ' ' :: parameter value) := fun value =>
    hcomma.append (Token.Guarded.flatMap guarded_written_shield value.toList)
  exact hword.append (Token.Guarded.flatMap hparameter values)

theorem isWordChar_of_mem_nameToken (hname : IsWord name) :
    ∀ c ∈ (nameToken name).text.toList, isWordChar c = true := by
  rw [nameToken_text]
  exact hname.chars.2.1

/-- A name at the start of a source is the first token, and the lexer goes on behind it, if no word
character follows. -/
theorem tokenize_name (hname : IsWord name) {rest : List Char}
    (hrest : ∀ d, rest.head? = some d → isWordChar d = false) :
    tokenize (name.toList ++ rest) =
      nameToken name :: Token.scan false (Token.Place.afterToken {} name.toList) rest := by
  obtain ⟨hdigit, hword, hkind⟩ := hname.chars
  obtain ⟨c, cs, hc, hbreak, hblank, hmark⟩ := (Token.lexes_of_isWord hname).first
  have hlexeme := Token.lexeme_of_isWordChar hdigit hname.ne_nil hword none true hrest
  rw [String.ofList_toList, hkind, hc, List.cons_append] at hlexeme
  change Token.lexeme (Token.Place.before {}) (Token.Place.fresh {}) _ = _ at hlexeme
  rw [Token.tokenize_eq_scan (by rw [hc]; simpa using hmark), hc, List.cons_append,
    Token.scan_lexeme hlexeme hbreak hblank, nameToken, hc, ← List.cons_append, List.take_left,
    List.drop_left]

/-- A name opens no block comment. -/
theorem opensBlockComment_nameToken (hname : IsWord name) (rest : List Token) :
    Stream.opensBlockComment (nameToken name) rest = false := by
  refine Stream.opensBlockComment_of_ne (fun hslash => ?_) rest
  have hword := isWordChar_of_mem_nameToken hname '/' (by rw [hslash]; decide)
  exact absurd hword (by decide)

theorem tokenize_write (hname : IsWord name) (values : List String) :
    tokenize (Command.write name values) = nameToken name ::
      Token.scan false (Token.Place.afterToken {} name.toList)
        (values.flatMap fun value => ',' :: ' ' :: parameter value) := by
  refine tokenize_name hname fun d hd => ?_
  cases values with
  | nil => cases hd
  | cons value values =>
    cases hd
    decide

theorem plain_write (hname : IsWord name) (hvalues : ∀ value ∈ values, Writable value) :
    Stream.Plain (Command.write name values) := by
  have honeLine : Text.lineBreaks (Command.write name values) = 0 :=
    Text.lineBreaks_eq_zero_iff.mpr fun d hd => (of_mem_write hname hvalues hd).2
  have hquote : '"' ∉ Command.write name values :=
    fun hquote => (of_mem_write hname hvalues hquote).1 rfl
  have htokens := tokenize_write hname values
  refine ⟨honeLine, fun token htoken => Token.kind_ne_string htoken hquote, ?_, ?_⟩
  · intro token htoken
    have hmem := htoken
    rw [htokens] at hmem
    rcases List.mem_cons.mp hmem with rfl | hmem
    · exact fun hkind => by cases hkind
    · exact (Token.tokenize_lexed htoken).kind_ne_comment_of_guarded
        ((Token.tokenize_ordered _).1 token htoken)
        (Stream.opensLine_of_mem_tail honeLine htokens hmem) (guarded_write hname values)
  · intro first more hfirst
    rw [htokens] at hfirst
    cases hfirst
    exact opensBlockComment_nameToken hname _

theorem token?_write (hname : IsWord name) (hvalues : ∀ value ∈ values, Writable value) :
    (Stream.ofSource (Command.write name values)).token? 0 = some (nameToken name) := by
  rw [(plain_write hname hvalues).token?_eq, tokenize_write hname]
  rfl

/-- The parameters are ahead of the second token. -/
theorem ahead_write (hname : IsWord name) (hvalues : ∀ value ∈ values, Writable value) :
    Stream.Ahead (Command.write name values) name.toList
      (values.flatMap fun value => ',' :: ' ' :: parameter value) 1 := by
  have htoken := token?_write hname hvalues
  refine ⟨rfl, Stream.lt_size_of_token? htoken, ?_, Token.Place.afterToken {} name.toList, ?_, ?_⟩
  · rw [Stream.endBefore_succ htoken]
    simp [nameToken, Token.Place.token]
  · exact Nat.zero_add _
  · rw [tokenize_write hname values]
    rfl

/-! ## The rule for commands -/

namespace Grammar

section Head

variable {stream : Stream} {p : Nat} {token : Token} (htoken : stream.token? p = some token)
  (hkind : token.kind = .word) (hchars : ∀ c ∈ token.text.toList, isWordChar c = true)
  (hkeyword : Keyword.ofToken? token = none) (hcomma : stream.reads (p + 1) "," = true)

include htoken hkind hchars hkeyword hcomma in
/-- No rule before the one for commands finds anything at a word with a comma behind it that is no
keyword. -/
theorem unclaimed_of_comma : Unclaimed stream p := by
  obtain ⟨comma, hnext, htext⟩ := Stream.reads_iff.mp hcomma
  have hup : Text.sameText "," "up" = false := by decide
  exact unclaimed_of_word htoken hkind hchars (by simp [hkeyword]) hnext (by simp [htext])
    (by simp [htext]) (by rw [Token.is, htext, hup]) (.inl (by simp [htext, endsLabel]))

include htoken hkind hchars hkeyword hcomma in
/-- The word is the name of a command whose parameters start behind the comma. -/
theorem command_of_comma {arguments : List (Option Expr)} {next : Nat}
    (hcontinues : stream.continues (p + 1) = true)
    (hliteral : ∀ text ∈ expressionCommands, token.is text = false)
    (hparams : params stream (fun _ => false) (p + 2) = .ok (arguments, next)) :
    command stream p = .ok (some (.command (identifier token) false arguments
      (stream.spanTo (stream.spanAt p) next), next)) := by
  have hhash : isHash stream p = false := by
    have hreads : stream.reads p "#" = false := reads_of_isWordChar htoken hchars (by decide)
    simp [isHash, hreads]
  have hclause : Keyword.isClause token = false := by simp [Keyword.isClause, hkeyword]
  have hstarts : startsCommand stream p = true := by
    obtain ⟨comma, hnext, htext⟩ := Stream.reads_iff.mp hcomma
    simp [startsCommand, hnext, htext]
  have hskip : skipComma stream (p + 1) = p + 2 := by
    simp [skipComma, Stream.continuesWith, hcontinues, hcomma]
  have hexpressions : expressionCommands.any (token.is ·) = false :=
    List.any_eq_false.mpr fun text htext => by simp [hliteral text htext]
  simp [command, hhash, htoken, hkind, hclause, hstarts, hskip, hexpressions, hparams, ok_bind]

end Head

end Grammar

/-! ## Parsing a command -/

open Grammar in
/-- The name is followed by a comma, and behind it the values are read as parameters. -/
theorem params_write (hname : IsWord name) (hne : values ≠ [])
    (hvalues : ∀ value ∈ values, Writable value) :
    (Stream.ofSource (Command.write name values)).continuesWith 1 "," = true ∧
      ∃ literals : List LegacyLiteral,
        params (Stream.ofSource (Command.write name values)) (fun _ => false) 2 =
          .ok (literals.map fun literal => some (.legacyLiteral literal),
            (Stream.ofSource (Command.write name values)).size) ∧
        literals.map (·.value) = values := by
  have plain := plain_write hname hvalues
  have hahead := ahead_write hname hvalues
  have htoken := token?_write hname hvalues
  obtain ⟨value, rest, rfl⟩ := List.exists_cons_of_ne_nil hne
  set source := Command.write name (value :: rest)
  have hescapes : Escapes source name.toList 1 false := by
    intro token _ _
    have hreads : (Stream.ofSource source).reads 0 "\x60" = false :=
      reads_of_isWordChar htoken (isWordChar_of_mem_nameToken hname) (by decide)
    rw [accentsBefore_succ_eq_zero hreads]
    rfl
  have hfields : (value :: rest).flatMap (fun value => ',' :: ' ' :: parameter value) =
      ',' :: ' ' :: (parameter value ++ (rest.map parameter).flatMap (',' :: ' ' :: ·)) := by
    rw [List.flatMap_cons, List.flatMap_map]
    rfl
  rw [hfields] at hahead
  obtain ⟨hdelimiter, hbehind⟩ := isDelimiter_of_comma plain hahead Nat.one_pos hescapes
  rw [isDelimiter_eq plain, Bool.and_eq_true] at hdelimiter
  obtain ⟨literals, hparams, hread⟩ := paramsWithin_of_fields plain
    (isField_parameter (hvalues value List.mem_cons_self))
    (List.forall_mem_map.mpr fun value hvalue =>
      isField_parameter (hvalues value (List.mem_cons_of_mem _ hvalue)))
    (hbehind.blank (by decide) (by decide)) Nat.two_pos (Escapes.blank hbehind) (Nat.le_refl _)
  refine ⟨hdelimiter.1, literals, hparams, ?_⟩
  rw [hread, ← List.map_cons, List.map_map]
  refine (List.map_congr_left fun value hvalue => ?_).trans (List.map_id _)
  rw [Function.comp_apply, unescape_parameter (hvalues value hvalue), String.ofList_toList, id]

open Grammar in
/-- A word that is no keyword and takes no expressions, with a list of texts as its parameters, is
read as one command: it has the word as its name and the texts as the values of its parameters. -/
theorem parse_write (hname : IsWord name)
    (hkeyword : ∀ entry ∈ Keyword.table, Text.sameText name entry.1 = false)
    (hliteral : ∀ text ∈ expressionCommands, Text.sameText name text = false)
    (hne : values ≠ []) (hvalues : ∀ value ∈ values, Writable value) :
    ∃ script identifier span, ∃ literals : List LegacyLiteral,
      parse (Command.write name values) = .ok script ∧
      script.body = [.command identifier false
        (literals.map fun literal => some (.legacyLiteral literal)) span] ∧
      identifier.name = name ∧ literals.map (·.value) = values := by
  obtain ⟨hcomma, literals, hparams, hread⟩ := params_write hname hne hvalues
  have htoken := token?_write hname hvalues
  have hchars := isWordChar_of_mem_nameToken hname
  set stream := Stream.ofSource (Command.write name values)
  have hofToken : Keyword.ofToken? (nameToken name) = none := by
    have hfind : Keyword.table.find? (fun entry => Text.sameText name entry.1) = none :=
      List.find?_eq_none.mpr fun entry hentry => by simp [hkeyword entry hentry]
    simp only [Keyword.ofToken?, Token.is, nameToken_text, hfind, Option.map_none, ite_self]
  obtain ⟨hcontinues, hreads⟩ := Bool.and_eq_true_iff.mp hcomma
  have hcommand := command_of_comma htoken rfl hchars hofToken hreads hcontinues
    (fun text hmem => by rw [Token.is, nameToken_text]; exact hliteral text hmem) hparams
  have hstatement := (statement_eq_command_iff rfl).mpr
    ⟨unclaimed_of_comma htoken rfl hchars hofToken hreads, hcommand⟩
  have hbody : body stream (statement stream) 0 = .ok ([_], stream.size) :=
    body_eq_cons_iff.mpr ⟨stream.size, hstatement, by
      rw [if_pos (Stream.startsLine_of_size_le (Nat.le_refl _))]
      exact (lacking_of_size_le (Nat.le_refl _)).dangling.body⟩
  obtain ⟨script, hparse, hscript⟩ := exists_parse_of_body hbody
  exact ⟨script, _, _, literals, hparse, hscript, nameToken_text name, hread⟩

example : Command.write "MsgBox" ["a\x60", "50% ;\n,b"] =
    "MsgBox, a\x60\x60, 50\x60% \x60;\x60n\x60,b".toList := by decide

/-- Accents at the end of a parameter, a comma behind accents, and what would be an expression or a
comment. -/
theorem parse_write_msgBox :
    ∃ script identifier span, ∃ literals : List LegacyLiteral,
      parse (Command.write "MsgBox" ["a\x60", "\x60\x60,\x60", "% b", "c ; d\r\n,"]) = .ok script ∧
      script.body = [.command identifier false
        (literals.map fun literal => some (.legacyLiteral literal)) span] ∧
      identifier.name = "MsgBox" ∧
      literals.map (·.value) = ["a\x60", "\x60\x60,\x60", "% b", "c ; d\r\n,"] :=
  parse_write (show Token.lexeme none true "MsgBox".toList = (.word, 6) by decide) (by decide)
    (by decide) (by decide) (by decide +kernel)

end HotkeyScript
