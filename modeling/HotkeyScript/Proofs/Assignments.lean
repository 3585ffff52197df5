import HotkeyScript.Proofs.Composition
import HotkeyScript.Proofs.Grammar.ContinuedText
import HotkeyScript.Proofs.Grammar.RuleOrder
import HotkeyScript.Proofs.Text.Escape

/-!
# Assignments that a section carries on

The value of an older assignment is literal text, and a section below the assignment carries it on.
The text is put together from tokens, and yet it is what the options of the section make of its
lines, with the escapes replaced. One of the options is not local to the section: if it takes their
meaning from accents, then it takes it from those of the line above too.

## Main statements

* `parse_assignment_section` — the value of an assignment that is a section without comments.
* `parse_assignment_accent_section` — the value of an assignment with text on its own line and a
  section with the accent option below.
-/

namespace HotkeyScript

open Source (byteLength)
open Text (Unbroken isBlank)
open Token (Remains isWordChar tokenize)

/-! ## The rule for assignments -/

namespace Grammar

open HotkeyScript.Stream (Carried ofSource)

section Name

variable {stream : Stream} {name mark : Token} {p : Nat} (hname : stream.token? p = some name)
  (hkind : name.kind = .word) (hchars : ∀ c ∈ name.text.toList, isWordChar c = true)
  (hflow : ∀ keyword ∈ flowKeywords, Keyword.ofToken? name ≠ some keyword)
  (hkeyword : Keyword.ofToken? name = none) (hmark : stream.token? (p + 1) = some mark)
  (happart : stream.touchesPrevious (p + 1) = false)
  (hcontinues : stream.continues (p + 1) = true)

theorem statement_of_unclaimed (h : Unclaimed stream p) (hcommand : command stream p = .ok none) :
    statement stream p = expressionStatement stream (statement stream) p := by
  rw [statement_eq, statementRules, h.hotstring, h.hotkey, h.label, h.block, h.flow, hcommand]
  rfl

include hname hchars hmark happart hcontinues in
/-- A word with an assignment behind it is no command. -/
theorem command_of_startsAssignment (hassigns : startsAssignment mark.text = true) :
    command stream p = .ok none := by
  have hcomma : mark.text ≠ "," := by
    intro hcomma
    rw [hcomma] at hassigns
    exact absurd hassigns (by decide)
  have hhash : isHash stream p = false := by
    have hreads : stream.reads p "#" = false := reads_of_isWordChar hname hchars (by decide)
    simp [isHash, hreads]
  have hstarts : startsCommand stream p = false := by
    simp [startsCommand, hmark, hcontinues, hcomma, happart, hassigns]
  simp [command, hhash, hname, hstarts, absent]

include hname hkind hchars hflow hmark happart hcontinues in
/-- A word with an assignment behind it starts an expression, unless it is a keyword that starts a
statement of its own. -/
theorem statement_of_startsAssignment (hassigns : startsAssignment mark.text = true)
    (hup : mark.is "up" = false) :
    statement stream p = expressionStatement stream (statement stream) p := by
  have hne : ∀ text, startsAssignment text = false → mark.text ≠ text := by
    rintro text hfalse rfl
    cases hfalse.symm.trans hassigns
  exact statement_of_unclaimed
    (unclaimed_of_word hname hkind hchars hflow hmark (hne ":" (by decide)) (hne "&" (by decide))
      hup (.inr happart))
    (command_of_startsAssignment hname hchars hmark happart hcontinues hassigns)

include hname hkind hmark hcontinues in
/-- Behind an equals sign stands the text that is assigned, if there is any. -/
theorem legacyAssignment_of_equals (htext : mark.text = "=") : legacyAssignment stream p =
    match legacyText? stream (fun _ => false) (p + 2) with
    | none => some (.legacyAssignment (identifier name) none (stream.spanTo name.span (p + 2)),
        p + 2)
    | some (literal, q) =>
        some (.legacyAssignment (identifier name) (some literal) (stream.spanTo name.span q), q) := by
  have hreads : stream.reads (p + 1) "=" = true := by simp [Stream.reads, hmark, htext]
  simp only [legacyAssignment, hname, hkind, Stream.continuesWith, hcontinues, hreads]
  cases legacyText? stream (fun _ => false) (p + 2) <;> rfl

include hname hkind hchars hflow hmark happart hcontinues in
/-- An equals sign makes the line an assignment. -/
theorem statement_of_legacyAssignment (htext : mark.text = "=") {e : Expr} {q : Nat}
    (hlegacy : legacyAssignment stream p = some (e, q)) :
    statement stream p = .ok (some (.expression e, q)) := by
  have hup : Text.sameText "=" "up" = false := by decide
  have hassigns : startsAssignment "=" = true := by decide
  rw [statement_of_startsAssignment hname hkind hchars hflow hmark happart hcontinues
    (by rw [htext, hassigns]) (by rw [Token.is, htext, hup])]
  simp [expressionStatement, hlegacy, found]

include hname hkind hchars hflow hmark happart hcontinues in
/-- An equals sign makes the rest of the line the text of an assignment. -/
theorem statement_of_equals (htext : mark.text = "=") {literal : LegacyLiteral} {q : Nat}
    (hliteral : legacyText? stream (fun _ => false) (p + 2) = some (literal, q)) :
    statement stream p = .ok (some (.expression (.legacyAssignment (identifier name) (some literal)
      (stream.spanTo name.span q)), q)) := by
  have hlegacy := legacyAssignment_of_equals hname hkind hmark hcontinues htext
  rw [hliteral] at hlegacy
  exact statement_of_legacyAssignment hname hkind hchars hflow hmark happart hcontinues htext
    hlegacy

include hname hkind hkeyword hmark hcontinues in
/-- A name, an assignment sign and all that is behind it are one expression. -/
theorem expression_of_assignmentSign (htext : mark.text = ":=") {right : Expr}
    (hright : expression stream (.above Operator.assignment) (p + 2) =
      .ok (some (right, stream.size))) :
    expression stream .any p = .ok (some (.binary ":=" (.identifier (identifier name)) right
      (name.span.to right.span.stop), stream.size)) := by
  have hreads : ∀ text, text ≠ ":=" → stream.reads (p + 1) text = false := by
    intro text hne
    simp [Stream.reads, hmark, htext, hne.symm]
  have hclause : Keyword.isClause name = false := by simp [Keyword.isClause, hkeyword]
  have hprimary : primary stream (expression stream) p =
      .ok (some (.identifier (identifier name), p + 1)) := by
    simp [primary, hname, hkind, hclause, found]
  have hdot : dotMember stream (.identifier (identifier name)) (p + 1) = .ok none := by
    unfold dotMember
    split <;> simp [hreads "." (by decide), absent]
  have hindex : indexMember stream (expression stream) (.identifier (identifier name)) (p + 1) =
      .ok none := by
    simp [indexMember, hreads "[" (by decide), absent]
  have hcall : call stream (expression stream) (.identifier (identifier name)) (p + 1) =
      .ok none := by
    simp [call, hreads "(" (by decide), absent]
  have hextend : extend stream (expression stream) .any (.identifier (identifier name)) (p + 1) =
      .ok (some (.binary ":=" (.identifier (identifier name)) right
        (name.span.to right.span.stop), stream.size)) := by
    have hoperator : Operator.binary? ":=" = some Operator.assignment := by decide
    have hadmits : Floor.any.admitsBinary Operator.assignment = true := rfl
    rw [extend, if_pos hcontinues, hdot, hindex, hcall, binary, hmark]
    simp only [htext, hoperator, hadmits, if_true, hright, ok_bind]
    rfl
  rw [expression_eq, hprimary, ok_bind]
  dsimp only
  rw [climb_eq (expression_advances stream), hextend, ok_bind]
  dsimp only
  rw [climb_of_size_le (Nat.le_refl _)]
  rfl

include hname hkind hchars hkeyword hmark happart hcontinues in
/-- An assignment sign makes the expression behind it the value that is assigned. -/
theorem statement_of_assignmentSign (htext : mark.text = ":=") {right : Expr}
    (hright : expression stream (.above Operator.assignment) (p + 2) =
      .ok (some (right, stream.size))) :
    statement stream p = .ok (some (.expression (.binary ":=" (.identifier (identifier name)) right
      (name.span.to right.span.stop)), stream.size)) := by
  have hup : Text.sameText ":=" "up" = false := by decide
  have hassigns : startsAssignment ":=" = true := by decide
  have hlegacy : legacyAssignment stream p = none := by
    simp [legacyAssignment, hname, Stream.continuesWith, Stream.reads, hmark, htext]
  have hend : stream.reads stream.size "\x7b" = false := by
    simp [Stream.reads, Stream.token?_eq_none (Nat.le_refl _)]
  have hexpression :=
    expression_of_assignmentSign hname hkind hkeyword hmark hcontinues htext hright
  rw [statement_of_startsAssignment hname hkind hchars (by simp [hkeyword]) hmark happart hcontinues
    (by rw [htext, hassigns]) (by rw [Token.is, htext, hup])]
  simp [expressionStatement, hlegacy, plainExpression, hexpression, hend, ok_bind, found]

end Name

section Carried

variable {stream : Stream} {around : Section} {front inner : List Token} {i : Nat}

/-- Text goes to the end of the section. -/
theorem legacyText?_of_carried (h : Carried stream around front inner) (hpos : 0 < i)
    (hlt : i < stream.size) :
    legacyText? stream (fun _ => false) i = some (assemble stream i stream.size, stream.size) :=
  legacyText?_of_continues hlt fun _ hle hlt =>
    h.continues_eq (Nat.lt_of_lt_of_le hpos hle) hlt

/-- The name `x`, at the start of a source. -/
def nameX : Token :=
  { kind := .word, text := "x", span := { stop := 1 }, opensLine := true }

theorem isWordChar_nameX : ∀ c ∈ nameX.text.toList, isWordChar c = true :=
  List.all_eq_true.mp (by decide)

/-- An equals sign behind it. -/
def equalsSign : Token :=
  { kind := .symbol
    text := "="
    span := { start := 2, stop := 3, column := 2 }
    opensLine := false }

/-- An assignment to a name has as its value what the tokens behind the equals sign make up. The
escapes are replaced unless one of the tokens lies in a section that takes their meaning away. -/
theorem exists_parse_of_carried {source : Source} {behind : List Token} {text : List Char}
    (h : Carried (ofSource source) around (nameX :: equalsSign :: behind) inner)
    (hlt : 2 < (ofSource source).size)
    (htext : assembled (ofSource source) 2 (ofSource source).size = text) :
    ∃ script name literal span, parse source = .ok script ∧
      script.body = [.expression (.legacyAssignment name (some literal) span)] ∧
      name.name = "x" ∧ literal.value = String.ofList
        (if !inner.isEmpty && around.options.literalAccent then text else Text.unescape text) := by
  have hname : (ofSource source).token? 0 = some nameX := h.token?_eq 0
  have hmark : (ofSource source).token? (0 + 1) = some equalsSign := h.token?_eq 1
  have happart : (ofSource source).touchesPrevious (0 + 1) = false := by
    rw [Stream.touchesPrevious, Stream.previous?, hname, hmark]
    decide
  have hstatement := statement_of_equals hname rfl isWordChar_nameX (by decide) hmark happart
    (h.continues_eq Nat.one_pos (by omega)) rfl (legacyText?_of_carried h Nat.two_pos hlt)
  obtain ⟨script, hparse, hbody⟩ := exists_parse_of_statement hstatement
  refine ⟨script, _, _, _, hparse, hbody, rfl, ?_⟩
  change String.ofList (if hasLiteralAccent _ 2 _ = true then assembled _ 2 _
    else Text.unescape (assembled _ 2 _)) = _
  rw [hasLiteralAccent_of_carried h (by simp), htext]

end Carried

end Grammar

/-! ## Sections without comments -/

open Grammar (nameX equalsSign)
open HotkeyScript.Stream (continued Continues)

/-- A line that is not blank has a token if it has no semicolon. -/
theorem not_remains {line : List Char} (hsemicolon : ';' ∉ line)
    (hline : Text.trimStart line ≠ []) : ¬Remains line := by
  intro hremains
  obtain ⟨c, more, hcons⟩ := List.exists_cons_of_ne_nil hline
  have hmem : c ∈ line := (List.dropWhile_sublist isBlank).subset (by
    rw [show line.dropWhile isBlank = c :: more from hcons]
    exact List.mem_cons_self)
  rw [hremains c (by rw [hcons]; rfl)] at hmem
  exact hsemicolon hmem

theorem tokenize_nameX_equals : tokenize "x =".toList = [nameX, equalsSign] := by
  decide +kernel

theorem flat_nameX_equals : Stream.Flat "x =".toList := by
  constructor <;> rw [tokenize_nameX_equals] <;> decide

theorem ofText_space (o : List Char) :
    Section.Options.ofText (' ' :: o) = Section.Options.ofText o := by
  have hwords : Text.words (' ' :: o) = Text.words o :=
    Text.words_blank_append (List.forall_mem_singleton.mpr (by decide)) o
  rw [Section.Options.ofText, hwords, Section.Options.ofText]

/-- The value of an assignment that is a section: the lines that are part of its text, trimmed and
joined, with the escapes replaced unless the options take their meaning away. -/
theorem exists_parse_section {header text : List Char} {ls : List (List Char)}
    (h : Continues "x =".toList header (text :: ls))
    (hread : (Section.Options.ofText header).Readable (text :: ls)) (htext : ¬Remains text) :
    let source := continued "x =".toList header (text :: ls) []
    let options := Section.Options.ofText header
    let joined := options.joinLines ((text :: ls).filter options.keeps)
    ∃ script name literal span, parse source = .ok script ∧
      script.body = [.expression (.legacyAssignment name (some literal) span)] ∧
      name.name = "x" ∧ (Stream.ofSource source).sections.toList.map (·.options) = [options] ∧
      literal.value =
        String.ofList (if options.literalAccent then joined else Text.unescape joined) := by
  intro source options joined
  have hquote : ∀ token ∈ tokenize "x =".toList, Stream.isOpenQuote token = false := by
    rw [tokenize_nameX_equals]
    decide
  obtain ⟨first, more, lead, hcarried, -⟩ :=
    Grammar.exists_carried h flat_nameX_equals hquote hread htext
  have hassembled := Grammar.assembled_continued h flat_nameX_equals hquote hread htext
  rw [tokenize_nameX_equals] at hcarried hassembled
  have hsize : 2 < (Stream.ofSource source).size := by
    rw [hcarried.size_eq]
    simp
  obtain ⟨script, name, literal, span, hparse, hbody, hname, hvalue⟩ :=
    Grammar.exists_parse_of_carried hcarried hsize hassembled
  refine ⟨script, name, literal, span, hparse, hbody, hname, ?_, hvalue⟩
  rw [hcarried.sections]
  rfl

/-- The value of an assignment that is a section without comments is what the options of the section
make of its lines, with the escapes replaced unless the options take their meaning away. -/
theorem parse_assignment_section {ls : List (List Char)} {o : List Char} (hne : ls ≠ [])
    (hls : ∀ line ∈ ls, Unbroken line ∧ ';' ∉ line ∧ (Text.trimStart line).head? ≠ some ')' ∧
      Text.PlainBlanks line)
    (hfirst : ∀ line ∈ ls.head?, Text.trimStart line ≠ [])
    (hlast : ∀ line ∈ ls.getLast?, Text.trimStart line ≠ [])
    (ho : Unbroken o ∧ ')' ∉ o ∧ ';' ∉ o) (hcomments : (Section.Options.ofText o).comments = false)
    (hright : (Section.Options.ofText o).trimRight = false →
      ∀ line ∈ ls.getLast?, ∀ c ∈ line.getLast?, isBlank c = false) :
    let source := continued "x =".toList (' ' :: o) ls []
    let options := Section.Options.ofText o
    ∃ script name literal span, parse source = .ok script ∧
      script.body = [.expression (.legacyAssignment name (some literal) span)] ∧
      name.name = "x" ∧ (Stream.ofSource source).sections.toList.map (·.options) = [options] ∧
      literal.value = String.ofList (if options.literalAccent then options.joinLines ls
        else Text.unescape (options.joinLines ls)) := by
  intro source options
  obtain ⟨text, ls, rfl⟩ := List.exists_cons_of_ne_nil hne
  have hoptions : Section.Options.ofText (' ' :: o) = options := ofText_space o
  have h : Continues "x =".toList (' ' :: o) (text :: ls) :=
    ⟨by decide, Token.unbroken_cons.mpr ⟨by decide, ho.1⟩, by simp [ho.2.2],
      by simp [ho.2.1], fun line hline => (hls line hline).1,
      fun line hline => (hls line hline).2.2.1⟩
  have hread : options.Readable (text :: ls) := by
    refine ⟨fun line hline => ?_, fun line hline => ?_⟩
    · obtain ⟨hunbroken, hsemicolon, -, hblanks⟩ := hls line hline
      exact ⟨hunbroken, hblanks.of_mem_takeWhile,
        .inl ⟨hcomments, hsemicolon⟩⟩
    · obtain ⟨-, hsemicolon, -, hblanks⟩ := hls line (List.mem_of_getLast? hline)
      refine ⟨not_remains hsemicolon (hlast line hline), ?_⟩
      cases htrim : options.trimRight with
      | true => exact .inl ⟨htrim, hblanks⟩
      | false => exact .inr (hright htrim line hline)
  have htext : ¬Remains text :=
    not_remains (hls text List.mem_cons_self).2.1 (hfirst text rfl)
  have hkeeps : (text :: ls).filter options.keeps = text :: ls :=
    List.filter_eq_self.mpr fun line _ => by simp [Section.Options.keeps, options, hcomments]
  have hparse := exists_parse_section h (by rwa [hoptions]) htext
  simp only [hoptions, hkeeps] at hparse
  exact hparse

/-- Quotes, a comma, an empty line, and an accent without a meaning. -/
theorem parse_assignment_section_accent :
    let source := "x =\n( Join\x60s ltrim \x60\n  a \"b  c\"\t\n\n\x60n, (d\n)".toList
    ∃ script name literal span, parse source = .ok script ∧
      script.body = [.expression (.legacyAssignment name (some literal) span)] ∧
      name.name = "x" ∧
      (Stream.ofSource source).sections.toList.map (·.options) =
        [Section.Options.ofText "Join\x60s ltrim \x60".toList] ∧
      literal.value = "a \"b  c\"  \x60n, (d" := by
  exact parse_assignment_section (o := "Join\x60s ltrim \x60".toList)
    (show ["  a \"b  c\"\t".toList, "".toList, "\x60n, (d".toList] ≠ [] by decide) (by decide)
    (by decide) (by decide) (by decide) (by decide) (fun hright => absurd hright (by decide))

/-! ## Text on both sides of the parenthesis -/

/-- The place of the value behind the name and the equals sign. -/
def valuePlace : Token.Place :=
  { offset := 4, column := 4, before := some ' ', fresh := false }

theorem tokenize_nameX_equals_append (value : List Char) :
    tokenize ("x = ".toList ++ value) =
      nameX :: equalsSign :: Token.scan false valuePlace value := by
  have hname : Token.Word.Lexes ⟨.word, "x"⟩ :=
    Token.lexes_of_isWord (by unfold Token.IsWord; decide)
  have hmark : Token.Word.Lexes ⟨.symbol, "="⟩ := Token.lexes_of_isSymbol (by decide)
  rw [Token.tokenize_eq_scan (by simp; decide)]
  change Token.scan false {} ("x".toList ++ ' ' :: ("=".toList ++ ' ' :: value)) = _
  rw [Token.scan_word hname (.inl rfl) (.inr ⟨_, rfl⟩), Token.scan_blank (by decide) (by decide),
    Token.scan_word hmark (.inr rfl) (.inr ⟨_, rfl⟩), Token.scan_blank (by decide) (by decide)]
  rfl

theorem isOpenQuote_nameX_equals_append {value : List Char} (hquote : '"' ∉ value) :
    ∀ token ∈ tokenize ("x = ".toList ++ value), Stream.isOpenQuote token = false := by
  rw [tokenize_nameX_equals_append]
  refine List.forall_mem_cons.mpr ⟨by decide, List.forall_mem_cons.mpr ⟨by decide, ?_⟩⟩
  intro token htoken
  rw [Stream.isOpenQuote, Bool.and_eq_false_imp, beq_eq_false_iff_ne]
  rintro - htext
  exact hquote ((Token.subset_of_mem_scan htoken).1 (by rw [htext]; decide))

section Value

variable {value : List Char} (hvalue : Unbroken value) (hsemicolon : ';' ∉ value)
include hvalue hsemicolon

theorem flat_nameX_equals_append : Stream.Flat ("x = ".toList ++ value) := by
  constructor <;> rw [tokenize_nameX_equals_append]
  · refine List.forall_mem_cons.mpr ⟨by decide, List.forall_mem_cons.mpr ⟨by decide, ?_⟩⟩
    exact fun token htoken hkind => hsemicolon ((Token.subset_of_mem_scan htoken).2 hkind)
  · refine List.forall_mem_cons.mpr ⟨by decide, List.forall_mem_cons.mpr ⟨by decide, ?_⟩⟩
    intro token htoken hopens
    cases ((Token.of_mem_scan_line hvalue htoken).2 hopens).1

/-- The tokens of a value without blanks at its ends take up all of it. -/
theorem exists_scan_value (htight : Text.Tight value) : ∃ first more,
    Token.scan false valuePlace value = first :: more ∧ first.span.start = 4 ∧
      (more.getLastD first).span.stop = 4 + byteLength value := by
  have hrow := Token.scan_row valuePlace hvalue
  have hfilter : (Token.scan false valuePlace value).filter (·.kind != .comment) =
      Token.scan false valuePlace value :=
    List.filter_eq_self.mpr fun token htoken => by
      simpa using fun hkind => hsemicolon ((Token.subset_of_mem_scan htoken).2 hkind)
  rw [hfilter] at hrow
  cases htokens : Token.scan false valuePlace value with
  | nil =>
    rw [htokens] at hrow
    exact absurd hrow.remains (not_remains hsemicolon htight.trimStart_ne_nil)
  | cons first more =>
    rw [htokens] at hrow
    obtain ⟨lead, mid, rest, hframe⟩ := hrow.exists_frame
    obtain ⟨hlead, hmid, -⟩ := hframe.eq_of_tight htight hsemicolon
    exact ⟨first, more, rfl, by rw [hframe.start, hlead]; rfl,
      by rw [hframe.stop, hlead, hmid]; rfl⟩

/-- The value of an assignment with text on its line and a section below it: that text, and the
lines of the section that are part of its text, trimmed and joined. The escapes are replaced in all
of it or in nothing of it. -/
theorem exists_parse_value_section {header : List Char} {ls : List (List Char)}
    (h : Continues ("x = ".toList ++ value) header ls) (hquote : '"' ∉ value)
    (htight : Text.Tight value) (hread : (Section.Options.ofText header).Readable ls)
    (hfirst : ∀ line ∈ ls.head?, ¬Remains line) :
    let source := continued ("x = ".toList ++ value) header ls []
    let options := Section.Options.ofText header
    let text := value ++ options.joinLines (ls.filter options.keeps)
    ∃ script name literal span, parse source = .ok script ∧
      script.body = [.expression (.legacyAssignment name (some literal) span)] ∧
      name.name = "x" ∧ literal.value = String.ofList
        (if !ls.isEmpty && options.literalAccent then text else Text.unescape text) := by
  intro source options text
  have hflat := flat_nameX_equals_append hvalue hsemicolon
  have hopen := isOpenQuote_nameX_equals_append hquote
  obtain ⟨first, more, htokens, hstart, hstop⟩ := exists_scan_value hvalue hsemicolon htight
  have htokenize : tokenize ("x = ".toList ++ value) = [nameX, equalsSign] ++ first :: more := by
    rw [tokenize_nameX_equals_append, htokens]
    rfl
  have hline : ∀ {around inner}, Stream.Carried (Stream.ofSource source) around
      (tokenize ("x = ".toList ++ value)) inner →
      Grammar.assembled (Stream.ofSource source) 2 (tokenize ("x = ".toList ++ value)).length =
        value := fun hcarried =>
    Grammar.assembled_line h hcarried htokenize
      (show "x = ".toList ++ value = "x = ".toList ++ (value ++ []) by rw [List.append_nil])
      hstart hstop
  have hsize : ∀ {around inner}, Stream.Carried (Stream.ofSource source) around
      (nameX :: equalsSign :: first :: more) inner → 2 < (Stream.ofSource source).size :=
    fun hcarried => by
      rw [hcarried.size_eq, List.length_cons, List.length_cons, List.length_cons]
      omega
  -- without lines the section has no tokens, and its options have no effect
  cases ls with
  | nil =>
    have hcarried := Stream.carried_continued h hflat hopen
    have htext : Grammar.assembled (Stream.ofSource source) 2 (Stream.ofSource source).size =
        text := by
      rw [hcarried.size_eq]
      exact (hline hcarried).trans (List.append_nil value).symm
    rw [htokenize] at hcarried
    exact Grammar.exists_parse_of_carried hcarried (hsize hcarried) htext
  | cons line ls =>
    obtain ⟨next, later, lead, hcarried, -⟩ :=
      Grammar.exists_carried h hflat hopen hread (hfirst line rfl)
    have htext : Grammar.assembled (Stream.ofSource source) 2 (Stream.ofSource source).size =
        text := by
      rw [Grammar.assembled_append_continued h hflat hopen hread (hfirst line rfl)
        (by rw [htokenize]; simp), hline hcarried]
    rw [htokenize] at hcarried
    exact Grammar.exists_parse_of_carried hcarried (hsize hcarried) htext

end Value

/-- A section with the accent option takes their meaning from all accents of the text that it
carries on, also from those in front of it. So these stand for themselves, unless the section is
empty, and the option is local to the section only if there are none. -/
theorem parse_assignment_accent_section {p : List Char} {ls : List (List Char)} (hp : Unbroken p)
    (hquote : '"' ∉ p) (hsemicolon : ';' ∉ p) (htight : Text.Tight p)
    (hlast : p.getLast? ≠ some Text.accent)
    (hls : ∀ line ∈ ls, Unbroken line ∧ Text.Tight line ∧ ';' ∉ line ∧ line.head? ≠ some ')') :
    let source := continued ("x = ".toList ++ p) " \x60".toList ls []
    let lines := ['\n'].intercalate ls
    ∃ script name literal span, parse source = .ok script ∧
      script.body = [.expression (.legacyAssignment name (some literal) span)] ∧
      name.name = "x" ∧
      literal.value = String.ofList ((if ls = [] then Text.unescape p else p) ++ lines) ∧
      (literal.value = String.ofList (Text.unescape p ++ lines) ↔ ls = [] ∨ Text.accent ∉ p) := by
  intro source lines
  have hoptions : Section.Options.ofText " \x60".toList = { literalAccent := true } := by decide
  have hremains : ∀ line ∈ ls, ¬Remains line := fun line hline =>
    not_remains (hls line hline).2.2.1 (hls line hline).2.1.trimStart_ne_nil
  have h : Continues ("x = ".toList ++ p) " \x60".toList ls :=
    ⟨Token.unbroken_append.mpr ⟨by decide, hp⟩, by decide,
      by decide, by decide, fun line hline => (hls line hline).1, fun line hline => by
        rw [(hls line hline).2.1.trimStart_eq]
        exact (hls line hline).2.2.2⟩
  have hread : (Section.Options.ofText " \x60".toList).Readable ls := by
    refine ⟨fun line hline => ?_, fun line hline => ?_⟩
    · obtain ⟨hunbroken, htight, hsemicolon, -⟩ := hls line hline
      exact ⟨hunbroken, by simp [htight.takeWhile_isBlank],
        .inl ⟨by rw [hoptions], hsemicolon⟩⟩
    · have hmem := List.mem_of_getLast? hline
      obtain ⟨c, hc, hblank⟩ := (hls line hmem).2.1.last
      refine ⟨hremains line hmem, .inr fun d hd => ?_⟩
      cases hc.symm.trans hd
      exact hblank
  obtain ⟨script, name, literal, span, hparse, hbody, hname, hvalue⟩ :=
    exists_parse_value_section hp hsemicolon h hquote htight hread
      fun line hline => hremains line (List.mem_of_mem_head? hline)
  have hjoined : ({ literalAccent := true } : Section.Options).joinLines
      (ls.filter ({ literalAccent := true } : Section.Options).keeps) = lines := by
    have hkeeps : ls.filter ({ literalAccent := true } : Section.Options).keeps = ls :=
      List.filter_eq_self.mpr fun line _ => by simp [Section.Options.keeps]
    rw [hkeeps, Section.Options.joinLines, List.map_congr_left fun line hline =>
      Section.Options.trimLine_of_tight rfl (hls line hline).2.1, List.map_id']
    rfl
  have hvalue' : literal.value =
      String.ofList ((if ls = [] then Text.unescape p else p) ++ lines) := by
    rw [hvalue, hoptions, hjoined]
    cases ls with
    | nil => simp [lines]
    | cons line ls => simp [lines]
  refine ⟨script, name, literal, span, hparse, hbody, hname, hvalue', ?_⟩
  rw [hvalue']
  split
  · next hnil => simp [hnil]
  · next hne =>
    rw [String.ofList_inj, List.append_cancel_right_eq, eq_comm,
      Text.unescape_eq_self_iff hquote hlast]
    simp [hne]

/-- A line break that is written with an accent, above a section and in it. -/
theorem parse_assignment_accent_section_feed :
    ∃ script name literal span, parse "x = a\x60nb\n( \x60\nc\x60n\n(d\n)".toList = .ok script ∧
      script.body = [.expression (.legacyAssignment name (some literal) span)] ∧
      name.name = "x" ∧ literal.value = "a\x60nbc\x60n\n(d" := by
  have hls : ∀ line ∈ ["c\x60n".toList, "(d".toList], Unbroken line ∧ Text.Tight line ∧ ';' ∉ line ∧
      line.head? ≠ some ')' := by decide
  obtain ⟨script, name, literal, span, hparse, hbody, hname, hvalue, -⟩ :=
    parse_assignment_accent_section (p := "a\x60nb".toList) (by decide) (by decide) (by decide)
      (by decide) (by decide) hls
  exact ⟨script, name, literal, span, hparse, hbody, hname, hvalue⟩

/-- The text that a statement assigns, if it is an assignment of literal text or of a string. -/
def Stmt.assigned? : Stmt → Option String
  | .expression (.legacyAssignment _ literal _) => literal.map (·.value)
  | .expression (.binary ":=" _ (.literal { value := .string text, .. }) _) => some text
  | _ => none

/-- The accent above the section keeps to itself, and the line break is lost. -/
theorem parse_assignment_accent_section_lost :
    let p := "a\x60nb".toList
    let ls := ["c".toList]
    let source := continued ("x = ".toList ++ p) " \x60".toList ls []
    (Unbroken p ∧ '"' ∉ p ∧ ';' ∉ p ∧ Text.Tight p ∧ p.getLast? ≠ some Text.accent) ∧
      (∀ line ∈ ls, Unbroken line ∧ Text.Tight line ∧ ';' ∉ line ∧ line.head? ≠ some ')') ∧
      (parse source).toOption.map (·.body.map Stmt.assigned?) = some [some "a\x60nbc"] ∧
      String.ofList (Text.unescape p ++ ['\n'].intercalate ls) = "a\nbc" := by
  decide +kernel

end HotkeyScript
