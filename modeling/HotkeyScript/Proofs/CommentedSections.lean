import HotkeyScript.Proofs.Assignments
import HotkeyScript.Proofs.Stream.SectionString

/-!
# Sections whose comments are left out

A section carries on the text of an older assignment, or a string. With the option for comments both
leave out what a semicolon starts, but a line that is only a comment counts differently: it is no
line of the text, and an empty line of the string.

## Main definitions

* `AssignsText`, `AssignsString` — what a source with one assignment assigns.
-/

namespace HotkeyScript

open Grammar (isWordChar_nameX nameX)
open HotkeyScript.Stream (Continues continued ofSource)
open Text (Unbroken)
open Token (Remains tokenize)

/-- The source is an assignment of a text. -/
def AssignsText (source : Source) (text : String) : Prop :=
  ∃ script name literal span, parse source = .ok script ∧
    script.body = [.expression (.legacyAssignment name (some literal) span)] ∧ literal.value = text

/-- The source is an assignment of a string. -/
def AssignsString (source : Source) (text : String) : Prop :=
  ∃ script name literal span, parse source = .ok script ∧
    script.body = [.expression (.binary ":=" (.identifier name) (.literal literal) span)] ∧
    literal.value = .string text

/-! ## Strings -/

/-- An assignment sign behind a name. -/
def assignmentSign : Token :=
  { kind := .symbol
    text := ":="
    span := { start := 2, stop := 4, column := 2 }
    opensLine := false }

/-- A quote that opens a string behind it. -/
def openQuote : Token :=
  { kind := .symbol
    text := "\""
    span := { start := 5, stop := 6, column := 5 }
    opensLine := false }

theorem tokenize_nameX_quote : tokenize "x := \"".toList = [nameX, assignmentSign, openQuote] := by
  decide +kernel

theorem flat_nameX_quote : Stream.Flat "x := \"".toList := by
  constructor <;> rw [tokenize_nameX_quote] <;> decide

/-- The string that a section carries on is all lines of the section, trimmed and joined, with the
escapes replaced. -/
theorem assignsString_section {header : List Char} {ls : List (List Char)}
    (h : Continues "x := \"".toList header ls) :
    AssignsString (continued "x := \"".toList header ls ['"'])
      (String.ofList (Text.unescape ((Section.Options.ofText header).joinLines ls))) := by
  have htokens : tokenize "x := \"".toList = nameX :: [assignmentSign] ++ [openQuote] :=
    tokenize_nameX_quote
  have hcarried := Stream.carried_continued_string h flat_nameX_quote htokens (by decide)
    (by decide) (by decide)
  set stream := ofSource (continued "x := \"".toList header ls ['"']) with hstream
  have hname : stream.token? 0 = some nameX := hcarried.token?_eq 0
  have hmark : stream.token? (0 + 1) = some assignmentSign := hcarried.token?_eq 1
  have hstring : stream.token? 2 =
      some (Stream.writtenString "x := \"".toList header ls openQuote) := hcarried.token?_eq 2
  have hsection : stream.section? 2 = some (Stream.stringSection "x := \"".toList header ls) :=
    hcarried.section?_inner (i := 0) Nat.one_pos
  have hvalue : Grammar.literalValue stream
      (Stream.writtenString "x := \"".toList header ls openQuote) 2 =
        .ok (.string (String.ofList
          (Text.unescape ((Section.Options.ofText header).joinLines ls)))) := by
    simp [Grammar.literalValue, hsection, Stream.writtenString, Stream.stringSection]
  have happart : stream.touchesPrevious (0 + 1) = false := by
    rw [Stream.touchesPrevious, Stream.previous?, hname, hmark]
    decide
  have hsize : stream.size = 2 + 1 := hcarried.size_eq
  have hright := Grammar.expression_of_string hstring rfl hvalue hsize (.above Operator.assignment)
  rw [← hsize] at hright
  have hstatement := Grammar.statement_of_assignmentSign hname rfl isWordChar_nameX (by decide)
    hmark happart (hcarried.continues_eq Nat.one_pos (by omega)) rfl hright
  obtain ⟨script, hparse, hbody⟩ := Grammar.exists_parse_of_statement hstatement
  exact ⟨script, _, _, _, hparse, hbody, rfl⟩

/-! ## Text and strings -/

section Lines

variable {options : Section.Options} {ls : List (List Char)}

/-- Joined lines without accents and quotes stand for themselves. -/
theorem unescape_joinLines (hseparator : options.separator = "\n")
    (hls : ∀ line ∈ ls, '"' ∉ line ∧ Text.accent ∉ line) :
    Text.unescape (options.joinLines ls) = options.joinLines ls := by
  refine Text.unescape_eq_self fun c hc => ?_
  rcases Section.Options.mem_of_mem_joinLines hc with hc | ⟨line, hline, hc⟩
  · rw [hseparator] at hc
    cases List.mem_singleton.mp hc
    decide
  · obtain ⟨hquote, haccent⟩ := hls line hline
    refine ⟨?_, ?_⟩ <;> rintro rfl
    · exact haccent hc
    · exact hquote hc

/-- Lines that are left out are missed: there are fewer line breaks. -/
theorem joinLines_filter_eq_iff (hseparator : options.separator = "\n") {keeps : List Char → Bool}
    (hls : ∀ line ∈ ls, Unbroken line) (hne : ls.filter keeps ≠ []) :
    options.joinLines (ls.filter keeps) = options.joinLines ls ↔
      ∀ line ∈ ls, keeps line = true := by
  refine ⟨fun hjoined => ?_, fun hkeeps => by rw [List.filter_eq_self.mpr hkeeps]⟩
  have hne' : ls ≠ [] := by
    rintro rfl
    exact hne rfl
  have hsplit := congrArg (List.splitOn '\n') hjoined
  rw [Section.Options.splitOn_joinLines hseparator hne fun line hline =>
      hls line (List.mem_of_mem_filter hline),
    Section.Options.splitOn_joinLines hseparator hne' hls] at hsplit
  have hlength := congrArg List.length hsplit
  rw [List.length_map, List.length_map] at hlength
  exact List.length_filter_eq_length_iff.mp hlength

end Lines

theorem ofText_comments : Section.Options.ofText " Comments".toList = { comments := true } := by
  decide

section Commented

variable {ls : List (List Char)}
  (hls : ∀ line ∈ ls, Unbroken line ∧ '"' ∉ line ∧ Text.accent ∉ line ∧
    (Text.trimStart line).head? ≠ some ')' ∧ Text.PlainBlanks line)
  (hfirst : ∀ line ∈ ls.head?, ¬Remains line) (hlast : ∀ line ∈ ls.getLast?, ¬Remains line)

include hls in
theorem continues_comments {head : List Char} (hhead : Unbroken head) :
    Continues head " Comments".toList ls :=
  ⟨hhead, by decide, by decide, by decide, fun line hline => (hls line hline).1,
    fun line hline => (hls line hline).2.2.2.1⟩

include hls hlast in
theorem readable_comments : ({ comments := true } : Section.Options).Readable ls := by
  refine ⟨fun line hline => ?_, fun line hline => ⟨hlast line hline, .inl ⟨rfl, ?_⟩⟩⟩
  · obtain ⟨hunbroken, hquote, -, -, hblanks⟩ := hls line hline
    exact ⟨hunbroken, hblanks.of_mem_takeWhile, .inr ⟨rfl, rfl, hquote, hblanks⟩⟩
  · exact (hls line (List.mem_of_getLast? hline)).2.2.2.2

include hls hfirst hlast in
/-- A line that is only a comment is no line of the text. -/
theorem assignsText_comments (hne : ls ≠ []) :
    AssignsText (continued "x =".toList " Comments".toList ls []) (String.ofList
      (({ comments := true } : Section.Options).joinLines
        (ls.filter (!Section.isCommentLine ·)))) := by
  obtain ⟨first, more, rfl⟩ := List.exists_cons_of_ne_nil hne
  obtain ⟨script, name, literal, span, hparse, hbody, -, -, hvalue⟩ :=
    exists_parse_section (continues_comments hls (by decide))
      (by rw [ofText_comments]; exact readable_comments hls hlast) (hfirst first rfl)
  have hkeeps : ({ comments := true } : Section.Options).keeps = (!Section.isCommentLine ·) := by
    funext line
    simp [Section.Options.keeps]
  refine ⟨script, name, literal, span, hparse, hbody, ?_⟩
  rw [hvalue, ofText_comments, if_neg Bool.false_ne_true, hkeeps, unescape_joinLines rfl]
  intro line hline
  obtain ⟨-, hquote, haccent, -⟩ := hls line (List.mem_of_mem_filter hline)
  exact ⟨hquote, haccent⟩

include hls in
/-- It is an empty line of the string. -/
theorem assignsString_comments :
    AssignsString (continued "x := \"".toList " Comments".toList ls ['"'])
      (String.ofList (({ comments := true } : Section.Options).joinLines ls)) := by
  have hstring := assignsString_section (continues_comments hls
    (show Unbroken "x := \"".toList by decide))
  rwa [ofText_comments, unescape_joinLines rfl fun line hline =>
    ⟨(hls line hline).2.1, (hls line hline).2.2.1⟩] at hstring

end Commented

/-- With the option for comments, the text of an older assignment leaves out the lines that are only
comments, and a string has an empty line for each of them. So the two are equal only if there are
none. -/
theorem assigned_commented_section {ls : List (List Char)} (hne : ls ≠ [])
    (hls : ∀ line ∈ ls, Unbroken line ∧ '"' ∉ line ∧ Text.accent ∉ line ∧
      (Text.trimStart line).head? ≠ some ')' ∧ Text.PlainBlanks line)
    (hfirst : ∀ line ∈ ls.head?, ¬Remains line) (hlast : ∀ line ∈ ls.getLast?, ¬Remains line) :
    let options := Section.Options.ofText " Comments".toList
    ∃ text string, AssignsText (continued "x =".toList " Comments".toList ls []) text ∧
      AssignsString (continued "x := \"".toList " Comments".toList ls ['"']) string ∧
      text = String.ofList (options.joinLines (ls.filter (!Section.isCommentLine ·))) ∧
      string = String.ofList (options.joinLines ls) ∧
      (text = string ↔ ∀ line ∈ ls, Section.isCommentLine line = false) := by
  intro options
  have hoptions : options = { comments := true } := ofText_comments
  -- the first line stays, so that some text is left
  have hstays : ls.filter (!Section.isCommentLine ·) ≠ [] := by
    obtain ⟨first, more, rfl⟩ := List.exists_cons_of_ne_nil hne
    have hcomment : Section.isCommentLine first = false := by
      refine Bool.eq_false_iff.mpr fun hcomment => hfirst first rfl fun c hc => ?_
      rw [Section.isCommentLine, beq_iff_eq] at hcomment
      exact Option.some.inj (hc.symm.trans hcomment)
    simp [hcomment]
  rw [hoptions]
  refine ⟨_, _, assignsText_comments hls hfirst hlast hne, assignsString_comments hls, rfl, rfl, ?_⟩
  rw [String.ofList_inj,
    joinLines_filter_eq_iff rfl (fun line hline => (hls line hline).1) hstays]
  simp

/-- A comment behind text, a line that is only a comment, and an empty line. -/
theorem assigned_commented_section_mixed :
    ∃ text string,
      AssignsText "x =\n( Comments\na ;b\n;c\n\n\td;e\n)".toList text ∧
      AssignsString "x := \"\n( Comments\na ;b\n;c\n\n\td;e\n)\"".toList string ∧
      text = "a\n\n\td;e" ∧ string = "a\n\n\n\td;e" := by
  obtain ⟨text, string, htext, hstring, htext', hstring', -⟩ :=
    assigned_commented_section
      (show ["a ;b".toList, ";c".toList, "".toList, "\td;e".toList] ≠ [] by decide)
      (by decide) (by decide) (by decide)
  exact ⟨text, string, htext, hstring, htext', hstring'⟩

/-- A line that is only a comment makes the string longer than the text. -/
theorem assigned_commented_section_differs :
    let ls := ["a".toList, "; c".toList, "b".toList]
    (∀ line ∈ ls, Unbroken line ∧ '"' ∉ line ∧ Text.accent ∉ line ∧
      (Text.trimStart line).head? ≠ some ')' ∧ Text.PlainBlanks line) ∧
    (∀ line ∈ ls.head?, ¬Remains line) ∧ (∀ line ∈ ls.getLast?, ¬Remains line) ∧
    (parse (continued "x =".toList " Comments".toList ls [])).toOption.map
      (·.body.map Stmt.assigned?) = some [some "a\nb"] ∧
    (parse (continued "x := \"".toList " Comments".toList ls ['"'])).toOption.map
      (·.body.map Stmt.assigned?) = some [some "a\n\nb"] := by
  decide +kernel

end HotkeyScript
