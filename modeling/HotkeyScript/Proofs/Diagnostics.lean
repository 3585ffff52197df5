import HotkeyScript.Proofs.Grammar.Errors
import HotkeyScript.Proofs.Remarks
import HotkeyScript.Proofs.Stream.Fits
import HotkeyScript.Proofs.Stream.Origin

/-!
# Where remarks point

A remark stands at a token of the source or behind the last one, and its line and column are those
of the offset at which it starts. Two kinds of remarks miss their place: where a first line with a
byte order mark is read anew behind a block comment the column counts the mark, and behind a string
that runs over several lines the end of the source is looked for on the first of them.

## Main definitions

* `Stream.CountsMark` — a span is on a first line that is read anew with its byte order mark.
* `Stream.PointsAt` — a span has the position of its start, or counts the mark.
* `EndsAcrossLines` — a remark is about the end of a source whose last token is on several lines.
-/

namespace HotkeyScript

open Source (byteOrderMark)
open Text (Unbroken)

namespace Stream

variable {source : Source} {span : Span}

/-- The span is on the first line of a source with a byte order mark, and the line is read anew
behind a block comment. -/
def CountsMark (source : Source) (span : Span) : Prop :=
  source.head? = some byteOrderMark ∧ span.line = 0 ∧
    ReadAnew source (ofSource source).comments span

instance (source : Source) (span : Span) : Decidable (CountsMark source span) :=
  inferInstanceAs (Decidable (_ ∧ _ ∧ _))

/-- The line of the span is that of its start, and so is its column, but for the mark. -/
def PointsAt (source : Source) (span : Span) : Prop :=
  span.line = (Source.position source span.start).1 ∧
    span.column = (Source.position source span.start).2 + if CountsMark source span then 1 else 0

/-- A span that points somewhere misses its place just where it counts the mark. -/
theorem PointsAt.position_iff (h : PointsAt source span) :
    (span.line, span.column) = Source.position source span.start ↔ ¬CountsMark source span := by
  obtain ⟨hline, hcolumn⟩ := h
  rw [Prod.ext_iff, hcolumn, ← hline]
  split
  · next hmark => simp [hmark]
  · next hmark => simp [hmark]

theorem pointsAt_token {p : Nat} {token : Token} (h : (ofSource source).token? p = some token) :
    PointsAt source token.span := by
  obtain ⟨item, hitem, rfl⟩ := Option.map_eq_some_iff.mp h
  exact positioned_ofSource (.inl (List.mem_map_of_mem (Array.mem_of_getElem? hitem).val))

/-- A span points where its first token stands. -/
theorem Covers.pointsAt {p q : Nat} (h : (ofSource source).Covers span p q) :
    PointsAt source span := by
  obtain ⟨-, first, last, hfirst, -, rfl⟩ := h
  exact pointsAt_token hfirst

theorem pointsAt_zero (source : Source) (stop : Nat) : PointsAt source { stop } := by
  have hmark : ¬CountsMark source { stop } := by
    rintro ⟨-, -, comment, hcomment, -, hle, -⟩
    have hlt := (ofSource_cut_of_mem_comments hcomment).lt
    exact absurd hle (by simp only; omega)
  simp [PointsAt, hmark, Source.position, Text.lineBreaks]

/-! ## The end of the source -/

/-- The error behind the last token points behind it, if the token lies on one line. -/
theorem pointsAt_atEnd {p : Nat} {last : Token} (h : (ofSource source).token? p = some last)
    (hunbroken : Unbroken last.text.toList) :
    PointsAt source (SyntaxError.atEnd (some last)).span := by
  obtain ⟨item, hitem, rfl⟩ := Option.map_eq_some_iff.mp h
  have hmem := Array.mem_of_getElem? hitem
  have hcut := ofSource_cut h
  have hposition := Source.position_add_of_unbroken hcut.start (ofSource_behind hmem)
    hcut.dropBytes_start hunbroken
  rw [← hcut.stop_eq, String.length_toList] at hposition
  obtain ⟨hline, hcolumn⟩ := pointsAt_token h
  have hmark : CountsMark source (SyntaxError.atEnd (some item.token)).span ↔
      CountsMark source item.token.span :=
    and_congr_right fun _ => and_congr_right fun _ => readAnew_stop_iff hmem hunbroken rfl rfl
  simp only [PointsAt, hmark]
  simp only [SyntaxError.atEnd, hposition]
  omega

/-- Behind a token that runs over several lines the error names a line further up. -/
theorem atEnd_line_lt {p : Nat} {last : Token} (h : (ofSource source).token? p = some last)
    (hbroken : ¬Unbroken last.text.toList) :
    (SyntaxError.atEnd (some last)).span.line <
      (Source.position source (SyntaxError.atEnd (some last)).span.start).1 := by
  obtain ⟨item, hitem, rfl⟩ := Option.map_eq_some_iff.mp h
  have hmem := Array.mem_of_getElem? hitem
  have hcut := ofSource_cut h
  -- only a string reaches over a line break, and it starts with a quote
  have hstring : item.token.kind = .string := by
    by_contra hkind
    exact hbroken (lexed_of_token? h hkind).unbroken
  obtain ⟨inside, htext⟩ := (ofSource_placed h).kinded.string hstring
  have hposition := Source.position_add hcut.start (ofSource_behind hmem) hcut.dropBytes_start
    (by simp [htext])
  have hline := (pointsAt_token h).1
  have hbreaks := mt Text.lineBreaks_eq_zero_iff.mp hbroken
  rw [← hcut.stop_eq, Text.advance_eq] at hposition
  simp only [SyntaxError.atEnd, hposition, hline]
  omega

end Stream

open Grammar HotkeyScript.Stream

/-- A syntax error points at the token that is refused or behind the last token, unless that one
runs over several lines. -/
theorem parse_error_pointsAt {source : Source} {error : SyntaxError}
    (h : parse source = .error error) :
    PointsAt source error.span ∨
      ∃ last, (ofSource source).token? ((ofSource source).size - 1) = some last ∧
        ¬Unbroken last.text.toList ∧ error = .atEnd (some last) := by
  obtain ⟨p, rfl⟩ := parse_fails source error h
  unfold errorAt
  split
  · next token htoken => exact .inl (pointsAt_token htoken)
  · have hback : (ofSource source).items.back?.map (·.token) =
        (ofSource source).token? ((ofSource source).size - 1) := by
      rw [Array.back?_eq_getElem?]
      rfl
    rw [hback]
    cases hlast : (ofSource source).token? ((ofSource source).size - 1) with
    | none => exact .inl (pointsAt_zero source 0)
    | some last =>
      by_cases hunbroken : Unbroken last.text.toList
      · exact .inl (pointsAt_atEnd hlast hunbroken)
      · exact .inr ⟨last, rfl, hunbroken, rfl⟩

/-- Rules that are turned off only leave remarks out. -/
theorem mem_diagnostics_of_filter {rules : List Rule} {enabled : Rule → Bool} {script : Script}
    {remark : Diagnostic} (h : remark ∈ diagnostics (rules.filter enabled) script) :
    remark ∈ diagnostics rules script := by
  simp only [diagnostics, diagnosticsAt, List.mem_flatMap, List.mem_filterMap,
    List.mem_filter] at h ⊢
  obtain ⟨node, hnode, rule, ⟨⟨hrule, -⟩, hkind⟩, hremark⟩ := h
  exact ⟨node, hnode, rule, ⟨hrule, hkind⟩, hremark⟩

/-- The remarks of the rules point at the first token of a node, or at the start of a source without
tokens. -/
theorem diagnostics_pointsAt {source : Source} {script : Script} (h : parse source = .ok script) :
    ∀ remark ∈ diagnostics Rule.all script, PointsAt source remark.span := by
  intro remark hremark
  rw [diagnostics_all, diagnosticsAt_script] at hremark
  rcases List.mem_append.mp hremark with hempty | hassignment
  · split at hempty
    · next hbody =>
      obtain ⟨-, -, -, hspan⟩ := parse_reads h
      rw [List.isEmpty_iff.mp hbody] at hspan
      rw [List.mem_singleton.mp hempty, hspan]
      exact pointsAt_zero source _
    · cases hempty
  · obtain ⟨span, hspan, rfl⟩ := List.mem_map.mp hassignment
    rw [Node.legacyAssignments_script] at hspan
    obtain ⟨a, b, -, -, hcovers⟩ := (parse_written upholds_true h).1.assignments.of_mem hspan
    exact hcovers.pointsAt

/-- The remark is about the end of a source whose last token runs over several lines. -/
def EndsAcrossLines (source : Source) (remark : Diagnostic) : Prop :=
  ∃ last, (ofSource source).token? ((ofSource source).size - 1) = some last ∧
    ¬Unbroken last.text.toList ∧ remark = (SyntaxError.atEnd (some last)).diagnostic

/-- A remark is one of a rule, or the one about the syntax error. -/
theorem mem_lint_cases {options : LintOptions} {remarks : List Diagnostic}
    (h : lint options = .ok remarks) {remark : Diagnostic} (hremark : remark ∈ remarks) :
    (∃ script, parse options.source = .ok script ∧ remark ∈ diagnostics Rule.all script) ∨
      ∃ error, parse options.source = .error error ∧ remark = error.diagnostic := by
  unfold lint at h
  split at h
  · next script hparse =>
    cases h
    exact .inl ⟨script, hparse, mem_diagnostics_of_filter (List.mem_mergeSort.mp hremark)⟩
  · next error hparse =>
    refine .inr ⟨error, hparse, ?_⟩
    split at h
    · cases h
    split at h
    · cases h
      exact List.mem_singleton.mp hremark
    · cases h
      cases hremark

theorem lint_pointsAt {options : LintOptions} {remarks : List Diagnostic}
    (h : lint options = .ok remarks) :
    ∀ remark ∈ remarks, PointsAt options.source remark.span ∨
      EndsAcrossLines options.source remark := by
  intro remark hremark
  rcases mem_lint_cases h hremark with ⟨script, hparse, hmem⟩ | ⟨error, hparse, rfl⟩
  · exact .inl (diagnostics_pointsAt hparse remark hmem)
  · refine (parse_error_pointsAt hparse).imp_right ?_
    rintro ⟨last, hlast, hbroken, rfl⟩
    exact ⟨last, hlast, hbroken, rfl⟩

/-- The line and the column of a remark are those of the offset at which it starts, except in two
cases: a first line with a byte order mark is read anew behind a block comment, and the column
counts the mark; and the remark about the end of the source names too early a line if the last token
runs over several. -/
theorem lint_located {options : LintOptions} {remarks : List Diagnostic}
    (h : lint options = .ok remarks) :
    ∀ remark ∈ remarks,
      (remark.span.line, remark.span.column) =
          Source.position options.source remark.span.start ↔
        ¬CountsMark options.source remark.span ∧ ¬EndsAcrossLines options.source remark := by
  intro remark hremark
  by_cases hacross : EndsAcrossLines options.source remark
  · simp only [hacross, not_true_eq_false, and_false, iff_false]
    obtain ⟨last, hlast, hbroken, rfl⟩ := hacross
    exact fun hposition =>
      Nat.ne_of_lt (atEnd_line_lt hlast hbroken) (congrArg Prod.fst hposition)
  · have hpoints := (lint_pointsAt h remark hremark).resolve_right hacross
    rw [hpoints.position_iff, and_iff_left hacross]

/-- A token that is refused, behind a line break and a string with a character of two bytes. -/
theorem lint_located_refused :
    lint { source := "a(\r\n\t\"é\", +)".toList } =
        .ok [⟨"syntax-error", "Unexpected token: +", ⟨11, 12, 1, 6⟩⟩] ∧
      Source.position "a(\r\n\t\"é\", +)".toList 11 = (1, 6) := by
  have h : lint { source := "a(\r\n\t\"é\", +)".toList } =
      .ok [⟨"syntax-error", "Unexpected token: +", ⟨11, 12, 1, 6⟩⟩] := by decide +kernel
  have hlocated := (lint_located h _ List.mem_cons_self).mpr ⟨?_, ?_⟩
  · exact ⟨h, hlocated.symm⟩
  · rintro ⟨-, hline, -⟩
    cases hline
  · rintro ⟨last, -, -, hremark⟩
    have hmessage : "Unexpected token: +" = "Unexpected EOF" :=
      congrArg Diagnostic.message hremark
    exact absurd hmessage (by decide)

/-- Two remarks that miss their place: the end of a source behind a string over four lines, which is
on the last of them, and a token behind a mark and a block comment, which starts at column five. -/
theorem lint_misplaced :
    (∃ remark, lint { source := "x := (\"a\n(\nb\n)\"".toList } = .ok [remark] ∧
      remark.span = ⟨15, 15, 0, 15⟩ ∧
      Source.position "x := (\"a\n(\nb\n)\"".toList 15 = (3, 2)) ∧
    ∃ remark, lint { source := "\uFEFF/*a*/= b".toList } = .ok [remark] ∧
      remark.span = ⟨8, 9, 0, 6⟩ ∧ Source.position "\uFEFF/*a*/= b".toList 8 = (0, 5) := by
  have hend : lint { source := "x := (\"a\n(\nb\n)\"".toList } =
      .ok [⟨"syntax-error", "Unexpected EOF", ⟨15, 15, 0, 15⟩⟩] := by decide +kernel
  have hmark : lint { source := "\uFEFF/*a*/= b".toList } =
      .ok [⟨"syntax-error", "Unexpected token: =", ⟨8, 9, 0, 6⟩⟩] := by decide +kernel
  exact ⟨⟨_, hend, rfl, by decide +kernel⟩, _, hmark, rfl, by decide +kernel⟩

end HotkeyScript
