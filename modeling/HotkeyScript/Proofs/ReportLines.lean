import HotkeyScript.Proofs.Diagnostics
import HotkeyScript.Proofs.Stream.Origin
import HotkeyScript.Proofs.Text.Lines
import HotkeyScript.Report

/-!
# Lines of a report

The report about a file is its path and a line for each remark. A remark has its line if its message
is one line. That is so for the rules, whose messages are fixed. The message of a syntax error has
the text of the refused token in it, which is one line too, since the lexer reads no token across a
line break. Only a string that a continuation section carries on runs over several lines, and so
does the remark that refuses it.

## Main definitions

* `RefusesContinued` — a remark refuses a string that a section carries on.
-/

namespace HotkeyScript

open HotkeyScript.Stream (ofSource)
open Text (Unbroken unlines)

/-! ## Counting lines -/

namespace Text

variable {cs : List Char} {ls : List (List Char)}

theorem unbroken_iff : Unbroken cs ↔ '\n' ∉ cs ∧ '\r' ∉ cs := by
  constructor
  · exact fun h => ⟨fun hfeed => absurd (h _ hfeed) (by decide),
      fun hreturn => absurd (h _ hreturn) (by decide)⟩
  · rintro ⟨hfeed, hreturn⟩ c hc
    rw [Bool.eq_false_iff]
    intro hbreak
    rcases isLineBreak_iff.mp hbreak with rfl | rfl
    · exact hreturn hc
    · exact hfeed hc

/-- Each line has a line feed behind it. -/
theorem count_unlines (ls : List (List Char)) :
    (unlines ls).count '\n' = ls.length + ls.flatten.count '\n' := by
  induction ls with
  | nil => rfl
  | cons line ls ih =>
    simp only [unlines_cons, List.count_append, List.count_cons_self, ih, List.length_cons,
      List.flatten_cons]
    omega

/-- Lines are counted by line feeds if each of them is one line. -/
theorem count_unlines_iff :
    (unlines ls).count '\n' = ls.length ∧ '\r' ∉ unlines ls ↔ ∀ line ∈ ls, Unbroken line := by
  have hreturn : '\r' ∉ unlines ls ↔ ∀ line ∈ ls, '\r' ∉ line := by
    simp [unlines]
  have hfeed : '\n' ∉ ls.flatten ↔ ∀ line ∈ ls, '\n' ∉ line := by
    simp
  rw [count_unlines, Nat.add_eq_left, List.count_eq_zero, hfeed, hreturn]
  simp only [unbroken_iff, forall_and]

end Text

/-! ## Lines of remarks -/

/-- A number is one line. -/
theorem unbroken_toString (n : Nat) : Unbroken (toString n).toList := by
  intro c hc
  rw [show (toString n).toList = Nat.toDigits 10 n by simp] at hc
  have hdigit := Nat.isDigit_of_mem_toDigits (by decide) (by decide) hc
  rw [Bool.eq_false_iff]
  intro hbreak
  rcases Text.isLineBreak_iff.mp hbreak with rfl | rfl <;> cases hdigit

variable {source : Source} {options : LintOptions} {remark : Diagnostic}
  {remarks : List Diagnostic} {path : String}

theorem Diagnostic.unbroken_format_iff (hcode : Unbroken remark.code.toList) :
    Unbroken remark.format.toList ↔ Unbroken remark.message.toList := by
  have hcolon : Unbroken ":".toList := by decide
  have hspace : Unbroken " ".toList := by decide
  have hopening : Unbroken "  (".toList := by decide
  have hclosing : Unbroken ")".toList := by decide
  simp only [Diagnostic.format, String.toList_append, Token.unbroken_append, unbroken_toString,
    hcode, hcolon, hspace, hopening, hclosing, true_and, and_true]

theorem toList_formatFile (path : String) (remarks : List Diagnostic) :
    (formatFile path remarks).toList =
      unlines (path.toList :: remarks.map (·.format.toList)) := by
  simp [formatFile, String.toList_join, unlines, List.flatMap_map]

/-- The texts of the rules are one line each. -/
theorem unbroken_of_rule {rule : Rule} (hrule : rule ∈ Rule.all) {node : Node}
    (h : rule.diagnose node = some remark) :
    Unbroken remark.code.toList ∧ Unbroken remark.message.toList := by
  obtain ⟨message, hmessage, rfl⟩ := Option.map_eq_some_iff.mp h
  have hempty : Unbroken "empty file".toList := by decide
  have hassignment : Unbroken "avoid legacy assignment".toList := by decide
  rcases List.mem_pair.mp hrule with rfl | rfl
  · refine ⟨show Unbroken "empty-file".toList by decide, ?_⟩
    simp only [Rule.emptyFile] at hmessage
    split at hmessage
    · split at hmessage
      · cases hmessage
        exact hempty
      · cases hmessage
    · cases hmessage
  · refine ⟨show Unbroken "no-legacy-assign".toList by decide, ?_⟩
    simp only [Rule.noLegacyAssign] at hmessage
    split at hmessage
    · cases hmessage
      exact hassignment
    · cases hmessage

/-- The remark refuses a string that a section carries on. -/
def RefusesContinued (source : Source) (remark : Diagnostic) : Prop :=
  ∃ item ∈ (ofSource source).items,
    (ofSource source).LiesInSection item (·.literal.isSome = true) ∧
      remark = (SyntaxError.atToken item.token).diagnostic

/-- The message about a refused token is one line if the token is. -/
theorem unbroken_atToken (token : Token) :
    Unbroken (SyntaxError.atToken token).diagnostic.message.toList ↔
      Unbroken token.text.toList := by
  have hfixed : Unbroken "Unexpected token: ".toList := by decide
  have hmessage : (SyntaxError.atToken token).diagnostic.message =
      "Unexpected token: " ++ token.text := rfl
  rw [hmessage, String.toList_append, Token.unbroken_append, and_iff_right hfixed]

theorem RefusesContinued.not_unbroken (h : RefusesContinued source remark) :
    ¬Unbroken remark.message.toList := by
  obtain ⟨item, hitem, hcontinued, rfl⟩ := h
  rw [unbroken_atToken, Stream.ofSource_unbroken_iff hitem]
  exact not_not_intro hcontinued

/-- The texts of a remark are one line each, unless it refuses a string that is not. -/
theorem unbroken_of_lint (h : lint options = .ok remarks) (hremark : remark ∈ remarks) :
    Unbroken remark.code.toList ∧
      (Unbroken remark.message.toList ↔ ¬RefusesContinued options.source remark) := by
  have hrefuses : Unbroken remark.message.toList → ¬RefusesContinued options.source remark :=
    fun hunbroken hcontinued => hcontinued.not_unbroken hunbroken
  rcases mem_lint_cases h hremark with ⟨script, -, hmem⟩ | ⟨error, hparse, rfl⟩
  · simp only [diagnostics, diagnosticsAt, List.mem_flatMap, List.mem_filterMap,
      List.mem_filter] at hmem
    obtain ⟨node, -, rule, ⟨hrule, -⟩, hdiagnose⟩ := hmem
    obtain ⟨hcode, hmessage⟩ := unbroken_of_rule hrule hdiagnose
    exact ⟨hcode, iff_of_true hmessage (hrefuses hmessage)⟩
  · refine ⟨show Unbroken "syntax-error".toList by decide, hrefuses, fun hcontinued => ?_⟩
    obtain ⟨p, rfl⟩ := Grammar.parse_fails options.source error hparse
    cases htoken : (ofSource options.source).token? p with
    | none =>
      have hend : Unbroken "Unexpected EOF".toList := by decide
      simp only [Stream.errorAt, htoken, SyntaxError.atEnd]
      split <;> exact hend
    | some token =>
      simp only [Stream.errorAt, htoken] at hcontinued ⊢
      obtain ⟨item, hitem, rfl⟩ := Option.map_eq_some_iff.mp htoken
      have hmem := Array.mem_of_getElem? hitem
      exact (unbroken_atToken _).mpr ((Stream.ofSource_unbroken_iff hmem).mpr
        fun hlies => hcontinued ⟨item, hmem, hlies, rfl⟩)

/-- The report about a file is its path and a line for each remark, unless there is a remark that
refuses a string over several lines. -/
theorem formatFile_lines_iff (hpath : Unbroken path.toList) (h : lint options = .ok remarks) :
    ((formatFile path remarks).toList.count '\n' = 1 + remarks.length ∧
        '\r' ∉ (formatFile path remarks).toList ↔
      ∀ remark ∈ remarks, ¬RefusesContinued options.source remark) ∧
    ((∀ remark ∈ remarks, ¬RefusesContinued options.source remark) →
      Text.lines (formatFile path remarks).toList =
        path.toList :: remarks.map (·.format.toList) ++ [[]]) := by
  have hlines : (∀ line ∈ path.toList :: remarks.map (·.format.toList), Unbroken line) ↔
      ∀ remark ∈ remarks, ¬RefusesContinued options.source remark := by
    rw [List.forall_mem_cons, and_iff_right hpath, List.forall_mem_map]
    refine forall₂_congr fun remark hremark => ?_
    obtain ⟨hcode, hmessage⟩ := unbroken_of_lint h hremark
    rw [Diagnostic.unbroken_format_iff hcode, hmessage]
  rw [toList_formatFile, ← hlines]
  constructor
  · rw [← Text.count_unlines_iff, List.length_cons, List.length_map, Nat.add_comm 1]
  · intro hall
    have hend := Text.lines_unlines_append hall []
    rwa [List.append_nil] at hend

/-- A string that a section carries on, between two older assignments. -/
theorem formatFile_lines_assignments :
    ∃ remarks,
      lint { source := "x = 1\r\ns := \"a\r\n(\r\nb\r\n)\"\r\ny = 2".toList } = .ok remarks ∧
      remarks.length = 2 ∧ (formatFile "a b" remarks).toList.count '\n' = 3 ∧
      '\r' ∉ (formatFile "a b" remarks).toList := by
  have hscript : (parse "x = 1\r\ns := \"a\r\n(\r\nb\r\n)\"\r\ny = 2".toList).toOption.map
      (fun script => (script.body.isEmpty, script.legacyAssignments)) =
        some (false, [⟨0, 5, 0, 0⟩, ⟨26, 31, 5, 0⟩]) := by decide +kernel
  obtain ⟨script, hparse, hscript⟩ := Grammar.exists_of_toOption_map hscript
  obtain ⟨hbody, hassignments⟩ := Prod.mk.inj hscript
  have h : lint { source := "x = 1\r\ns := \"a\r\n(\r\nb\r\n)\"\r\ny = 2".toList } =
      .ok [assignmentRemark ⟨0, 5, 0, 0⟩, assignmentRemark ⟨26, 31, 5, 0⟩] := by
    have hremarks : diagnostics Rule.all script =
        [(⟨0, 5, 0, 0⟩ : Span), ⟨26, 31, 5, 0⟩].map assignmentRemark := by
      rw [diagnostics_all, diagnosticsAt_script, hbody, hassignments]
      rfl
    rw [lint, hparse]
    change Except.ok ((diagnostics Rule.all script).mergeSort Diagnostic.precedes) = _
    rw [hremarks, mergeSort_assignmentRemarks (by decide)]
    rfl
  refine ⟨_, h, rfl, (formatFile_lines_iff (show Unbroken "a b".toList by decide) h).1.mpr ?_⟩
  rintro remark hremark ⟨item, -, -, hrefused⟩
  have hcode : ∀ remark ∈ [assignmentRemark ⟨0, 5, 0, 0⟩, assignmentRemark ⟨26, 31, 5, 0⟩],
      remark.code ≠ syntaxErrorCode := by decide
  exact hcode remark hremark (congrArg Diagnostic.code hrefused)

/-- A string over four lines where the name of a loop is expected. -/
theorem formatFile_lines_continued :
    let remark : Diagnostic :=
      { code := "syntax-error"
        message := "Unexpected token: \"a\n(\nb\n)\""
        span := { start := 4, stop := 13, line := 0, column := 4 } }
    lint { source := "for \"a\n(\nb\n)\"".toList } = .ok [remark] ∧ Unbroken "a.ahk".toList ∧
      (formatFile "a.ahk" [remark]).toList.count '\n' = 5 := by
  decide +kernel

end HotkeyScript
