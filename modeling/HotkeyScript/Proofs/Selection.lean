import HotkeyScript.Lint
import HotkeyScript.Proofs.Grammar.Outcome
import Mathlib.Data.List.Basic

/-!
# Rules that are turned off

Turning rules off leaves their remarks out and changes nothing else. The rules are chosen before the
walk and the remarks are sorted behind it, so this rests on two facts: a rule does not see the
others, and sorting keeps the order of remarks at the same place, whichever of them are there.

Whether a syntax error is handed back does not depend on the rules.
-/

namespace HotkeyScript

/-! ## Sorting a selection -/

section Sorting

variable {α : Type} {le : α → α → Bool} (trans : ∀ a b c, le a b → le b c → le a c)
  (total : ∀ a b, le a b || le b a)

include trans total

/-- The first element is sorted in between those that have to come before it and all others. -/
theorem mergeSort_cons_eq (a : α) (l : List α) :
    (a :: l).mergeSort le =
      (l.mergeSort le).filter (!le a ·) ++ a :: (l.mergeSort le).filter (le a ·) := by
  obtain ⟨before, behind, hcons, hsplit, hbefore⟩ := List.mergeSort_cons trans total a l
  have hsorted := List.pairwise_mergeSort trans total (a :: l)
  rw [hcons] at hsorted
  have hbehind : ∀ b ∈ behind, le a b = true :=
    (List.pairwise_cons.mp (List.pairwise_append.mp hsorted).2.1).1
  have hleft : (before ++ behind).filter (!le a ·) = before := by
    rw [List.filter_append, List.filter_eq_self.mpr hbefore,
      List.filter_eq_nil_iff.mpr (by simpa using hbehind), List.append_nil]
  have hright : (before ++ behind).filter (le a ·) = behind := by
    rw [List.filter_append, List.filter_eq_self.mpr hbehind,
      List.filter_eq_nil_iff.mpr (by simpa using hbefore), List.nil_append]
  rw [hcons, hsplit, hleft, hright]

/-- A selection of a sorted list is the selection, sorted. -/
theorem filter_mergeSort (p : α → Bool) (l : List α) :
    (l.mergeSort le).filter p = (l.filter p).mergeSort le := by
  induction l with
  | nil => simp
  | cons a l ih =>
    by_cases ha : p a = true
    · rw [List.filter_cons_of_pos ha, mergeSort_cons_eq trans total, mergeSort_cons_eq trans total,
        List.filter_append, List.filter_cons_of_pos ha, ← ih, List.filter_comm p,
        List.filter_comm p]
    · obtain ⟨before, behind, hcons, hsplit, -⟩ := List.mergeSort_cons trans total a l
      rw [List.filter_cons_of_neg ha, ← ih, hcons, hsplit, List.filter_append,
        List.filter_cons_of_neg ha, List.filter_append]

end Sorting

theorem Diagnostic.precedes_trans (a b c : Diagnostic) (hab : a.precedes b) (hbc : b.precedes c) :
    a.precedes c := by
  simp only [precedes, Bool.or_eq_true, Bool.and_eq_true, decide_eq_true_eq, beq_iff_eq] at *
  omega

theorem Diagnostic.precedes_total (a b : Diagnostic) : a.precedes b || b.precedes a := by
  simp only [precedes, Bool.or_eq_true, Bool.and_eq_true, decide_eq_true_eq, beq_iff_eq]
  omega

/-! ## Rules -/

/-- The remark of a rule has its code. -/
theorem Rule.code_of_diagnose {rule : Rule} {node : Node} {remark : Diagnostic}
    (h : rule.diagnose node = some remark) : remark.code = rule.code := by
  obtain ⟨message, -, rfl⟩ := Option.map_eq_some_iff.mp h
  rfl

variable (p : String → Bool) (rules : List Rule)

/-- The rules with some codes make the remarks with these codes, about one node. -/
theorem diagnosticsAt_filter (node : Node) :
    diagnosticsAt (rules.filter (p ·.code)) node =
      (diagnosticsAt rules node).filter (p ·.code) := by
  have hcode : ∀ rule : Rule, (rule.diagnose node).filter (p ·.code) =
      if p rule.code = true then rule.diagnose node else none := by
    intro rule
    cases h : rule.diagnose node with
    | none => simp
    | some remark => simp [Option.filter_some, Rule.code_of_diagnose h]
  rw [diagnosticsAt, diagnosticsAt, List.filter_comm, List.filterMap_filter,
    List.filter_filterMap]
  simp only [hcode]

/-- The rules with some codes make the remarks with these codes, about a script. -/
theorem diagnostics_filter (script : Script) :
    diagnostics (rules.filter (p ·.code)) script =
      (diagnostics rules script).filter (p ·.code) := by
  simp only [diagnostics, funext (diagnosticsAt_filter p rules), List.filter_flatMap]

/-! ## Linting -/

/-- Turned off rules leave out their remarks, whichever codes are given, and keep the others in
their order; the code of syntax errors counts like that of a rule. A syntax error is handed back
exactly if it is asked for and the source does not parse, and asking for it changes nothing if the
source parses. -/
theorem lint_selects (source : Source) (disabled : List String) :
    (∃ remarks, lint { source } = .ok remarks ∧
      lint { source, disabled } = .ok (remarks.filter fun remark => remark.code ∉ disabled)) ∧
    (∀ error, lint { source, disabled, throwSyntaxError := true } = .error error ↔
      parse source = .error error) ∧
    ∀ script, parse source = .ok script →
      lint { source, disabled, throwSyntaxError := true } = lint { source, disabled } := by
  have henabled : ∀ throwSyntaxError code,
      LintOptions.isEnabled { source, disabled, throwSyntaxError } code =
        decide (code ∉ disabled) := by
    simp [LintOptions.isEnabled]
  refine ⟨?_, fun error => ?_, fun script hparse => ?_⟩
  · cases hparse : parse source with
    | ok script =>
      refine ⟨(diagnostics Rule.all script).mergeSort Diagnostic.precedes, ?_, ?_⟩
      · have hall : Rule.all.filter (LintOptions.isEnabled { source } ·.code) = Rule.all :=
          List.filter_eq_self.mpr fun _ _ => rfl
        simp only [lint, hparse, hall]
      · simp only [lint, hparse, henabled]
        rw [filter_mergeSort Diagnostic.precedes_trans Diagnostic.precedes_total,
          diagnostics_filter (fun code => decide (code ∉ disabled))]
    | error error =>
      refine ⟨[error.diagnostic], by simp [lint, hparse, LintOptions.isEnabled], ?_⟩
      have hcode : error.diagnostic.code = syntaxErrorCode := rfl
      by_cases hoff : syntaxErrorCode ∈ disabled <;> simp [lint, hparse, henabled, hcode, hoff]
  · cases hparse : parse source <;> simp [lint, hparse]
  · simp only [lint, hparse, henabled]

/-- An older assignment and a rule that is turned off twice, beside a code that is none. -/
theorem lint_selects_none :
    lint { source := "x = a".toList, throwSyntaxError := true,
           disabled := ["no-legacy-assign", "other", "no-legacy-assign"] } = .ok [] := by
  obtain ⟨⟨remarks, hall, hselected⟩, -, hthrow⟩ := lint_selects "x = a".toList
    ["no-legacy-assign", "other", "no-legacy-assign"]
  have hbody : (parse "x = a".toList).toOption.map (·.body.length) = some 1 := by decide +kernel
  obtain ⟨script, hscript, -⟩ := Grammar.exists_of_toOption_map hbody
  have hremarks : lint { source := "x = a".toList } =
      .ok [⟨"no-legacy-assign", "avoid legacy assignment", ⟨0, 5, 0, 0⟩⟩] := by decide +kernel
  cases hall.symm.trans hremarks
  rw [hthrow script hscript, hselected]
  rfl

end HotkeyScript
