import HotkeyScript.Lint
import HotkeyScript.Proofs.Grammar.StatementEquation
import HotkeyScript.Proofs.Spans
import HotkeyScript.Proofs.Tree.LegacyAssignments

/-!
# What linting reports

With all rules on, linting reports a syntax error if the source does not parse, an empty file if the
source has no token, and otherwise the older assignments of the script, in the order in which they
stand in the source. The remarks come out of the walk in that order, so sorting leaves them as they
are.

## Main definitions

* `assignmentRemark`, `emptyFileRemark` — the remarks of the two rules.
-/

namespace HotkeyScript

/-- The remark about an older assignment. -/
def assignmentRemark (span : Span) : Diagnostic :=
  { code := "no-legacy-assign", message := "avoid legacy assignment", span }

/-- The remark about a source without a token. -/
def emptyFileRemark (source : Source) : Diagnostic :=
  { code := "empty-file", message := "empty file", span := { stop := Source.byteLength source } }

/-! ## The walk -/

namespace Node

/-- The node is a whole script. -/
def isScript : Node → Bool
  | .script _ => true
  | _ => false

@[simp] theorem isScript_ofExpr (e : Expr) : (ofExpr e).isScript = false := by
  cases e <;> rfl

@[simp] theorem isScript_ofStmt (s : Stmt) : (ofStmt s).isScript = false := by
  cases s with
  | expression e => exact isScript_ofExpr e
  | _ => rfl

theorem isScript_of_mem_ofSlots {slots : List (Option Expr)} {node : Node}
    (h : node ∈ ofSlots slots) : node.isScript = false := by
  obtain ⟨slot, -, hnode⟩ := List.mem_filterMap.mp h
  obtain ⟨e, -, rfl⟩ := Option.map_eq_some_iff.mp hnode
  exact isScript_ofExpr e

/-- A script stands below no node. -/
theorem isScript_of_mem_children {node child : Node} (h : child ∈ node.children) :
    child.isScript = false := by
  have hslots := fun slots => @isScript_of_mem_ofSlots slots child
  cases node with
  | expr e => cases e <;> simp [children, exprChildren] at h <;> grind [isScript, isScript_ofExpr]
  | stmt s =>
    cases s <;> simp [children, stmtChildren] at h <;>
      grind [isScript, isScript_ofExpr, isScript_ofStmt]
  | _ => simp [children] at h <;> grind [isScript, isScript_ofExpr, isScript_ofStmt]

theorem isScript_of_mem_visit {stack : List Node} (h : ∀ node ∈ stack, node.isScript = false) :
    ∀ node ∈ visit stack, node.isScript = false := by
  fun_induction visit stack with
  | case1 => exact List.forall_mem_nil _
  | case2 top stack ih =>
    intro node hnode
    rcases List.mem_cons.mp hnode with rfl | hnode
    · exact h _ (List.mem_cons_self ..)
    · refine ih (fun next hnext => ?_) node hnode
      rcases List.mem_append.mp hnext with hchild | hrest
      · exact isScript_of_mem_children hchild
      · exact h next (List.mem_cons_of_mem _ hrest)

end Node

/-- About a part of a script there is a remark only if it is an older assignment. -/
theorem diagnosticsAt_all {node : Node} (h : node.isScript = false) :
    diagnosticsAt Rule.all node = node.assignment?.toList.map assignmentRemark := by
  cases node with
  | script whole => cases h
  | expr e => cases e <;> rfl
  | stmt s =>
    cases s with
    | expression e => cases e <;> rfl
    | _ => rfl
  | _ => rfl

/-- About a script itself there is a remark only if it has no statement. -/
theorem diagnosticsAt_script (script : Script) :
    diagnosticsAt Rule.all (.script script) =
      if script.body.isEmpty then
        [{ code := "empty-file", message := "empty file", span := script.span }]
      else [] := by
  have hrules : Rule.all.filter (·.kind = (Node.script script).kind) = [Rule.emptyFile] := rfl
  rw [diagnosticsAt, hrules]
  cases hbody : script.body.isEmpty <;>
    simp_all [Rule.emptyFile, Rule.diagnose, Node.span]

/-- The remarks about a script: that it is empty, and its older assignments. -/
theorem diagnostics_all (script : Script) :
    diagnostics Rule.all script =
      diagnosticsAt Rule.all (.script script) ++
        script.legacyAssignments.map assignmentRemark := by
  have hparts : ∀ node ∈ Node.visit (Node.script script).children,
      diagnosticsAt Rule.all node = node.assignment?.toList.map assignmentRemark :=
    fun node hnode => diagnosticsAt_all
      (Node.isScript_of_mem_visit (fun _ => Node.isScript_of_mem_children) node hnode)
  rw [diagnostics, Node.walk_script, List.flatMap_cons, Node.legacyAssignments_script,
    ← Node.flatMap_visit, List.map_flatMap, List.flatMap_def, List.flatMap_def,
    List.map_congr_left hparts]

/-! ## The order of the remarks -/

open Grammar

variable {source : Source} {script : Script}

theorem Stream.CoveredInOrder.starts_lt {spans : List Span} {p q : Nat}
    (h : (Stream.ofSource source).CoveredInOrder spans p q) :
    spans.Pairwise fun span next => span.start < next.start := by
  induction h with
  | nil => exact .nil
  | @cons span spans p a b q hle hcovers hrest ih =>
    refine List.pairwise_cons.mpr ⟨fun next hnext => ?_, ih⟩
    obtain ⟨a', b', hba, -, hnext⟩ := hrest.of_mem hnext
    obtain ⟨hab, first, last, hfirst, hlast, rfl⟩ := hcovers
    obtain ⟨-, first', _, hfirst', -, rfl⟩ := hnext
    have hlt := (Stream.ofSource_cut hfirst).lt
    have hbefore := Stream.ofSource_ordered hfirst hfirst' (by omega)
    simp only [Span.to_start]
    omega

/-- The older assignments of a script start one behind the other. -/
theorem legacyAssignments_starts_lt (h : parse source = .ok script) :
    script.legacyAssignments.Pairwise fun span next => span.start < next.start := by
  rw [Node.legacyAssignments_script]
  exact (parse_written upholds_true h).1.assignments.starts_lt

/-- Remarks that start one behind the other are in order. -/
theorem mergeSort_assignmentRemarks {spans : List Span}
    (h : spans.Pairwise fun span next => span.start < next.start) :
    (spans.map assignmentRemark).mergeSort Diagnostic.precedes = spans.map assignmentRemark := by
  refine List.mergeSort_of_pairwise (List.pairwise_map.mpr (h.imp fun hlt => ?_))
  simp [Diagnostic.precedes, assignmentRemark, hlt]

/-! ## Linting -/

theorem parse_eq_of_size_eq_zero (h : (Stream.ofSource source).size = 0) :
    ∃ script, parse source = .ok script ∧ script.body = [] ∧
      script.span = { stop := Source.byteLength source } := by
  simp [parse, body, bodyWithin, h, ok_bind, scriptSpan]

theorem body_eq_nil_iff (h : parse source = .ok script) :
    script.body = [] ↔ (Stream.ofSource source).size = 0 := by
  have htiled := (parse_written upholds_true h).2
  rw [← List.map_eq_nil_iff (f := Stmt.span), htiled.eq_nil_iff]
  exact eq_comm

/-- With all rules on, linting gives exactly one remark about a syntax error or about an empty
source, and otherwise one remark about each older assignment, in the order of the source and of the
walk. -/
theorem lint_reports {options : LintOptions} (hthrow : options.throwSyntaxError = false)
    (henabled : ∀ code ∈ [syntaxErrorCode, Rule.emptyFile.code, Rule.noLegacyAssign.code],
      options.isEnabled code = true) :
    (∃ remarks, lint options = .ok remarks) ∧
    (∀ error, parse options.source = .error error →
      lint options =
        .ok [{ code := "syntax-error", message := error.cause.message, span := error.span }]) ∧
    ((Stream.ofSource options.source).size = 0 →
      lint options = .ok [emptyFileRemark options.source]) ∧
    (∀ script, parse options.source = .ok script → (Stream.ofSource options.source).size ≠ 0 →
      lint options = .ok (script.legacyAssignments.map assignmentRemark) ∧
      diagnostics Rule.all script = script.legacyAssignments.map assignmentRemark ∧
      script.legacyAssignments.Pairwise fun span next => span.start < next.start) := by
  have hrules : Rule.all.filter (options.isEnabled ·.code) = Rule.all := by
    simp only [List.mem_cons, List.not_mem_nil, or_false, forall_eq_or_imp, forall_eq] at henabled
    simp [Rule.all, henabled]
  have hsyntax : options.isEnabled syntaxErrorCode = true := henabled _ (List.mem_cons_self ..)
  have herror : ∀ error, parse options.source = .error error →
      lint options = .ok [error.diagnostic] := by
    intro error h
    simp [lint, h, hthrow, hsyntax]
  have hok : ∀ script, parse options.source = .ok script →
      lint options = .ok ((diagnostics Rule.all script).mergeSort Diagnostic.precedes) := by
    intro script h
    simp only [lint, h, hrules]
  refine ⟨?_, herror, fun hsize => ?_, fun script h hsize => ?_⟩
  · cases h : parse options.source with
    | error error => exact ⟨_, herror error h⟩
    | ok script => exact ⟨_, hok script h⟩
  · obtain ⟨script, h, hbody, hspan⟩ := parse_eq_of_size_eq_zero hsize
    have hassignments : script.legacyAssignments = [] := by
      rw [Script.legacyAssignments, hbody, assignmentsOfBody]
    rw [hok script h, diagnostics_all, diagnosticsAt_script, hassignments, hbody, hspan]
    simp [emptyFileRemark]
  · have hbody : script.body.isEmpty = false := by
      rw [List.isEmpty_eq_false_iff]
      exact fun hnil => hsize ((body_eq_nil_iff h).mp hnil)
    have horder := legacyAssignments_starts_lt h
    have hdiagnostics :
        diagnostics Rule.all script = script.legacyAssignments.map assignmentRemark := by
      rw [diagnostics_all, diagnosticsAt_script, hbody]
      rfl
    rw [hok script h, hdiagnostics, mergeSort_assignmentRemarks horder]
    exact ⟨rfl, rfl, horder⟩

/-- An older assignment in a branch and one behind it, and a source of blanks. -/
theorem lint_reports_nested :
    (∃ script, parse "if a\n\x7b\nx = b\n\x7d\ny = c".toList = .ok script ∧
      script.legacyAssignments.map (·.start) = [7, 15] ∧
      lint { source := "if a\n\x7b\nx = b\n\x7d\ny = c".toList } =
        .ok (script.legacyAssignments.map assignmentRemark)) ∧
    lint { source := " \n".toList } = .ok [emptyFileRemark " \n".toList] := by
  have hstarts : (parse "if a\n\x7b\nx = b\n\x7d\ny = c".toList).toOption.map
      (·.legacyAssignments.map (·.start)) = some [7, 15] := by decide +kernel
  have hsize : (Stream.ofSource "if a\n\x7b\nx = b\n\x7d\ny = c".toList).size ≠ 0 := by
    decide +kernel
  have hnone : (Stream.ofSource " \n".toList).size = 0 := by decide +kernel
  obtain ⟨script, h, hstarts⟩ := exists_of_toOption_map hstarts
  exact ⟨⟨script, h, hstarts, ((lint_reports rfl (fun _ _ => rfl)).2.2.2 script h hsize).1⟩,
    (lint_reports rfl (fun _ _ => rfl)).2.2.1 hnone⟩

end HotkeyScript
