import HotkeyScript.Cli
import HotkeyScript.FileTree
import Mathlib.Algebra.Ring.Nat
import Mathlib.Data.List.Basic
import Mathlib.Data.List.Forall2

/-!
# The report of the command line

The program goes through its arguments and through the files that each of them leads to, and prints
as it goes: what stands in front of a block, the totals and the exit code all depend on what came
before. Whichever files have remarks or cannot be read, and whichever arguments are no patterns, the
output is that of the whole list of files: the blocks of those with remarks, in order and with an
empty line between two of them, and a closing line with the totals.

## Main definitions

* `Cli.Lints` — the remarks about a file.
* `Cli.blocks`, `Cli.closingLine` — the parts of the report about files.
* `Cli.Progress.Tells` — what has been printed and counted so far is about these files.
-/

namespace HotkeyScript.Cli

/-- A file with the remarks about it. -/
structure LintedFile where
  path : String
  remarks : List Diagnostic
  deriving DecidableEq, Repr, Inhabited

/-- The file can be read, and the remarks are what linting its text gives. -/
def Lints (disabled : List String) (file : FoundFile) (linted : LintedFile) : Prop :=
  linted.path = file.path ∧ ∃ bytes, file.contents = .ok bytes ∧
    lint { source := Text.Utf8.decode bytes, disabled } = .ok linted.remarks

/-- The files that an argument leads to. -/
def Found.toFiles : Found → List FoundFile
  | .files found => found
  | .badPattern .. => []

/-- The argument is no file and no right pattern. -/
def Found.isBad : Found → Bool
  | .files _ => false
  | .badPattern .. => true

/-- The files with remarks. -/
def remarked (files : List LintedFile) : List LintedFile :=
  files.filter (!·.remarks.isEmpty)

/-- The blocks of the files with remarks. -/
def blocks (files : List LintedFile) : List String :=
  (remarked files).map fun file => formatFile file.path file.remarks

/-- The closing line of the report about files. -/
def closingLine (files : List LintedFile) : String :=
  if files = [] then
    "please specify a file"
  else if remarked files = [] then
    "processed " ++ toString files.length ++ " file(s), no error found"
  else
    "found " ++ toString (files.map (·.remarks.length)).sum ++ " error(s) in " ++
      toString (remarked files).length ++ " file(s)"

variable {disabled : List String} {files : List LintedFile} {progress : Progress}

theorem remarked_eq_nil_iff : remarked files = [] ↔ ∀ file ∈ files, file.remarks = [] := by
  simp [remarked]

/-- No remark is counted exactly if no file has one. -/
theorem sum_remarks_eq_zero_iff : (files.map (·.remarks.length)).sum = 0 ↔ remarked files = [] := by
  rw [remarked_eq_nil_iff, List.sum_eq_zero_iff_forall_eq_nat]
  simp

/-- A block is a number of whole lines, so that what stands behind it starts a line. -/
theorem exists_line_of_mem_blocks {block : String} (h : block ∈ blocks files) :
    ∃ lines, block = lines ++ "\n" := by
  obtain ⟨file, -, rfl⟩ := List.mem_map.mp h
  obtain ⟨lines, last, hlines⟩ : ∃ lines last,
      file.path :: file.remarks.map Diagnostic.format = lines ++ [last] :=
    ⟨_, _, (List.dropLast_append_getLast (List.cons_ne_nil _ _)).symm⟩
  refine ⟨String.join (lines.map (· ++ "\n")) ++ last, ?_⟩
  rw [formatFile, hlines, List.map_append, String.join_append, String.append_assoc]
  simp

/-! ## Files one after the other -/

/-- What has been printed and counted so far is about these files. -/
structure Progress.Tells (progress : Progress) (told : List LintedFile) : Prop where
  stdout : progress.stdout = "\n".intercalate (blocks told)
  files : progress.summary.files = told.length
  filesWithErrors : progress.summary.filesWithErrors = (remarked told).length
  errors : progress.summary.errors = (told.map (·.remarks.length)).sum

/-- The block of one more file stands behind an empty line, unless it is the first. -/
theorem Progress.Tells.linted (h : progress.Tells files) (file : LintedFile) :
    (progress.linted file.path file.remarks).Tells (files ++ [file]) := by
  obtain ⟨hstdout, hfiles, hfilesWithErrors, herrors⟩ := h
  cases hremarks : file.remarks with
  | nil =>
    have hsame : remarked (files ++ [file]) = remarked files := by simp [remarked, hremarks]
    refine ⟨?_, ?_, ?_, ?_⟩
    · simp [Progress.linted, blocks, hsame, hstdout]
    · simp [Progress.linted, Summary.add, hfiles]
    · simp [Progress.linted, Summary.add, hsame, hfilesWithErrors]
    · simp [Progress.linted, Summary.add, hremarks, herrors]
  | cons remark remarks =>
    have hmore : remarked (files ++ [file]) = remarked files ++ [file] := by
      simp [remarked, hremarks]
    refine ⟨?_, ?_, ?_, ?_⟩
    · -- the separator is asked of the number of blocks before
      by_cases hfirst : remarked files = []
      · simp [Progress.linted, blocks, hmore, hstdout, hfilesWithErrors, hfirst, hremarks]
      · have hblocks :
            (remarked files).map (fun file => formatFile file.path file.remarks) ≠ [] := by
          simpa using hfirst
        have hpos : 0 < (remarked files).length := List.length_pos_iff.mpr hfirst
        simp [Progress.linted, blocks, hmore, hstdout, hfilesWithErrors, hpos, hremarks,
          String.intercalate_append_of_ne_nil hblocks, String.append_assoc]
    · simp [Progress.linted, Summary.add, hfiles]
    · simp [Progress.linted, Summary.add, hmore, hfilesWithErrors]
    · simp [Progress.linted, Summary.add, hremarks, herrors]

/-- Files are told of one after the other if each step tells of its own. -/
theorem Progress.Tells.foldl {α : Type} {step : Progress → α → Progress}
    {tell : α → List LintedFile}
    (hstep : ∀ progress told a, progress.Tells told → (step progress a).Tells (told ++ tell a))
    (l : List α) (h : progress.Tells files) :
    (l.foldl step progress).Tells (files ++ l.flatMap tell) := by
  induction l generalizing progress files with
  | nil => simpa using h
  | cons a l ih =>
    rw [List.foldl_cons, List.flatMap_cons, ← List.append_assoc]
    exact ih (hstep progress files a h)

/-- There is no error line if no step makes one. -/
theorem Progress.errors_foldl {α : Type} {step : Progress → α → Progress} {good : α → Prop}
    (hstep : ∀ progress a, (step progress a).errors = [] ↔ progress.errors = [] ∧ good a)
    (l : List α) (progress : Progress) :
    (l.foldl step progress).errors = [] ↔ progress.errors = [] ∧ ∀ a ∈ l, good a := by
  induction l generalizing progress with
  | nil => simp
  | cons a l ih => rw [List.foldl_cons, ih, hstep, List.forall_mem_cons, and_assoc]

/-! ## What the arguments lead to -/

/-- Linting for a report always gives remarks. -/
theorem lint_eq_lintBytes (disabled : List String) (bytes : List UInt8) :
    lint { source := Text.Utf8.decode bytes, disabled } = .ok (lintBytes disabled bytes) := by
  have hok : ∃ remarks, lint { source := Text.Utf8.decode bytes, disabled } = .ok remarks := by
    unfold lint
    split
    · exact ⟨_, rfl⟩
    · rw [if_neg (by simp)]
      split
      · exact ⟨_, rfl⟩
      · exact ⟨_, rfl⟩
  obtain ⟨remarks, hremarks⟩ := hok
  rw [lintBytes, hremarks]

theorem Lints.eq_lintBytes {path : String} {bytes : List UInt8} {linted : LintedFile}
    (h : Lints disabled ⟨path, .ok bytes⟩ linted) : linted = ⟨path, lintBytes disabled bytes⟩ := by
  obtain ⟨hpath, _, ⟨⟩, hremarks⟩ := h
  rw [lint_eq_lintBytes, Except.ok.injEq] at hremarks
  rw [hremarks, ← show linted.path = path from hpath]

/-- The file with the remarks about it, if it can be read. -/
def FoundFile.linted? (disabled : List String) (file : FoundFile) : Option LintedFile :=
  file.contents.toOption.map fun bytes => ⟨file.path, lintBytes disabled bytes⟩

theorem forall₂_lints (disabled : List String) (found : List FoundFile) :
    List.Forall₂ (Lints disabled) (found.filter (·.contents.isOk))
      (found.filterMap (FoundFile.linted? disabled)) := by
  induction found with
  | nil => exact .nil
  | cons file found ih =>
    cases hcontents : file.contents with
    | ok bytes =>
      have hlinted : file.linted? disabled = some ⟨file.path, lintBytes disabled bytes⟩ := by
        simp [FoundFile.linted?, hcontents, Except.toOption]
      rw [List.filter_cons_of_pos (by simp [hcontents, Except.isOk, Except.toBool]),
        List.filterMap_cons_some hlinted]
      exact .cons ⟨rfl, bytes, hcontents, lint_eq_lintBytes disabled bytes⟩ ih
    | error reason =>
      have hlinted : file.linted? disabled = none := by
        simp [FoundFile.linted?, hcontents, Except.toOption]
      rwa [List.filter_cons_of_neg (by simp [hcontents, Except.isOk, Except.toBool]),
        List.filterMap_cons_none hlinted]

theorem Progress.Tells.file (h : progress.Tells files) (file : FoundFile) :
    (progress.file disabled file).Tells (files ++ (file.linted? disabled).toList) := by
  cases hcontents : file.contents with
  | ok bytes =>
    simpa [Progress.file, FoundFile.linted?, hcontents, Except.toOption] using
      h.linted ⟨file.path, lintBytes disabled bytes⟩
  | error reason =>
    simpa [Progress.file, FoundFile.linted?, hcontents, Except.toOption] using
      (⟨h.stdout, h.files, h.filesWithErrors, h.errors⟩ : (progress.fail _).Tells files)

theorem Progress.Tells.argument (h : progress.Tells files) (found : Found) :
    (progress.argument disabled found).Tells
      (files ++ found.toFiles.filterMap (FoundFile.linted? disabled)) := by
  cases found with
  | files found =>
    rw [List.filterMap_eq_flatMap_toList]
    exact h.foldl (fun _ _ file h => h.file file) found
  | badPattern pattern error =>
    simpa [Progress.argument, Found.toFiles] using
      (⟨h.stdout, h.files, h.filesWithErrors, h.errors⟩ : (progress.fail _).Tells files)

theorem Progress.errors_file (progress : Progress) (file : FoundFile) :
    (progress.file disabled file).errors = [] ↔
      progress.errors = [] ∧ file.contents.isOk = true := by
  cases hcontents : file.contents with
  | ok bytes => simp [Progress.file, hcontents, Progress.linted, Except.isOk, Except.toBool]
  | error reason => simp [Progress.file, hcontents, Progress.fail, Except.isOk, Except.toBool]

theorem Progress.errors_argument (progress : Progress) (found : Found) :
    (progress.argument disabled found).errors = [] ↔
      progress.errors = [] ∧ found.isBad = false ∧
        ∀ file ∈ found.toFiles, file.contents.isOk = true := by
  cases found with
  | files found => simp [Progress.argument, Progress.errors_foldl Progress.errors_file,
      Found.isBad, Found.toFiles]
  | badPattern pattern error => simp [Progress.argument, Progress.fail, Found.isBad]

/-! ## The whole report -/

theorem Progress.Tells.message (h : progress.Tells files) :
    progress.summary.message = closingLine files := by
  unfold Summary.message closingLine
  simp only [h.files, h.filesWithErrors, h.errors, List.length_eq_zero_iff, Nat.pos_iff_ne_zero,
    Ne, sum_remarks_eq_zero_iff, ite_not]

theorem Progress.Tells.failed_eq_false_iff (h : progress.Tells files) :
    progress.summary.failed = false ↔ files ≠ [] ∧ ∀ file ∈ files, file.remarks = [] := by
  rw [Summary.failed, h.files, h.errors, ← remarked_eq_nil_iff, ← sum_remarks_eq_zero_iff]
  simp

/-! ## The arguments -/

namespace Request

theorem disableValue?_append (code : String) :
    disableValue? ("--disable=" ++ code) = some code := by
  simp [disableValue?]

theorem ofArguments_disable (code : String) (arguments : List String) :
    ofArguments (("--disable=" ++ code) :: arguments) =
      (ofArguments arguments).withDisabled code := by
  have hne : ∀ other : String, other.length < 10 → "--disable=" ++ code ≠ other := by
    rintro _ hlength rfl
    have hstart : "--disable=".length = 10 := by decide
    rw [String.length_append] at hlength
    omega
  rw [ofArguments.eq_7 _ _ (hne _ (by decide)) (hne _ (by decide)) (hne _ (by decide))
    (fun h => absurd h (hne _ (by decide))) (fun _ _ h => absurd h (hne _ (by decide)))]
  simp only [disableValue?_append]

/-- All files can be asked for, and all rules can be disabled. -/
theorem ofArguments_disable_files (files disabled : List String) :
    ofArguments (disabled.map ("--disable=" ++ ·) ++ "--" :: files) = .lint files disabled := by
  induction disabled with
  | nil => rfl
  | cons code disabled ih => rw [List.map_cons, List.cons_append, ofArguments_disable, ih]; rfl

end Request

/-- The report about what the arguments lead to, in order. It is made of the blocks of the files
with remarks, whole lines each and with one empty line in between, and of the closing line. The
program succeeds exactly if no argument is a wrong pattern, all files can be read, there is one, and
there are no remarks. -/
theorem run_reports {m : Type → Type} [Monad m] (disk : Disk m) (files disabled : List String) :
    (∃ arguments, Request.ofArguments arguments = .lint files disabled) ∧
    (∀ arguments, Request.ofArguments arguments = .lint files disabled →
      run disk arguments = do return report disabled (← files.mapM (resolve disk))) ∧
    ∀ found : List Found, ∃ linted,
      List.Forall₂ (Lints disabled) ((found.flatMap Found.toFiles).filter (·.contents.isOk))
        linted ∧
      (report disabled found).stdout =
        "\n".intercalate (blocks linted) ++ closingLine linted ++ "\n" ∧
      (∀ block ∈ blocks linted, ∃ lines, block = lines ++ "\n") ∧
      ((report disabled found).exitCode = 0 ↔
        (∀ argument ∈ found, argument.isBad = false) ∧
        (∀ file ∈ found.flatMap Found.toFiles, file.contents.isOk = true) ∧
        linted ≠ [] ∧ ∀ file ∈ linted, file.remarks = []) ∧
      ((report disabled found).exitCode = 0 ∨ (report disabled found).exitCode = 1) := by
  refine ⟨⟨_, Request.ofArguments_disable_files files disabled⟩, ?_, ?_⟩
  · intro arguments harguments
    rw [run, harguments]
  intro found
  set told := found.flatMap fun argument =>
    argument.toFiles.filterMap (FoundFile.linted? disabled) with htold
  have htells : (found.foldl (Progress.argument disabled) {}).Tells told :=
    Progress.Tells.foldl (fun _ _ found h => h.argument found) found
      (⟨rfl, rfl, rfl, rfl⟩ : Progress.Tells {} [])
  refine ⟨told, ?_, ?_, fun block => exists_line_of_mem_blocks, ?_, ?_⟩
  · rw [htold, ← List.filterMap_flatMap]
    exact forall₂_lints disabled _
  · rw [report, Progress.output, htells.stdout, htells.message]
  · have herrors : (found.foldl (Progress.argument disabled) {}).errors = [] ↔
        (∀ argument ∈ found, argument.isBad = false) ∧
          ∀ file ∈ found.flatMap Found.toFiles, file.contents.isOk = true := by
      rw [Progress.errors_foldl Progress.errors_argument, List.forall_mem_flatMap]
      simp only [true_and, forall_and]
    rw [← and_assoc, ← herrors, ← htells.failed_eq_false_iff]
    simp [report, Progress.output]
  · simp only [report, Progress.output]
    split <;> simp

/-- An older assignment, a pattern that is none, a file without remarks, and a byte that is no
text. -/
theorem run_reports_mixed :
    let disk := (FileTree.mk [(["a"], [120, 61, 49]), (["b"], [120]), (["c"], [255])]).disk
    let output := run disk ["a", "--disable", "other", "[", "b", "c"]
    output.stdout = "a\n1:1 avoid legacy assignment  (no-legacy-assign)\n\n" ++
      "c\n1:1 Unexpected token: \ufffd  (syntax-error)\nfound 2 error(s) in 2 file(s)\n" ∧
    output.exitCode = 1 := by
  intro disk output
  obtain ⟨-, hrun, hreport⟩ := run_reports disk ["a", "[", "b", "c"] ["other"]
  obtain ⟨linted, hlints, hstdout, -, hsuccess, hcodes⟩ := hreport
    [.files [⟨"a", .ok [120, 61, 49]⟩], .badPattern "[" ⟨0, .range⟩, .files [⟨"b", .ok [120]⟩],
      .files [⟨"c", .ok [255]⟩]]
  have houtput : output = report ["other"] [.files [⟨"a", .ok [120, 61, 49]⟩],
      .badPattern "[" ⟨0, .range⟩, .files [⟨"b", .ok [120]⟩], .files [⟨"c", .ok [255]⟩]] :=
    (hrun _ rfl).trans (by with_unfolding_all rfl)
  obtain _ | ⟨ha, _ | ⟨hb, _ | ⟨hc, ⟨⟩⟩⟩⟩ := hlints
  refine ⟨?_, ?_⟩
  · rw [houtput, hstdout, ha.eq_lintBytes, hb.eq_lintBytes, hc.eq_lintBytes]
    decide +kernel
  · rw [houtput]
    refine hcodes.resolve_left fun hzero => ?_
    have hbad := (hsuccess.mp hzero).1 (.badPattern "[" ⟨0, .range⟩) (by simp)
    cases hbad

end HotkeyScript.Cli
