import HotkeyScript.Proofs.InBounds.Text
import Mathlib.Data.List.Chain
import Mathlib.Data.List.TakeWhile

/-!
# Lines and their ends

A list of lines is written with a line break behind each line, and read back by `Text.lines`. The
blanks at the ends of a text belong to no word, and a section trims them from a line without a look
at what stands between them.

## Main definitions

* `Text.unlines` — lines with a line break behind each.
* `Text.Tight` — a text with no blanks at its ends.
-/

namespace HotkeyScript

namespace Text

variable {cs line : List Char} {ls : List (List Char)} {c : Char}

/-! ## Lines with their breaks -/

/-- Lines with a line break behind each. -/
def unlines (ls : List (List Char)) : List Char :=
  ls.flatMap (· ++ ['\n'])

@[simp] theorem unlines_nil : unlines [] = [] := rfl

@[simp] theorem unlines_cons (line : List Char) (ls : List (List Char)) :
    unlines (line :: ls) = line ++ '\n' :: unlines ls := by
  simp [unlines]

@[simp] theorem unlines_append (ls ls' : List (List Char)) :
    unlines (ls ++ ls') = unlines ls ++ unlines ls' :=
  List.flatMap_append

theorem lines_line_append (hline : Unbroken line) (cs : List Char) :
    lines (line ++ '\n' :: cs) = line :: lines cs := by
  have hbreak : lines ('\n' :: cs) = [] :: lines cs :=
    lines_cons_of_isLineBreak (by decide) fun _ h => absurd h (by decide)
  rw [lines_append hline hbreak, List.append_nil]

/-- Lines that are written with their breaks are read back. -/
theorem lines_unlines_append (h : ∀ line ∈ ls, Unbroken line) (cs : List Char) :
    lines (unlines ls ++ cs) = ls ++ lines cs := by
  induction ls with
  | nil => rfl
  | cons line ls ih =>
    obtain ⟨hline, hls⟩ := List.forall_mem_cons.mp h
    rw [unlines_cons, List.append_assoc, List.cons_append, lines_line_append hline, ih hls,
      List.cons_append]

theorem lines_of_unbroken (h : Unbroken cs) : lines cs = [cs] := by
  simpa using lines_append h (show lines [] = [] :: [] from rfl)

/-- The last of the breaks is not part of a line. -/
theorem lines_dropFinalBreak_unlines (hne : ls ≠ []) (h : ∀ line ∈ ls, Unbroken line) :
    lines (dropFinalBreak (unlines ls)) = ls := by
  obtain ⟨init, last, rfl⟩ := (List.eq_nil_or_concat ls).resolve_left hne
  rw [List.concat_eq_append] at h ⊢
  obtain ⟨hinit, hlast⟩ := List.forall_mem_append.mp h
  have hdrop : dropFinalBreak (unlines (init ++ [last])) = unlines init ++ last := by
    have hreverse : (unlines (init ++ [last])).reverse = '\n' :: (unlines init ++ last).reverse := by
      simp
    -- the lines have no carriage return that would belong to the break
    have hreturn : (unlines init ++ last).getLast? ≠ some '\r' := by
      intro hreturn
      rcases List.mem_append.mp (List.mem_of_getLast? hreturn) with hmem | hmem
      · obtain ⟨line, hline, hmem⟩ := List.mem_flatMap.mp hmem
        rcases List.mem_append.mp hmem with hmem | hmem
        · cases hinit line hline '\r' hmem
        · cases List.mem_singleton.mp hmem
      · cases hlast last List.mem_cons_self '\r' hmem
    unfold dropFinalBreak
    rw [hreverse]
    split
    · next rest heq =>
      have hhead := congrArg List.head? (List.cons.inj heq).2
      rw [List.head?_reverse] at hhead
      exact absurd hhead hreturn
    · next c rest _ heq =>
      obtain ⟨rfl, rfl⟩ := List.cons.inj heq
      rw [if_pos (by decide), List.reverse_reverse]
    · next heq => cases heq
  rw [hdrop, lines_unlines_append hinit, lines_of_unbroken (hlast last List.mem_cons_self)]

/-! ## Words -/

theorem wordsAfter_blank (h : ∀ c ∈ cs, isBlank c = true) (run : List Char) :
    wordsAfter run cs = wordsAfter run [] := by
  induction cs generalizing run with
  | nil => rfl
  | cons c cs ih =>
    obtain ⟨hc, hcs⟩ := List.forall_mem_cons.mp h
    have hstep : wordsAfter run (c :: cs) =
        if run.isEmpty then wordsAfter [] cs else run.reverse :: wordsAfter [] cs := by
      rw [wordsAfter, if_pos hc]
    rw [hstep, ih hcs]
    rfl

/-- Blanks at the end are no words. -/
theorem words_append_blank {bs : List Char} (h : ∀ c ∈ bs, isBlank c = true) (cs : List Char) :
    words (cs ++ bs) = words cs := by
  have hrun : ∀ run, wordsAfter run (cs ++ bs) = wordsAfter run cs := by
    induction cs with
    | nil => exact wordsAfter_blank h
    | cons c cs ih =>
      intro run
      simp only [List.cons_append, wordsAfter, ih]
  exact hrun []

/-- Blanks at the start are no words. -/
theorem words_blank_append {bs : List Char} (h : ∀ c ∈ bs, isBlank c = true) (cs : List Char) :
    words (bs ++ cs) = words cs := by
  induction bs with
  | nil => rfl
  | cons c bs ih =>
    obtain ⟨hc, hbs⟩ := List.forall_mem_cons.mp h
    have hstep : words (c :: (bs ++ cs)) = words (bs ++ cs) := by
      rw [words, wordsAfter, if_pos hc]
      rfl
    rw [List.cons_append, hstep, ih hbs]

/-! ## Blanks at the ends -/

/-- The only blanks of the text are spaces and tabs. -/
def PlainBlanks (cs : List Char) : Prop :=
  ∀ c ∈ cs, isBlank c = true → isSpaceOrTab c = true

instance : DecidablePred PlainBlanks := fun cs =>
  decidable_of_iff (cs.all (fun c => isBlank c = true → isSpaceOrTab c = true) = true)
    (by simp only [PlainBlanks, List.all_eq_true, decide_eq_true_eq])

theorem PlainBlanks.of_mem_takeWhile (h : PlainBlanks cs) :
    ∀ c ∈ cs.takeWhile isBlank, isSpaceOrTab c = true := fun c hc =>
  h c ((List.takeWhile_prefix _).subset hc) (List.all_eq_true.mp List.all_takeWhile c hc)

/-- The text starts and ends with characters that are not blank. -/
@[mk_iff]
structure Tight (cs : List Char) : Prop where
  head : ∃ c, cs.head? = some c ∧ isBlank c = false
  last : ∃ c, cs.getLast? = some c ∧ isBlank c = false

instance : DecidablePred Tight := fun cs =>
  decidable_of_iff (cs.head?.any (!isBlank ·) = true ∧ cs.getLast?.any (!isBlank ·) = true)
    (by simp [tight_iff, Option.any_eq_true])

namespace Tight

theorem takeWhile_isBlank (h : Tight cs) : cs.takeWhile isBlank = [] := by
  obtain ⟨c, hc, hblank⟩ := h.head
  obtain ⟨more, rfl⟩ := List.head?_eq_some_iff.mp hc
  exact List.takeWhile_cons_of_neg (by simp [hblank])

theorem trimStart_eq (h : Tight cs) : trimStart cs = cs := by
  have hsplit := List.takeWhile_append_dropWhile (p := isBlank) (l := cs)
  rwa [h.takeWhile_isBlank, List.nil_append] at hsplit

theorem trimStart_ne_nil (h : Tight cs) : trimStart cs ≠ [] := by
  obtain ⟨c, hc, -⟩ := h.head
  rw [h.trimStart_eq]
  rintro rfl
  cases hc

end Tight

theorem isSpaceOrTab_of_not_isBlank (h : isBlank c = false) : isSpaceOrTab c = false := by
  rw [Bool.eq_false_iff]
  intro hspace
  cases h.symm.trans (isBlank_of_isSpaceOrTab hspace)

theorem trimEndWhile_of_all {p : Char → Bool} (h : ∀ c ∈ cs, p c = true) :
    trimEndWhile p cs = [] := by
  rw [trimEndWhile, List.dropWhile_eq_nil_iff.mpr (by simpa using h), List.reverse_nil]

/-- Trimming stops at a character that stays. -/
theorem trimEndWhile_append {p : Char → Bool} {mid : List Char}
    (hmid : mid.getLast? = some c) (hc : p c = false) (cs : List Char) :
    trimEndWhile p (mid ++ cs) = mid ++ trimEndWhile p cs := by
  obtain ⟨init, rfl⟩ := List.getLast?_eq_some_iff.mp hmid
  simp only [trimEndWhile, List.reverse_append, List.reverse_cons, List.reverse_nil,
    List.nil_append, List.dropWhile_append]
  split <;> simp_all

end Text

/-! ## Lines of a section -/

namespace Section

open Text (Tight isSpaceOrTab)

variable {options : Options} {lead mid rest : List Char}

namespace Options

theorem trimStart_append (hlead : ∀ c ∈ lead, isSpaceOrTab c = true) (hmid : Tight mid)
    (rest : List Char) :
    options.trimStart (lead ++ (mid ++ rest)) = options.trimStart lead ++ (mid ++ rest) := by
  unfold trimStart
  split
  · obtain ⟨first, hfirst, hblank⟩ := hmid.head
    obtain ⟨more, rfl⟩ := List.head?_eq_some_iff.mp hfirst
    have hstays := Text.isSpaceOrTab_of_not_isBlank hblank
    rw [List.dropWhile_append_of_pos hlead, List.dropWhile_eq_nil_iff.mpr hlead, List.cons_append,
      List.dropWhile_cons_of_neg (by simp [hstays]), List.nil_append]
  · rfl

/-- A text between the blanks at the ends of a line stays as it is. -/
theorem trimEnd_trimStart (hlead : ∀ c ∈ lead, isSpaceOrTab c = true) (hmid : Tight mid)
    (rest : List Char) :
    options.trimEnd (options.trimStart (lead ++ (mid ++ rest))) =
      options.trimStart lead ++ (mid ++ options.trimEnd rest) := by
  rw [trimStart_append hlead hmid, ← List.append_assoc, ← List.append_assoc]
  unfold trimEnd
  split
  · obtain ⟨last, hlast, hblank⟩ := hmid.last
    refine Text.trimEndWhile_append (c := last) ?_ (Text.isSpaceOrTab_of_not_isBlank hblank) rest
    rw [List.getLast?_append, hlast, Option.some_or]
  · rfl

/-- A line without comments and without blanks at its ends stays as it is. -/
theorem trimLine_of_tight {line : List Char} (hcomments : options.comments = false)
    (hline : Tight line) : options.trimLine line = line := by
  have htrim : options.trimEnd (options.trimStart ([] ++ (line ++ []))) = _ :=
    trimEnd_trimStart (List.forall_mem_nil _) hline []
  simpa [trimLine, stripComment, hcomments, trimStart, trimEnd, Text.trimEndWhile] using htrim

section Sublist

variable (options : Options) (line : List Char)

theorem stripComment_sublist : (options.stripComment line).Sublist line := by
  unfold stripComment Section.stripComment
  split_ifs
  · exact List.nil_sublist _
  · exact (InBounds.beforeComment_prefix line).sublist
  · exact List.Sublist.refl _

theorem trimStart_sublist : (options.trimStart line).Sublist line := by
  unfold trimStart
  split
  · exact List.dropWhile_sublist _
  · exact List.Sublist.refl _

theorem trimEnd_sublist : (options.trimEnd line).Sublist line := by
  unfold trimEnd Text.trimEndWhile
  split
  · simpa using (List.dropWhile_sublist (l := line.reverse) Text.isSpaceOrTab).reverse
  · exact List.Sublist.refl _

theorem trimLine_sublist : (options.trimLine line).Sublist line :=
  (trimEnd_sublist _ _).trans ((trimStart_sublist _ _).trans (stripComment_sublist _ _))

end Sublist

/-! ### Joined lines -/

/-- Behind the first line, each line has the separator in front of it. -/
theorem joinLines_cons (options : Options) (line : List Char) (lines : List (List Char)) :
    options.joinLines (line :: lines) = options.trimLine line ++
      lines.flatMap fun line => options.separator.toList ++ options.trimLine line := by
  induction lines generalizing line with
  | nil => simp [joinLines, List.intercalate]
  | cons next lines ih =>
    have hrest := ih next
    simp only [joinLines, List.intercalate, List.map_cons, List.intersperse_cons_cons,
      List.flatten_cons, List.flatMap_cons] at hrest ⊢
    rw [hrest, List.append_assoc]

/-- A character of joined lines is one of a line or of the separator. -/
theorem mem_of_mem_joinLines {ls : List (List Char)} {c : Char} (h : c ∈ options.joinLines ls) :
    c ∈ options.separator.toList ∨ ∃ line ∈ ls, c ∈ line := by
  cases ls with
  | nil => cases h
  | cons line ls =>
    rw [joinLines_cons, List.mem_append, List.mem_flatMap] at h
    rcases h with h | ⟨next, hnext, h⟩
    · exact .inr ⟨line, List.mem_cons_self, (trimLine_sublist options line).subset h⟩
    · rcases List.mem_append.mp h with h | h
      · exact .inl h
      · exact .inr ⟨next, List.mem_cons_of_mem _ hnext, (trimLine_sublist options next).subset h⟩

/-- Lines that are joined by line breaks can be told apart again. -/
theorem splitOn_joinLines {ls : List (List Char)} (hseparator : options.separator = "\n")
    (hne : ls ≠ []) (hls : ∀ line ∈ ls, Text.Unbroken line) :
    (options.joinLines ls).splitOn '\n' = ls.map options.trimLine := by
  rw [joinLines, hseparator]
  refine List.splitOn_intercalate '\n' ?_ (by simpa using hne)
  intro trimmed htrimmed hmem
  obtain ⟨line, hline, rfl⟩ := List.mem_map.mp htrimmed
  cases hls line hline '\n' ((trimLine_sublist options line).subset hmem)

end Options

/-- No comment of a line starts between the two characters. -/
def Joins (c d : Char) : Prop :=
  d = ';' → isSpaceOrTab c = false

/-- A text in which no comment starts stays, and the search goes on behind it. -/
theorem beforeComment_append (hmid : mid.IsChain Joins)
    (hlast : ∀ c ∈ mid.getLast?, ∀ d ∈ rest.head?, Joins c d) :
    beforeComment (mid ++ rest) = mid ++ beforeComment rest := by
  induction mid with
  | nil => rfl
  | cons c mid ih =>
    obtain ⟨hnext, hmid'⟩ := List.isChain_cons.mp hmid
    have hrest := ih hmid' fun d hd => hlast d (by
      rw [List.getLast?_cons, show mid.getLast? = some d from hd]
      rfl)
    have hstep : ∀ d ∈ (mid ++ rest).head?, Joins c d := by
      cases mid with
      | nil => exact hlast c rfl
      | cons d mid => exact hnext
    rw [List.cons_append, List.cons_append, ← hrest, beforeComment.eq_def]
    split
    · next d more heq =>
      obtain ⟨rfl, hmore⟩ := List.cons.inj heq
      rw [if_neg (by simp [hstep ';' (by rw [hmore]; rfl) rfl]), hmore]
    · next d more _ heq =>
      obtain ⟨rfl, rfl⟩ := List.cons.inj heq
      rfl
    · next heq => cases heq

end Section

end HotkeyScript
