import HotkeyScript.Proofs.Grammar.PlainText
import HotkeyScript.Proofs.Stream.Enclosed
import HotkeyScript.Proofs.Text.Lines
import Mathlib.Data.List.Flatten

/-!
# The visible characters of literal text

Literal text is put together from tokens and from the gaps between them, and a gap is computed anew
where a continuation section joins lines. Nothing is written twice or made up on the way: the
characters that are not blank stand in the source in the same order, between the first and the last
token, as long as the sections join their lines with blanks. There are two exceptions, both behind a
string that a section carries on. Its indentation is the text in front of the string when the string
comes first, and the text behind its closing parenthesis is repeated when a token without a section
comes next.

## Main definitions

* `Text.visible` — the characters of a text that are not blank.
-/

namespace HotkeyScript

/-! ## Visible characters -/

namespace Text

variable {cs cs' : List Char}

/-- The characters of a text that are not blank. -/
def visible (cs : List Char) : List Char :=
  cs.filter (!isBlank ·)

@[simp] theorem visible_append (cs cs' : List Char) :
    visible (cs ++ cs') = visible cs ++ visible cs' :=
  List.filter_append cs cs'

theorem visible_eq_nil (h : ∀ c ∈ cs, isBlank c = true) : visible cs = [] := by
  simpa [visible] using h

theorem visible_sublist (h : cs.Sublist cs') : (visible cs).Sublist (visible cs') :=
  h.filter _

/-- Line breaks are blank. -/
theorem flatMap_visible_lines (cs : List Char) : (lines cs).flatMap visible = visible cs := by
  fun_induction lines cs with
  | case1 => rfl
  | case2 cs ih => simpa [visible, isBlank] using ih
  | case3 c cs hne hbreak ih => simpa [visible, isBlank_of_isLineBreak hbreak] using ih
  | case4 c cs hne hbreak hnil ih =>
    obtain ⟨line, rest, hcons⟩ := exists_lines_eq_cons cs
    cases hnil.symm.trans hcons
  | case5 c cs hne hbreak line rest hcons ih =>
    rw [hcons] at ih
    simp only [List.flatMap_cons, visible, List.filter_cons] at ih ⊢
    grind

/-- The first line reaches to the first line break. -/
theorem headD_lines (cs : List Char) : (lines cs).headD [] = cs.takeWhile (!isLineBreak ·) := by
  fun_induction lines cs with
  | case1 => rfl
  | case2 cs ih => rfl
  | case3 c cs hne hbreak ih => simp [hbreak]
  | case4 c cs hne hbreak hnil ih => simp_all
  | case5 c cs hne hbreak line rest hcons ih => simp_all

/-- Behind a line break the first line does not go on. -/
theorem takeWhile_append_of_broken (h : ¬Unbroken cs) (cs' : List Char) :
    (cs ++ cs').takeWhile (!isLineBreak ·) = cs.takeWhile (!isLineBreak ·) := by
  rw [List.takeWhile_append, if_neg]
  intro hlength
  refine h fun c hc => ?_
  have heq := (List.takeWhile_prefix (p := (!isLineBreak ·)) (l := cs)).eq_of_length hlength
  rw [← heq] at hc
  simpa using List.mem_takeWhile_imp hc

end Text

/-! ## Gaps -/

namespace Grammar

open Source (BreakBetween IsBoundary slice)
open HotkeyScript.Stream (ofSource)
open Text (visible)

variable {stream : Stream} {around : Section} {start stop first i : Nat} {source : Source}

/-- The last line of a text is a part of it. -/
theorem visible_getLastD_lines_sublist (cs : List Char) :
    (visible ((Text.lines cs).getLastD [])).Sublist (visible cs) := by
  rw [← Text.flatMap_visible_lines cs]
  obtain ⟨line, rest, hlines⟩ := Text.exists_lines_eq_cons cs
  obtain ⟨init, last, hlast⟩ := List.eq_nil_or_concat (line :: rest) |>.resolve_left (by simp)
  rw [hlines, hlast, List.concat_eq_append, List.getLastD_concat, List.flatMap_append,
    List.flatMap_singleton]
  exact List.sublist_append_right _ _

/-- A gap that leads into a section is the indentation of its first line. -/
theorem visible_sectionGap_opened (hopening : start ≤ around.opening.span.start) :
    (visible (sectionGap stream around start stop)).Sublist
      (visible (slice stream.source start stop)) := by
  simp only [sectionGap, if_pos hopening]
  exact (Text.visible_sublist (Section.Options.trimStart_sublist _ _)).trans
    (visible_getLastD_lines_sublist _)

/-- A gap that leads out of a section has the end of its last line and the text behind the closing
parenthesis. -/
theorem visible_sectionGap_closed (hopening : around.opening.span.start < start)
    (hclosing : around.closing.span.stop ≤ stop) (hstart : IsBoundary stream.source start)
    (hmid : IsBoundary stream.source around.closing.span.stop)
    (hstop : IsBoundary stream.source stop)
    (hbreak : BreakBetween stream.source start around.closing.span.stop) :
    (visible (sectionGap stream around start stop)).Sublist
      (visible (slice stream.source start stop)) := by
  have hle : start ≤ around.closing.span.stop := by
    obtain ⟨before, break_, after, -, -, hle, hlt⟩ := hbreak
    omega
  obtain ⟨before, text, after, hsource, hbefore, hlength, htext⟩ := hstart.split hmid hle
  have hbroken := hbreak.not_unbroken hsource (Nat.le_of_eq hbefore.symm) (Nat.le_of_eq hlength)
  simp only [sectionGap, if_neg (Nat.not_le_of_lt hopening), if_pos hclosing, Text.visible_append]
  rw [← Source.slice_append_slice hstart hmid hstop hle hclosing, Text.visible_append]
  refine List.Sublist.append_right ?_ _
  refine (Text.visible_sublist (Section.Options.trimEnd_sublist _ _)).trans
    ((Text.visible_sublist (Section.Options.stripComment_sublist _ _)).trans
      (Text.visible_sublist ?_))
  rw [Text.headD_lines, htext, Text.takeWhile_append_of_broken hbroken]
  exact List.takeWhile_sublist _

/-- A gap inside of a section has the end of one line, the lines that follow and the start of
another line, with separators between them. -/
theorem visible_sectionGap_inside (hopening : around.opening.span.start < start)
    (hclosing : stop < around.closing.span.stop) (hstart : IsBoundary stream.source start)
    (hstop : IsBoundary stream.source stop) (hbreak : BreakBetween stream.source start stop)
    (hseparator : ∀ c ∈ around.options.separator.toList, Text.isBlank c = true) :
    (visible (sectionGap stream around start stop)).Sublist
      (visible (slice stream.source start stop)) := by
  have hle : start ≤ stop := by
    obtain ⟨before, break_, after, -, -, hle, hlt⟩ := hbreak
    omega
  obtain ⟨before, text, after, hsource, hbefore, hlength, htext⟩ := hstart.split hstop hle
  have hbroken := hbreak.not_unbroken hsource (Nat.le_of_eq hbefore.symm) (Nat.le_of_eq hlength)
  have hnone := Text.visible_eq_nil hseparator
  simp only [sectionGap, if_neg (Nat.not_le_of_lt hopening), if_neg (Nat.not_le_of_lt hclosing),
    htext, Text.visible_append, hnone, List.append_nil]
  -- the text has two lines at least, so its first line is not the last one
  obtain ⟨line, lines, hcons⟩ := Text.exists_lines_eq_cons text
  have hmore : lines ≠ [] := by
    rintro rfl
    refine hbroken (Text.lineBreaks_eq_zero_iff.mp ?_)
    have := Text.length_lines text
    rw [hcons, List.length_singleton] at this
    omega
  obtain ⟨init, last, rfl⟩ := (List.eq_nil_or_concat lines).resolve_left hmore
  rw [List.concat_eq_append] at hcons
  rw [← Text.flatMap_visible_lines text, hcons, List.headD_cons, List.drop_one, List.tail_cons,
    List.dropLast_concat, ← List.cons_append, List.getLastD_concat, List.flatMap_append,
    List.flatMap_cons, List.flatMap_singleton]
  refine List.Sublist.append (List.Sublist.append ?_ ?_) ?_
  · exact Text.visible_sublist ((Section.Options.trimEnd_sublist _ _).trans
      (Section.Options.stripComment_sublist _ _))
  · rw [visible, List.filter_flatMap]
    refine (List.filter_sublist.flatMap _).trans (List.Sublist.flatMap_right _ fun line _ => ?_)
    have hline := Text.visible_sublist (Section.Options.trimLine_sublist around.options line)
    have hjoined : visible (around.options.separator.toList ++ around.options.trimLine line) =
        visible (around.options.trimLine line) := by
      rw [Text.visible_append, hnone, List.nil_append]
    rw [← visible, hjoined]
    exact hline
  · exact Text.visible_sublist (Section.Options.trimStart_sublist _ _)

/-- Between two tokens there is nothing visible but what the source has there. A string that a
section carries on must not stand in front of a token without a section. -/
theorem visible_gap_sublist {last next : Token} (hlast : (ofSource source).token? i = some last)
    (hnext : (ofSource source).token? (i + 1) = some next)
    (hseparator : ∀ around, (ofSource source).section? (i + 1) = some around →
      ∀ c ∈ around.options.separator.toList, Text.isBlank c = true)
    (hcontinued : ∀ around, (ofSource source).section? i = some around →
      around.literal.isSome = true → ((ofSource source).section? (i + 1)).isSome = true) :
    (visible (gap (ofSource source) (i + 1))).Sublist
      (visible (slice source last.span.stop next.span.start)) := by
  have hcut := Stream.ofSource_cut hlast
  have hcut' := Stream.ofSource_cut hnext
  have hle := Stream.ofSource_ordered hlast hnext (Nat.lt_succ_self i)
  rw [gap, Nat.add_sub_cancel, Stream.spanAt_eq hlast, Stream.spanAt_eq hnext]
  split
  · exact List.Sublist.refl _
  next hline =>
  cases hsection : (ofSource source).section? (i + 1) with
  | some around =>
    rw [Option.some_or]
    rcases Nat.lt_or_ge around.opening.span.start last.span.stop with hopening | hopening
    · have hnone : around.literal = none := by
        cases hliteral : around.literal with
        | none => rfl
        | some literal =>
          have := Stream.start_lt_opening hsection (by simp [hliteral]) hnext
          omega
      obtain ⟨j, hlines⟩ := Stream.exists_inLines hsection hnone hnext
      have hbreak := (hlines.of_lt (Nat.lt_succ_self i) hlast hopening).break_between hlines hle
        hline
      have hlt := (Token.tokenize_ordered source).1 _ hlines.filled.closing |>.lt
      have := hlines.inner.2.2.1
      have := hcut'.lt
      exact visible_sectionGap_inside hopening (by omega) hcut.stop hcut'.start hbreak
        (hseparator around hsection)
    · exact visible_sectionGap_opened hopening
  | none =>
    rw [Option.none_or]
    cases hbefore : (ofSource source).section? i with
    | none => exact List.nil_sublist _
    | some around =>
      have hnone : around.literal = none := by
        cases hliteral : around.literal with
        | none => rfl
        | some literal =>
          have := hcontinued around hbefore (by simp [hliteral])
          simp [hsection] at this
      obtain ⟨j, hlines⟩ := Stream.exists_inLines hbefore hnone hlast
      have hproper := (Token.tokenize_ordered source).1 _ hlines.filled.closing
      have hopening := (Token.tokenize_ordered source).1 _ hlines.filled.opening
      have := hlines.inner.2.1
      have := hopening.lt
      have := hcut.lt
      exact visible_sectionGap_closed (by omega)
        (hlines.closing_le (Nat.lt_succ_self i) hnext hsection) hcut.stop hproper.stop hcut'.start
        (hlines.break_before_closing.mono (Nat.le_refl _) (Nat.le_of_lt hproper.lt))

/-- Nothing visible stands in front of the first token of a section. A string that the section
carries on must not have anything visible in front of it, unless the section trims it. -/
theorem visible_sectionIndent
    (hcontinued : ∀ around, (ofSource source).section? i = some around →
      around.literal.isSome = true → around.options.trimLeft = true ∨
        ∀ c ∈ Source.lineBefore source ((ofSource source).spanAt i).start, Text.isBlank c = true) :
    visible (sectionIndent (ofSource source) i) = [] := by
  unfold sectionIndent
  split
  · rfl
  next around hsection =>
  simp only [Bool.and_eq_true, Bool.not_eq_true']
  split
  · next hfirst =>
    refine Text.visible_eq_nil ?_
    cases hliteral : around.literal with
    | some literal =>
      refine (hcontinued around hsection (by simp [hliteral])).resolve_left ?_
      simp [hfirst.2]
    | none =>
      obtain ⟨item, j, hitem, -⟩ := Stream.section?_eq_some_iff.mp hsection
      have htoken : (ofSource source).token? i = some item.token := by
        rw [Stream.token?, hitem]
        rfl
      obtain ⟨j, hlines⟩ := Stream.exists_inLines hsection hliteral htoken
      rw [Stream.spanAt_eq htoken]
      exact hlines.blank_lineBefore hfirst.1
  · rfl

/-! ## Literal text -/

/-- The visible characters of literal text stand in its source in the same order, if its sections
join lines with blanks. This holds for all literal text in which no string that a section carries on
is out of place. Such a string must not come first with visible characters in front of it, unless
its section trims them, and the token behind it has to lie in a section. -/
theorem visible_assembled_sublist (source : Source) (first stop : Nat) (hlt : first < stop)
    (hle : stop ≤ (ofSource source).size)
    (hseparator : ∀ i, first ≤ i → i < stop → ∀ around ∈ (ofSource source).section? i,
      ∀ c ∈ around.options.separator.toList, Text.isBlank c = true)
    (hfirst : ∀ around ∈ (ofSource source).section? first, around.literal.isSome = true →
      around.options.trimLeft = true ∨
        ∀ c ∈ Source.lineBefore source ((ofSource source).spanAt first).start,
          Text.isBlank c = true)
    (hnext : ∀ i, first ≤ i → i < stop - 1 → ∀ around ∈ (ofSource source).section? i,
      around.literal.isSome = true → ((ofSource source).section? (i + 1)).isSome = true) :
    (visible (assembled (ofSource source) first stop)).Sublist
      (visible (assemble (ofSource source) first stop).raw.toList) := by
  obtain ⟨head, hhead⟩ := Stream.exists_token_of_lt (Nat.lt_of_lt_of_le hlt hle)
  have hcut := Stream.ofSource_cut hhead
  have hraw : ∀ stop, (assemble (ofSource source) first stop).raw.toList =
      slice source head.span.start ((ofSource source).endBefore stop) := by
    intro stop
    rw [assemble, String.toList_ofList, Stream.spanAt_eq hhead]
    rfl
  rw [hraw]
  induction stop, hlt using Nat.le_induction with
  | base =>
    have hone : first + 1 - first = 1 := by omega
    have htext : (ofSource source).textAt first =
        slice source head.span.start head.span.stop := by simp [Stream.textAt, hhead, hcut.text]
    simp only [assembled, hone, List.range'_one, List.flatMap_singleton, if_true,
      Text.visible_append]
    rw [visible_sectionIndent hfirst, htext, Stream.endBefore_succ hhead]
    exact List.Sublist.refl _
  | succ n hn ih =>
    obtain ⟨n, rfl⟩ := Nat.exists_eq_succ_of_ne_zero (show n ≠ 0 by omega)
    obtain ⟨last, hlast⟩ := Stream.exists_token_of_lt (show n < (ofSource source).size by omega)
    obtain ⟨next, hnext'⟩ := Stream.exists_token_of_lt (show n + 1 < (ofSource source).size by omega)
    have hlastCut := Stream.ofSource_cut hlast
    have hnextCut := Stream.ofSource_cut hnext'
    have hfollows := Stream.ofSource_ordered hlast hnext' (Nat.lt_succ_self n)
    have hbehind : head.span.start ≤ last.span.stop := by
      rcases Nat.eq_or_lt_of_le (show first ≤ n by omega) with rfl | hlt
      · cases hhead.symm.trans hlast
        exact Nat.le_of_lt hcut.lt
      · have := Stream.ofSource_ordered hhead hlast hlt
        have := hcut.lt
        have := hlastCut.lt
        omega
    have htext : (ofSource source).textAt (n + 1) =
        slice source next.span.start next.span.stop := by
      simp [Stream.textAt, hnext', hnextCut.text]
    have hold := ih (by omega) (fun i hi hi' => hseparator i hi (by omega))
      (fun i hi hi' => hnext i hi (by omega))
    have hgap := visible_gap_sublist hlast hnext' (hseparator (n + 1) (by omega) (by omega))
      (hnext n (by omega) (by omega))
    rw [Stream.endBefore_succ hlast] at hold
    rw [assembled_succ (by omega), Stream.endBefore_succ hnext', htext, Text.visible_append,
      Text.visible_append,
      ← Source.slice_append_slice hcut.start hlastCut.stop hnextCut.stop hbehind
        (Nat.le_trans hfollows (Nat.le_of_lt hnextCut.lt)),
      ← Source.slice_append_slice hlastCut.stop hnextCut.start hnextCut.stop hfollows
        (Nat.le_of_lt hnextCut.lt), Text.visible_append, Text.visible_append]
    exact hold.append (hgap.append_right _)

/-- Text above a section, lines of the section and text behind it, with a string that the section
behind it carries on. -/
theorem visible_assembled_sublist_section :
    let source := "x = a\n( Join`s\nb c\n\n  ; d\n) e \"f\n(\ng\n)h\"".toList
    (ofSource source).size = 8 ∧
      (visible (assembled (ofSource source) 2 8)).Sublist
        (visible (assemble (ofSource source) 2 8).raw.toList) := by
  intro source
  have hsize : (ofSource source).size = 8 := by decide +kernel
  have hseparator : ∀ i, 2 ≤ i → i < 8 → ∀ around ∈ (ofSource source).section? i,
      around.options.separator.toList.all Text.isBlank = true := by decide +kernel
  have hfirst : (ofSource source).section? 2 = none := by decide +kernel
  exact ⟨hsize, visible_assembled_sublist source 2 8 (by decide) (Nat.le_of_eq hsize.symm)
    (fun i hle hlt around haround => List.all_eq_true.mp (hseparator i hle hlt around haround))
    (fun around haround => by cases hfirst.symm.trans haround) (by decide +kernel)⟩

/-- A string that a section carries on takes the text in front of it along when it comes first, and
the text behind its section is repeated in front of the next token. -/
theorem visible_assembled_repeats :
    let first := ofSource "x = \"a\n(\nb\n)\"".toList
    let next := ofSource "x = a \"b\n(\nc\n)d\" e".toList
    (legacyText? first (fun _ => false) 2 = some (assemble first 2 3, 3) ∧
      first.sections.toList.map (·.options.separator) = ["\n"] ∧
      ¬(visible (assembled first 2 3)).Sublist (visible (assemble first 2 3).raw.toList)) ∧
    legacyText? next (fun _ => false) 2 = some (assemble next 2 5, 5) ∧
      next.sections.toList.map (·.options.separator) = ["\n"] ∧
      ¬(visible (assembled next 2 5)).Sublist (visible (assemble next 2 5).raw.toList) := by
  decide +kernel

end Grammar

end HotkeyScript
