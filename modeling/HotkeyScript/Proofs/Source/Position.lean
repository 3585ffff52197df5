import HotkeyScript.Proofs.Source.Append
import Mathlib.Data.List.TakeWhile

/-!
# Lines and columns of offsets

The line and the column of an offset follow from the text before it, character by character. On a
line, the column grows with every character; a byte order mark at the start of the source is not
counted, although it belongs to the first line of the text.

## Main definitions

* `Text.advance` — the line and the column behind a text.
* `Source.mark` — the byte order mark of a source, if it has one.
-/

namespace HotkeyScript.Text

variable {line column : Nat} {text cs : List Char}

/-- The line and the column behind a text that starts at the given ones. -/
def advance (line column : Nat) : List Char → Nat × Nat
  | [] => (line, column)
  | '\r' :: '\n' :: cs => advance (line + 1) 0 cs
  | c :: cs => if isLineBreak c then advance (line + 1) 0 cs else advance line (column + 1) cs

theorem advance_cons {c : Char} (hc : isLineBreak c = false) :
    advance line column (c :: cs) = advance line (column + 1) cs := by
  rw [advance, hc]
  · rfl
  · rintro cs' rfl -
    cases hc

theorem advance_break {c : Char} (hc : isLineBreak c = true)
    (hne : ∀ cs', c = '\r' → cs = '\n' :: cs' → False) :
    advance line column (c :: cs) = advance (line + 1) 0 cs := by
  rw [advance, if_pos hc]
  exact hne

/-- A text without a line break only moves the column. -/
theorem advance_append_of_unbroken (htext : Unbroken text) :
    advance line column (text ++ cs) = advance line (column + text.length) cs := by
  induction text generalizing column with
  | nil => rfl
  | cons c text ih =>
    obtain ⟨hc, htext⟩ := List.forall_mem_cons.mp htext
    rw [List.cons_append, advance_cons hc, ih htext, List.length_cons]
    congr 1
    omega

theorem advance_of_unbroken (htext : Unbroken text) :
    advance line column text = (line, column + text.length) := by
  have h : advance line column (text ++ []) = advance line (column + text.length) [] :=
    advance_append_of_unbroken htext
  rwa [List.append_nil] at h

/-- The second of two texts is counted from where the first ends, unless a line break stands across
the cut. -/
theorem advance_append (hcut : text.getLast? = some '\r' → cs.head? ≠ some '\n') :
    advance line column (text ++ cs) =
      advance (advance line column text).1 (advance line column text).2 cs := by
  fun_induction advance line column text with
  | case1 line column => rfl
  | case2 line column text ih =>
    refine ih fun hlast => hcut ?_
    cases text with
    | nil => cases hlast
    | cons c text => exact hlast
  | case3 line column c text hne hbreak ih =>
    have hcut' : text.getLast? = some '\r' → cs.head? ≠ some '\n' := by
      intro hlast
      refine hcut ?_
      rw [List.getLast?_cons, hlast]
      rfl
    rw [List.cons_append, advance_break hbreak, ih hcut']
    intro cs' hc hcs
    cases text with
    | nil =>
      refine hcut (by rw [hc]; rfl) ?_
      rw [show cs = '\n' :: cs' from hcs]
      rfl
    | cons d text =>
      cases hcs
      exact hne text hc rfl
  | case4 line column c text hne hbreak ih =>
    have hcut' : text.getLast? = some '\r' → cs.head? ≠ some '\n' := by
      intro hlast
      refine hcut ?_
      rw [List.getLast?_cons, hlast]
      rfl
    rw [List.cons_append, advance_cons (by simpa using hbreak), ih hcut']

theorem lineBreaks_eq_zero_iff : lineBreaks text = 0 ↔ Unbroken text := by
  fun_induction lineBreaks text with
  | case1 => simp [Unbroken]
  | case2 text ih => simp [Unbroken, isLineBreak]
  | case3 c text hne hbreak ih => simp [Unbroken, hbreak]
  | case4 c text hne hbreak ih => simp_all [Unbroken]

theorem length_takeWhile_reverse_of_unbroken (h : Unbroken text) :
    (text.reverse.takeWhile (!isLineBreak ·)).length = text.length := by
  have hall : ∀ c ∈ text.reverse, (!isLineBreak c) = true := by
    intro c hc
    simp [h c (List.mem_reverse.mp hc)]
  rw [List.takeWhile_eq_self_iff.mpr hall, List.length_reverse]

theorem takeWhile_reverse_cons {c : Char} (h : isLineBreak c = true ∨ ¬Unbroken cs) :
    (c :: cs).reverse.takeWhile (!isLineBreak ·) = cs.reverse.takeWhile (!isLineBreak ·) := by
  rw [List.reverse_cons]
  rcases h with hc | hcs
  · refine Source.takeWhile_after ?_ _
    rintro x ⟨⟩
    simp [hc]
  · rw [List.takeWhile_append, if_neg]
    intro hlength
    have hself := (List.takeWhile_prefix _).eq_of_length hlength
    refine hcs fun d hd => ?_
    simpa using List.takeWhile_eq_self_iff.mp hself d (List.mem_reverse.mpr hd)

/-- The line grows with the line breaks, and the column is counted from the last of them. -/
theorem advance_eq (line column : Nat) (cs : List Char) :
    advance line column cs =
      (line + lineBreaks cs, (if lineBreaks cs = 0 then column else 0) +
        (cs.reverse.takeWhile (!isLineBreak ·)).length) := by
  fun_induction advance line column cs with
  | case1 line column => rfl
  | case2 line column cs ih =>
    have hbreaks : lineBreaks ('\r' :: '\n' :: cs) = lineBreaks cs + 1 := by rw [lineBreaks]
    rw [ih, hbreaks, takeWhile_reverse_cons (.inl (by decide)),
      takeWhile_reverse_cons (.inl (by decide))]
    simp
    omega
  | case3 line column c cs hne hbreak ih =>
    have hbreaks : lineBreaks (c :: cs) = lineBreaks cs + 1 := by
      rw [lineBreaks, if_pos hbreak]
      exact hne
    rw [ih, hbreaks, takeWhile_reverse_cons (.inl hbreak)]
    simp
    omega
  | case4 line column c cs hne hbreak ih =>
    have hbreaks : lineBreaks (c :: cs) = lineBreaks cs := by
      rw [lineBreaks, if_neg hbreak]
      exact hne
    rw [ih, hbreaks]
    by_cases hcs : Unbroken cs
    · have hccs : Unbroken (c :: cs) := List.forall_mem_cons.mpr ⟨by simpa using hbreak, hcs⟩
      rw [if_pos (lineBreaks_eq_zero_iff.mpr hcs), if_pos (lineBreaks_eq_zero_iff.mpr hcs),
        length_takeWhile_reverse_of_unbroken hcs, length_takeWhile_reverse_of_unbroken hccs,
        List.length_cons, Nat.add_assoc, Nat.add_comm 1]
    · rw [takeWhile_reverse_cons (.inr hcs)]
      simp [mt lineBreaks_eq_zero_iff.mp hcs]

end HotkeyScript.Text

namespace HotkeyScript.Source

open Text (Unbroken advance)

variable {source : Source} {offset : Nat} {text rest : List Char}

/-- The byte order mark at the start of the source, if there is one. -/
def mark (source : Source) : List Char :=
  if source.head? = some byteOrderMark then [byteOrderMark] else []

theorem takeBytes_of_append {before after : List Char} (h : source = before ++ after) :
    takeBytes (byteLength before) source = before := by
  rw [h, takeBytes_byteLength_append]

/-- The mark and the text before an offset behind it. -/
theorem IsBoundary.behind_mark (h : IsBoundary source offset)
    (hle : byteLength (mark source) ≤ offset) :
    ∃ before, source = mark source ++ (before ++ dropBytes offset source) ∧
      offset = byteLength (mark source ++ before) := by
  obtain ⟨before, hsource, rfl⟩ := h.dropBytes_append
  have hmark : ∃ content, source = mark source ++ content := by
    unfold mark
    split
    · next hhead =>
      obtain ⟨content, hcontent⟩ := List.head?_eq_some_iff.mp hhead
      exact ⟨content, hcontent⟩
    · exact ⟨source, rfl⟩
  obtain ⟨content, hcontent⟩ := hmark
  obtain ⟨before', hbefore, -⟩ :=
    exists_append_of_byteLength_le (hcontent.symm.trans hsource) hle
  exact ⟨before', by rw [← List.append_assoc, ← hbefore, ← hsource], by rw [← hbefore]⟩

/-- The position of an offset is counted from the end of the mark. -/
theorem position_eq {before after : List Char}
    (h : source = mark source ++ (before ++ after)) :
    position source (byteLength (mark source ++ before)) = advance 0 0 before := by
  have htake := takeBytes_of_append (h.trans (List.append_assoc _ _ _).symm)
  have htext : (if (mark source ++ before).head? = some byteOrderMark then
      (mark source ++ before).tail else mark source ++ before) = before := by
    by_cases hhead : source.head? = some byteOrderMark
    · simp [mark, hhead]
    · have hbefore : before.head? ≠ some byteOrderMark := by
        intro hbefore
        obtain ⟨before', rfl⟩ := List.head?_eq_some_iff.mp hbefore
        refine hhead ?_
        rw [h, mark, if_neg hhead]
        rfl
      simp [mark, hhead, hbefore]
  simp only [position, htake, htext, Text.advance_eq, Nat.zero_add, ite_self]

/-- The position behind a text follows from the one before it. -/
theorem position_add (h : IsBoundary source offset) (hle : byteLength (mark source) ≤ offset)
    (hdrop : dropBytes offset source = text ++ rest) (hhead : text.head? ≠ some '\n') :
    position source (offset + byteLength text) =
      advance (position source offset).1 (position source offset).2 text := by
  obtain ⟨before, hsource, hoffset⟩ := h.behind_mark hle
  have hstop : offset + byteLength text = byteLength (mark source ++ (before ++ text)) := by
    simp only [hoffset, byteLength_append, Nat.add_assoc]
  have hsource' : source = mark source ++ ((before ++ text) ++ rest) := by
    rw [List.append_assoc, ← hdrop, ← hsource]
  rw [hstop, position_eq hsource', hoffset, position_eq hsource,
    Text.advance_append fun _ => hhead]

theorem position_add_of_unbroken (h : IsBoundary source offset)
    (hle : byteLength (mark source) ≤ offset) (hdrop : dropBytes offset source = text ++ rest)
    (htext : Unbroken text) :
    position source (offset + byteLength text) =
      ((position source offset).1, (position source offset).2 + text.length) := by
  have hhead : text.head? ≠ some '\n' := by
    intro hhead
    have := htext '\n' (List.mem_of_mem_head? hhead)
    cases this
  rw [position_add h hle hdrop hhead, Text.advance_of_unbroken htext]

/-- The line before an offset has as many characters as its column says, and the mark on the first
line besides. -/
theorem length_lineBefore (h : IsBoundary source offset) (hle : byteLength (mark source) ≤ offset) :
    (lineBefore source offset).length = (position source offset).2 +
      if source.head? = some byteOrderMark ∧ (position source offset).1 = 0 then 1 else 0 := by
  obtain ⟨before, hsource, rfl⟩ := h.behind_mark hle
  have htake := takeBytes_of_append (hsource.trans (List.append_assoc _ _ _).symm)
  rw [lineBefore, htake, position_eq hsource, Text.advance_eq, List.length_reverse]
  simp only [Nat.zero_add, ite_self]
  by_cases hhead : source.head? = some byteOrderMark
  · simp only [mark, hhead, if_true, true_and, List.singleton_append]
    split
    · next hbreaks =>
      have hbefore := Text.lineBreaks_eq_zero_iff.mp hbreaks
      have hmark : Unbroken (byteOrderMark :: before) :=
        List.forall_mem_cons.mpr ⟨by decide, hbefore⟩
      rw [Text.length_takeWhile_reverse_of_unbroken hmark,
        Text.length_takeWhile_reverse_of_unbroken hbefore, List.length_cons]
    · next hbreaks =>
      have hbefore := mt Text.lineBreaks_eq_zero_iff.mpr hbreaks
      rw [Text.takeWhile_reverse_cons (.inr hbefore), Nat.add_zero]
  · simp [mark, hhead]

/-- An offset behind a line break is not on the first line. -/
theorem BreakBetween.position_ne_zero {a : Nat} (hbreak : BreakBetween source a offset)
    (h : IsBoundary source offset) (hle : byteLength (mark source) ≤ offset) :
    (position source offset).1 ≠ 0 := by
  obtain ⟨before, hsource, rfl⟩ := h.behind_mark hle
  obtain ⟨before', break_, after, hsource', hbreak, -, hlt⟩ := hbreak
  rw [position_eq hsource, Text.advance_eq, Nat.zero_add]
  simp only [ne_eq, Text.lineBreaks_eq_zero_iff]
  intro hbefore
  have hmark : Unbroken (mark source ++ before) := by
    refine List.forall_mem_append.mpr ⟨?_, hbefore⟩
    unfold mark
    split <;> simp [byteOrderMark, Text.isLineBreak]
  rw [← List.append_assoc] at hsource
  obtain ⟨text, htext, hrest⟩ := exists_append_of_byteLength_le (hsource'.symm.trans hsource)
    (Nat.le_of_lt hlt)
  cases text with
  | nil =>
    rw [htext, List.append_nil] at hlt
    exact absurd hlt (Nat.lt_irrefl _)
  | cons c text =>
    cases hrest
    have hc := hmark break_ (by rw [htext]; simp)
    rw [hbreak] at hc
    cases hc

end HotkeyScript.Source
