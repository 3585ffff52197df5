import HotkeyScript.Proofs.Grammar.Window.Outcome
import Mathlib.Data.List.Basic

/-!
# Literal text in a window

Literal text is put together from tokens and from the source between them. A window shows the same
tokens and the same source between them as the stream of the text alone, so the text is the same.
-/

namespace HotkeyScript.Grammar

open Source (IsBoundary byteLength)
open HotkeyScript.Stream (Window)

variable {inner outer : Stream} {n lines : Nat} {before after : Source}
  (w : Window inner outer n lines before after) {p q i : Nat}

theorem range'_window (n p q : Nat) :
    List.range' (n + p) (n + q - (n + p)) = (List.range' p (q - p)).map (n + ·) := by
  rw [List.map_add_range', Nat.add_sub_add_left]

include w

/-! ## Gaps -/

theorem sectionIndent_window (hi : i < inner.size) :
    sectionIndent outer (n + i) = sectionIndent inner i := by
  unfold sectionIndent
  rw [w.sections i hi]
  cases hsection : inner.section? i with
  | none => rfl
  | some around =>
    obtain ⟨rfl, rfl⟩ := w.first i around hsection
    have hprevious : (outer.previous? (0 + i)).all (·.span.stop ≤ around.opening.span.start) =
        (inner.previous? i).all (·.span.stop ≤ around.opening.span.start) := by
      rcases Nat.eq_zero_or_pos i with rfl | hpos
      · rfl
      · rw [w.previous? hpos (Nat.le_of_lt hi)]
        cases inner.previous? i <;> rfl
    have hline := w.lineBefore (w.isBoundary_start hi).le_byteLength
    simp only [hprevious, w.spanAt hi]
    rw [show (w.move (inner.spanAt i)).start = (inner.spanAt i).start + byteLength [] from rfl,
      hline]

theorem sectionGap_window {around : Section} {start stop : Nat} (hbefore : before = [])
    (hclosing : IsBoundary inner.source around.closing.span.stop)
    (hstart : IsBoundary inner.source start) (hstop : stop ≤ byteLength inner.source) :
    sectionGap outer around start stop = sectionGap inner around start stop := by
  subst hbefore
  have hslice : Source.slice outer.source start stop = Source.slice inner.source start stop :=
    w.slice hstart hstop
  have htail : Source.slice outer.source around.closing.span.stop stop =
      Source.slice inner.source around.closing.span.stop stop := w.slice hclosing hstop
  simp only [sectionGap, hslice, htail]

theorem gap_window (hpos : 0 < i) (hi : i < inner.size) : gap outer (n + i) = gap inner i := by
  have hprevious : n + i - 1 = n + (i - 1) := by omega
  have hstop := w.isBoundary_stop (show i - 1 < inner.size by omega)
  have hstart := (w.isBoundary_start hi).le_byteLength
  have hline : (w.move (inner.spanAt (i - 1))).line = (w.move (inner.spanAt i)).line ↔
      (inner.spanAt (i - 1)).line = (inner.spanAt i).line := Nat.add_right_cancel_iff
  simp only [gap, hprevious, w.spanAt hi, w.spanAt (show i - 1 < inner.size by omega), hline,
    w.sections i hi, w.sections (i - 1) (by omega)]
  split
  · exact w.slice hstop hstart
  · cases haround : (inner.section? i).or (inner.section? (i - 1)) with
    | none => rfl
    | some around =>
      -- a section is only seen from the start of the outer stream
      obtain ⟨j, hj⟩ : ∃ j, inner.section? j = some around := by
        rcases Option.or_eq_some_iff.mp haround with h | ⟨-, h⟩
        · exact ⟨i, h⟩
        · exact ⟨i - 1, h⟩
      have hbefore := (w.first j around hj).1
      have hzero : byteLength before = 0 := by rw [hbefore]; rfl
      have hmove : ∀ span, (w.move span).start = span.start ∧ (w.move span).stop = span.stop := by
        intro span
        simp [Window.move, hzero]
      simp only [hmove]
      exact sectionGap_window w hbefore (w.closing j around hj) hstop hstart

/-! ## Assembled text -/

theorem assembled_window (hq : q ≤ inner.size) :
    assembled outer (n + p) (n + q) = assembled inner p q := by
  rw [assembled, range'_window, List.flatMap_map, assembled]
  refine List.flatMap_congr fun i hi => ?_
  simp only [List.mem_range'_1] at hi
  have hlt : i < inner.size := by omega
  have hfirst : n + i = n + p ↔ i = p := Nat.add_left_cancel_iff
  simp only [hfirst, w.textAt hlt]
  split
  · rw [sectionIndent_window w hlt]
  · rw [gap_window w (by omega) hlt]

theorem hasLiteralAccent_window (hq : q ≤ inner.size) :
    hasLiteralAccent outer (n + p) (n + q) = hasLiteralAccent inner p q := by
  rw [hasLiteralAccent, range'_window, List.any_map, hasLiteralAccent, Bool.eq_iff_iff]
  simp only [List.any_eq_true, Function.comp_apply]
  refine exists_congr fun i => and_congr_right fun hi => ?_
  simp only [List.mem_range'_1] at hi
  rw [w.sections i (by omega)]

theorem assemble_window (hlt : p < q) (hq : q ≤ inner.size) :
    assemble outer (n + p) (n + q) = (assemble inner p q).mapSpan w.move := by
  have hstart := w.isBoundary_start (show p < inner.size by omega)
  have hstop : inner.endBefore q ≤ byteLength inner.source := by
    have hbound := (w.isBoundary_stop (show q - 1 < inner.size by omega)).le_byteLength
    obtain ⟨q, rfl⟩ := Nat.exists_eq_add_one_of_ne_zero (show q ≠ 0 by omega)
    obtain ⟨token, htoken⟩ := Stream.exists_token_of_lt (show q < inner.size by omega)
    rwa [Stream.endBefore_succ htoken, ← Stream.spanAt_eq htoken]
  have hraw : Source.slice outer.source (w.move (inner.spanTo (inner.spanAt p) q)).start
        (w.move (inner.spanTo (inner.spanAt p) q)).stop =
      Source.slice inner.source (inner.spanAt p).start (inner.endBefore q) :=
    w.slice hstart hstop
  simp only [assemble, w.spanTo_spanAt hlt hq, assembled_window w hq, hasLiteralAccent_window w hq,
    hraw]
  rfl

/-- Literal text reads as far and says the same. -/
theorem legacyText?_window {halt halt' : Nat → Bool} (hp : p ≤ inner.size)
    (hhalt : ∀ i, i < inner.size → halt' (n + i) = halt i) :
    legacyText? outer halt' (n + p) =
      (legacyText? inner halt p).map (carry n (LegacyLiteral.mapSpan w.move)) := by
  have hskip : outer.skip (fun i => outer.continues i && !halt' i) (n + p) =
      n + inner.skip (fun i => inner.continues i && !halt i) p := by
    refine w.skip hp (fun i _ hi => ?_) (by simp [w.ends])
    rw [w.continues (Nat.le_of_lt hi), hhalt i hi]
  have hle := inner.le_skip (fun i => inner.continues i && !halt i) p
  have hsize : inner.skip (fun i => inner.continues i && !halt i) p ≤ inner.size :=
    inner.skip_le_size hp
  simp only [legacyText?, hskip, Nat.add_left_cancel_iff]
  split
  · rfl
  · rw [assemble_window w (by omega) hsize]
    rfl

/-! ## Escapes and delimiters -/

theorem anySection_window (hi : i ≤ inner.size) (p : Section → Bool) :
    (outer.section? (n + i)).any p = (inner.section? i).any p := by
  rcases Nat.eq_or_lt_of_le hi with rfl | hlt
  · have hnone : inner.section? inner.size = none := by
      simp [Stream.section?, Stream.size]
    rw [hnone, Stream.section?]
    cases hitem : outer.items[n + inner.size]? with
    | none => rfl
    | some item => simp [(w.edge item hitem).outside]
  · rw [w.sections i hlt]

theorem accentsBefore_window (hi : i ≤ inner.size) :
    accentsBefore outer (n + i) = accentsBefore inner i := by
  induction i with
  | zero =>
    cases n with
    | zero => rfl
    | succ n =>
      have hopens := w.opens
      simp [accentsBefore, hopens]
  | succ i ih =>
    rw [← Nat.add_assoc, accentsBefore, w.reads (show i < inner.size from hi), Nat.add_assoc,
      w.touchesPrevious hi, ih (by omega), accentsBefore]

theorem isEscaped_window (hi : i ≤ inner.size) : isEscaped outer (n + i) = isEscaped inner i := by
  rw [isEscaped, anySection_window w hi, accentsBefore_window w hi, isEscaped]

theorem isDelimiter_window (hi : i ≤ inner.size) :
    isDelimiter outer (n + i) = isDelimiter inner i := by
  rw [isDelimiter, w.continuesWith hi, anySection_window w hi,
    isEscaped_window w hi, isDelimiter]

theorem forcesExpression_window (hi : i < inner.size) :
    forcesExpression outer (n + i) = forcesExpression inner i := by
  rw [forcesExpression, w.reads hi,
    anySection_window w (Nat.le_of_lt hi),
    Nat.add_assoc, w.touchesPrevious hi, forcesExpression]

end HotkeyScript.Grammar
