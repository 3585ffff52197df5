import HotkeyScript.Source

/-!
# Offsets on character boundaries

An offset counts bytes, so it may fall inside a character. The laws of cuts hold for offsets between
two characters: there the text before the offset has as many bytes as the offset says.

## Main definitions

* `Source.IsBoundary` — an offset between two characters.
* `Source.BreakBetween` — a line ends between two offsets.
* `Text.Unbroken` — a text that lies on one line.
-/

namespace HotkeyScript.Text

/-- The text has no line break. -/
def Unbroken (text : List Char) : Prop :=
  ∀ c ∈ text, isLineBreak c = false

instance : DecidablePred Unbroken := fun text =>
  decidable_of_iff (text.all (!isLineBreak ·) = true) (by simp [Unbroken])

theorem isLineBreak_iff {c : Char} : isLineBreak c = true ↔ c = '\r' ∨ c = '\n' := by
  simp [isLineBreak]

theorem utf8Size_of_isLineBreak {c : Char} (h : isLineBreak c = true) : c.utf8Size = 1 := by
  simp only [isLineBreak, Bool.or_eq_true, beq_iff_eq] at h
  rcases h with rfl | rfl <;> rfl

end HotkeyScript.Text

namespace HotkeyScript.Source

variable {source : Source} {a b c : Nat}

/-! ## Boundaries -/

theorem eq_nil_of_byteLength {cs : List Char} (h : byteLength cs = 0) : cs = [] := by
  have := length_le_byteLength cs
  exact List.length_eq_zero_iff.mp (by omega)

/-- The offset lies between two characters, or at either end. -/
def IsBoundary (source : Source) (offset : Nat) : Prop :=
  ∃ before after, source = before ++ after ∧ offset = byteLength before

theorem isBoundary_append (before after : List Char) :
    IsBoundary (before ++ after) (byteLength before) :=
  ⟨before, after, rfl, rfl⟩

theorem IsBoundary.dropBytes_append (ha : IsBoundary source a) :
    ∃ before, source = before ++ dropBytes a source ∧ a = byteLength before := by
  obtain ⟨before, after, rfl, rfl⟩ := ha
  exact ⟨before, by rw [dropBytes_byteLength_append], rfl⟩

/-- A text behind a boundary ends at a boundary. -/
theorem IsBoundary.add {text rest : List Char} (ha : IsBoundary source a)
    (h : dropBytes a source = text ++ rest) : IsBoundary source (a + byteLength text) := by
  obtain ⟨before, hsource, rfl⟩ := ha.dropBytes_append
  rw [h] at hsource
  exact ⟨before ++ text, rest, by rw [hsource, List.append_assoc], by simp⟩

/-- Of two beginnings of a source the one with fewer bytes is a beginning of the other. -/
theorem exists_append_of_byteLength_le {before before' after after' : List Char}
    (h : before ++ after = before' ++ after') (hle : byteLength before ≤ byteLength before') :
    ∃ text, before' = before ++ text ∧ after = text ++ after' := by
  rcases List.append_eq_append_iff.mp h with ⟨text, rfl, rfl⟩ | ⟨text, rfl, rfl⟩
  · exact ⟨text, rfl, rfl⟩
  · have hnil : text = [] := eq_nil_of_byteLength (by simp at hle; omega)
    exact ⟨[], by simp [hnil], by simp [hnil]⟩

/-- Two boundaries cut a text out of the source. -/
theorem IsBoundary.split (ha : IsBoundary source a) (hb : IsBoundary source b) (hab : a ≤ b) :
    ∃ before text after, source = before ++ (text ++ after) ∧ a = byteLength before ∧
      b = byteLength before + byteLength text ∧ slice source a b = text := by
  obtain ⟨before, rest, rfl, rfl⟩ := ha
  obtain ⟨before', after, h, rfl⟩ := hb
  obtain ⟨text, rfl, rfl⟩ := exists_append_of_byteLength_le h hab
  refine ⟨before, text, after, rfl, rfl, by simp, ?_⟩
  rw [byteLength_append, slice_append]

theorem mem_of_mem_slice {c : Char} (h : c ∈ slice source a b) : c ∈ source := by
  have hdrop : c ∈ dropBytes a source := by
    rw [← takeBytes_append_dropBytes (b - a) (dropBytes a source)]
    exact List.mem_append_left _ h
  rw [← takeBytes_append_dropBytes a source]
  exact List.mem_append_right _ hdrop

theorem byteLength_slice (ha : IsBoundary source a) (hb : IsBoundary source b) (hab : a ≤ b) :
    a + byteLength (slice source a b) = b := by
  obtain ⟨before, text, after, -, rfl, rfl, htext⟩ := ha.split hb hab
  rw [htext]

/-- The slice of the next characters behind an offset. -/
theorem slice_take (source : Source) (a n : Nat) :
    slice source a (a + byteLength ((dropBytes a source).take n)) =
      (dropBytes a source).take n := by
  have htake := takeBytes_byteLength_append ((dropBytes a source).take n)
    ((dropBytes a source).drop n)
  rw [List.take_append_drop] at htake
  rw [slice, Nat.add_sub_cancel_left, htake]

/-- Slices that follow each other make up one slice. -/
theorem slice_append_slice (ha : IsBoundary source a) (hb : IsBoundary source b)
    (hc : IsBoundary source c) (hab : a ≤ b) (hbc : b ≤ c) :
    slice source a b ++ slice source b c = slice source a c := by
  obtain ⟨before, text, rest, rfl, rfl, rfl, htext⟩ := ha.split hb hab
  obtain ⟨before', after, h, rfl⟩ := hc
  rw [← List.append_assoc] at h
  obtain ⟨text', rfl, rfl⟩ := exists_append_of_byteLength_le h (by simpa using hbc)
  have hsecond : slice (before ++ (text ++ (text' ++ after))) (byteLength before + byteLength text)
      (byteLength before + byteLength text + byteLength text') = text' := by
    rw [← List.append_assoc, ← byteLength_append, slice_append]
  have hwhole : slice (before ++ (text ++ (text' ++ after))) (byteLength before)
      (byteLength before + byteLength (text ++ text')) = text ++ text' := by
    rw [← List.append_assoc text, slice_append]
  rw [htext]
  simp only [byteLength_append, ← Nat.add_assoc] at hwhole hsecond ⊢
  rw [hsecond, hwhole]

/-! ## Ends of lines -/

theorem byteLength_takeWhile_le {p : Char → Bool} {stop : Char} (hstop : p stop = false)
    (text rest : List Char) :
    byteLength ((text ++ stop :: rest).takeWhile p) ≤ byteLength text := by
  induction text with
  | nil => simp [hstop]
  | cons c text ih =>
    by_cases hc : p c = true
    · simpa [hc] using ih
    · simp [hc]

/-- A line break stands at or behind the first offset and before the second. -/
def BreakBetween (source : Source) (a b : Nat) : Prop :=
  ∃ before break_ after, source = before ++ break_ :: after ∧ Text.isLineBreak break_ = true ∧
    a ≤ byteLength before ∧ byteLength before < b

theorem BreakBetween.mono {a' b' : Nat} (h : BreakBetween source a b) (ha : a' ≤ a) (hb : b ≤ b') :
    BreakBetween source a' b' := by
  obtain ⟨before, break_, after, hsource, hbreak, hle, hlt⟩ := h
  exact ⟨before, break_, after, hsource, hbreak, by omega, by omega⟩

/-- A line break behind an offset stands behind every text that starts there and has none. -/
theorem BreakBetween.add {text rest : List Char} (h : BreakBetween source a b)
    (ha : IsBoundary source a) (hdrop : dropBytes a source = text ++ rest)
    (htext : Text.Unbroken text) : BreakBetween source (a + byteLength text) b := by
  obtain ⟨before, hsource, rfl⟩ := ha.dropBytes_append
  obtain ⟨before', break_, after, hsource', hbreak, hle, hlt⟩ := h
  refine ⟨before', break_, after, hsource', hbreak, ?_, hlt⟩
  rw [hdrop] at hsource
  obtain ⟨mid, rfl, hrest⟩ := exists_append_of_byteLength_le (hsource.symm.trans hsource') hle
  rcases List.append_eq_append_iff.mp hrest with ⟨more, rfl, -⟩ | ⟨more, rfl, hmore⟩
  · simp only [byteLength_append]
    omega
  · cases more with
    | nil => simp
    | cons c more =>
      -- otherwise the break belongs to the text
      cases hmore
      have := htext break_ (by simp)
      rw [hbreak] at this
      cases this

/-- A text that reaches over a line break is not unbroken. -/
theorem BreakBetween.not_unbroken {before text after : List Char} (h : BreakBetween source a b)
    (hsource : source = before ++ (text ++ after)) (ha : byteLength before ≤ a)
    (hb : b ≤ byteLength before + byteLength text) : ¬Text.Unbroken text := by
  intro htext
  obtain ⟨before', break_, after', hsource', hbreak, hle, hlt⟩ := h
  obtain ⟨mid, rfl, hrest⟩ :=
    exists_append_of_byteLength_le (hsource.symm.trans hsource') (Nat.le_trans ha hle)
  have hsize := Text.utf8Size_of_isLineBreak hbreak
  simp only [byteLength_append] at hlt
  obtain ⟨more, rfl, -⟩ := exists_append_of_byteLength_le
    (show (mid ++ [break_]) ++ after' = text ++ after by simp [hrest])
    (by simp only [byteLength_append, byteLength_cons, byteLength_nil]; omega)
  have hunbroken := htext break_ (by simp)
  cases hbreak.symm.trans hunbroken

/-- The line of an offset ends at the first line break behind it. -/
theorem BreakBetween.lineEnd_lt (h : BreakBetween source a b) (ha : IsBoundary source a) :
    lineEnd source a < b := by
  obtain ⟨before', break_, after', rfl, hbreak, hle, hlt⟩ := h
  obtain ⟨before, after, hsource, rfl⟩ := ha
  obtain ⟨text, rfl, rfl⟩ := exists_append_of_byteLength_le hsource.symm hle
  have hend : lineEnd (before ++ text ++ break_ :: after') (byteLength before) ≤
      byteLength before + byteLength text := by
    rw [lineEnd, lineAfter, List.append_assoc, dropBytes_byteLength_append]
    exact Nat.add_le_add_left (byteLength_takeWhile_le (by simp [hbreak]) text after') _
  simp only [byteLength_append] at hlt
  omega

end HotkeyScript.Source
