import HotkeyScript.Proofs.Source.Boundary

/-!
# Texts behind each other

An offset in a text is an offset in a longer one: text behind it changes nothing, and text before it
moves the offset. A line stays the same line if the text behind it starts with a line break, and the
text before it ends with one.

## Main definitions

* `Text.EndsLine` — what stands behind the text is on another line.
* `Source.breakLength` — the length of a line break.
-/

namespace HotkeyScript.Text

/-- The text is empty or ends with a line break. -/
def EndsLine (text : List Char) : Prop :=
  ∀ c, text.getLast? = some c → isLineBreak c = true

theorem endsLine_nil : EndsLine [] := by
  intro c h
  cases h

end HotkeyScript.Text

namespace HotkeyScript.Source

variable {cs before after : List Char} {a b n : Nat}

/-- A run of elements does not go on behind a list if the next one does not belong to it. -/
theorem takeWhile_after {α : Type} {p : α → Bool} {rest : List α}
    (h : ∀ x, rest.head? = some x → p x = false) (xs : List α) :
    (xs ++ rest).takeWhile p = xs.takeWhile p := by
  induction xs with
  | nil =>
    cases rest with
    | nil => rfl
    | cons x rest => simp [h x rfl]
  | cons x xs ih => by_cases hx : p x = true <;> simp [hx, ih]

/-! ## Text in front -/

theorem dropBytes_before (before cs : List Char) (n : Nat) :
    dropBytes (n + byteLength before) (before ++ cs) = dropBytes n cs := by
  induction before with
  | nil => rfl
  | cons c before ih =>
    have hpos := c.utf8Size_pos
    have hne : n + byteLength (c :: before) ≠ 0 := by
      rw [byteLength_cons]
      omega
    have hsub : n + byteLength (c :: before) - c.utf8Size = n + byteLength before := by
      rw [byteLength_cons]
      omega
    rw [List.cons_append, dropBytes, if_neg hne, hsub, ih]

theorem takeBytes_before (before cs : List Char) (n : Nat) :
    takeBytes (n + byteLength before) (before ++ cs) = before ++ takeBytes n cs := by
  induction before with
  | nil => rfl
  | cons c before ih =>
    have hpos := c.utf8Size_pos
    have hne : n + byteLength (c :: before) ≠ 0 := by
      rw [byteLength_cons]
      omega
    have hsub : n + byteLength (c :: before) - c.utf8Size = n + byteLength before := by
      rw [byteLength_cons]
      omega
    rw [List.cons_append, takeBytes, if_neg hne, hsub, ih, List.cons_append]

theorem slice_before (before cs : List Char) (a b : Nat) :
    slice (before ++ cs) (a + byteLength before) (b + byteLength before) = slice cs a b := by
  have hlength : b + byteLength before - (a + byteLength before) = b - a := by omega
  rw [slice, hlength, dropBytes_before, slice]

/-- A line starts anew behind text that ends with a line break. -/
theorem lineBefore_before (hbefore : Text.EndsLine before) (cs : List Char) (n : Nat) :
    lineBefore (before ++ cs) (n + byteLength before) = lineBefore cs n := by
  rw [lineBefore, takeBytes_before, List.reverse_append, lineBefore]
  cases hreverse : before.reverse with
  | nil => simp
  | cons c rest =>
    have hlast : before.getLast? = some c := by
      rw [← List.head?_reverse, hreverse]
      rfl
    rw [takeWhile_after (by simp [hbefore c hlast])]

/-! ## Text behind -/

theorem dropBytes_after (h : n ≤ byteLength cs) (after : List Char) :
    dropBytes n (cs ++ after) = dropBytes n cs ++ after := by
  induction cs generalizing n with
  | nil =>
    obtain rfl : n = 0 := by simpa using h
    simp
  | cons c cs ih =>
    by_cases hn : n = 0
    · simp [dropBytes, hn]
    · have hle : n - c.utf8Size ≤ byteLength cs := by
        rw [byteLength_cons] at h
        omega
      simp [dropBytes, hn, ih hle]

theorem takeBytes_after (h : n ≤ byteLength cs) (after : List Char) :
    takeBytes n (cs ++ after) = takeBytes n cs := by
  induction cs generalizing n with
  | nil =>
    obtain rfl : n = 0 := by simpa using h
    simp
  | cons c cs ih =>
    by_cases hn : n = 0
    · simp [takeBytes, hn]
    · have hle : n - c.utf8Size ≤ byteLength cs := by
        rw [byteLength_cons] at h
        omega
      simp [takeBytes, hn, ih hle]

theorem IsBoundary.le_byteLength (h : IsBoundary cs n) : n ≤ byteLength cs := by
  obtain ⟨before, after, rfl, rfl⟩ := h
  simp

theorem IsBoundary.byteLength_dropBytes (h : IsBoundary cs n) :
    byteLength (dropBytes n cs) = byteLength cs - n := by
  obtain ⟨before, after, rfl, rfl⟩ := h
  simp

theorem slice_after (ha : IsBoundary cs a) (hb : b ≤ byteLength cs) (after : List Char) :
    slice (cs ++ after) a b = slice cs a b := by
  have hle : b - a ≤ byteLength (dropBytes a cs) := by
    rw [ha.byteLength_dropBytes]
    omega
  rw [slice, dropBytes_after ha.le_byteLength, takeBytes_after hle, slice]

theorem lineBefore_after (h : n ≤ byteLength cs) (after : List Char) :
    lineBefore (cs ++ after) n = lineBefore cs n := by
  rw [lineBefore, takeBytes_after h, lineBefore]

theorem charBefore_after (h : n ≤ byteLength cs) (after : List Char) :
    charBefore (cs ++ after) n = charBefore cs n := by
  rw [charBefore, takeBytes_after h, charBefore]

/-- A line ends where the text ends, if a line break follows. -/
theorem lineAfter_after {stop : Char} (hstop : Text.isLineBreak stop = true)
    (h : n ≤ byteLength cs) (after : List Char) :
    lineAfter (cs ++ stop :: after) n = lineAfter cs n := by
  rw [lineAfter, dropBytes_after h, takeWhile_after (by simp [hstop]), lineAfter]

theorem lineEnd_after {stop : Char} (hstop : Text.isLineBreak stop = true)
    (h : n ≤ byteLength cs) (after : List Char) :
    lineEnd (cs ++ stop :: after) n = lineEnd cs n := by
  rw [lineEnd, lineAfter_after hstop h, lineEnd]

theorem lineStart_after (h : n ≤ byteLength cs) (after : List Char) :
    lineStart (cs ++ after) n = lineStart cs n := by
  rw [lineStart, lineBefore_after h, lineStart]

theorem IsBoundary.lineEnd (h : IsBoundary cs n) : IsBoundary cs (lineEnd cs n) :=
  h.add List.takeWhile_append_dropWhile.symm

theorem IsBoundary.dropBytes_lineEnd (h : IsBoundary cs n) :
    dropBytes (Source.lineEnd cs n) cs = (dropBytes n cs).dropWhile (!Text.isLineBreak ·) := by
  obtain ⟨before, after, rfl, rfl⟩ := h
  have hdrop := dropBytes_byteLength_append (before ++ after.takeWhile (!Text.isLineBreak ·))
    (after.dropWhile (!Text.isLineBreak ·))
  rw [List.append_assoc, List.takeWhile_append_dropWhile] at hdrop
  rw [Source.lineEnd, lineAfter, dropBytes_byteLength_append, ← byteLength_append, hdrop]

/-- The number of characters of the line break at the start of a text. -/
def breakLength : List Char → Nat
  | '\r' :: '\n' :: _ => 2
  | _ :: _ => 1
  | [] => 0

theorem nextLineStart_eq (source : Source) (n : Nat) :
    nextLineStart source n =
      lineEnd source n + breakLength (dropBytes (lineEnd source n) source) := by
  simp only [nextLineStart]
  fun_cases breakLength (dropBytes (lineEnd source n) source) <;> simp_all

theorem getLast?_ne_of_append (text : List Char) {c : Char}
    (h : (text ++ cs).getLast? ≠ some c) : cs.getLast? ≠ some c := by
  intro hlast
  rw [List.getLast?_append, hlast] at h
  exact h rfl

/-- A line break at the end of a text could be half of one that the text behind completes. -/
theorem breakLength_append (hne : cs ≠ []) (hreturn : cs.getLast? ≠ some '\r')
    (after : List Char) : breakLength (cs ++ after) = breakLength cs := by
  fun_cases breakLength cs with
  | case1 cs => rfl
  | case2 c cs hpair =>
    rw [List.cons_append, breakLength]
    intro tail hc heq
    cases cs with
    | nil => exact hreturn (by simp [hc])
    | cons d cs => exact hpair cs hc (by rw [(List.cons.inj heq).1])
  | case3 => exact absurd rfl hne

theorem IsBoundary.nextLineStart (h : IsBoundary cs n) :
    IsBoundary cs (Source.nextLineStart cs n) := by
  have hbreak := List.head?_dropWhile_not (!Text.isLineBreak ·) (dropBytes n cs)
  rw [← h.dropBytes_lineEnd] at hbreak
  rw [nextLineStart_eq]
  have hadd : ∀ text rest, dropBytes (Source.lineEnd cs n) cs = text ++ rest →
      IsBoundary cs (Source.lineEnd cs n + byteLength text) := fun _ _ => h.lineEnd.add
  revert hadd hbreak
  generalize dropBytes (Source.lineEnd cs n) cs = rest
  intro hbreak hadd
  fun_cases breakLength rest with
  | case1 rest => exact hadd ['\r', '\n'] rest rfl
  | case2 c rest =>
    have hsize := Text.utf8Size_of_isLineBreak (by simpa using hbreak)
    simpa [hsize] using hadd [c] rest rfl
  | case3 => exact hadd [] [] rfl

/-- The next line starts at the same place, if there is one in the text. -/
theorem nextLineStart_after (hreturn : cs.getLast? ≠ some '\r') (h : IsBoundary cs n)
    (hlt : lineEnd cs n < byteLength cs) (after : List Char) :
    nextLineStart (cs ++ '\n' :: after) n = nextLineStart cs n := by
  obtain ⟨before, hsplit, hbefore⟩ := h.lineEnd.dropBytes_append
  have hne : dropBytes (lineEnd cs n) cs ≠ [] := by
    intro hnil
    rw [hnil, List.append_nil] at hsplit
    rw [← hsplit] at hbefore
    omega
  have hlast : (dropBytes (lineEnd cs n) cs).getLast? ≠ some '\r' :=
    getLast?_ne_of_append before (by rwa [← hsplit])
  rw [nextLineStart_eq, lineEnd_after (by decide) h.le_byteLength,
    dropBytes_after (Nat.le_of_lt hlt), breakLength_append hne hlast, nextLineStart_eq]

end HotkeyScript.Source
