import HotkeyScript.Proofs.InBounds.Text
import HotkeyScript.Proofs.Source.Append
import HotkeyScript.Proofs.Token.Exact
import HotkeyScript.Section
import Mathlib.Data.List.Induction
import Mathlib.Data.List.TakeWhile

/-!
# Line endings

A line may end with a line feed, or with a carriage return in front of it. A text in which every
line feed gets a carriage return has the same lines, and an offset moves on by the line feeds before
it.

## Main definitions

* `Text.crlf` — the text with a carriage return in front of every line feed.
* `Source.stretch` — where an offset lies in that text.
-/

namespace HotkeyScript.Text

variable {cs text : List Char} {c : Char} {p : Char → Bool}

/-- The text with a carriage return in front of every line feed. -/
def crlf (text : List Char) : List Char :=
  text.flatMap fun c => if c = '\n' then ['\r', '\n'] else [c]

@[simp] theorem crlf_nil : crlf [] = [] := rfl

@[simp] theorem crlf_feed (cs : List Char) : crlf ('\n' :: cs) = '\r' :: '\n' :: crlf cs := rfl

theorem crlf_cons (hc : c ≠ '\n') (cs : List Char) : crlf (c :: cs) = c :: crlf cs := by
  simp [crlf, hc]

@[simp] theorem crlf_append (as bs : List Char) : crlf (as ++ bs) = crlf as ++ crlf bs :=
  List.flatMap_append

/-- Every line feed adds one byte. -/
theorem byteLength_crlf (text : List Char) :
    Source.byteLength (crlf text) = Source.byteLength text + text.count '\n' := by
  induction text with
  | nil => rfl
  | cons c text ih =>
    by_cases hc : c = '\n'
    · subst hc
      have hreturn : '\r'.utf8Size = 1 := rfl
      simp only [crlf_feed, Source.byteLength_cons, ih, List.count_cons_self, hreturn]
      omega
    · rw [crlf_cons hc, Source.byteLength_cons, ih, List.count_cons_of_ne hc,
        Source.byteLength_cons, Nat.add_assoc]

theorem crlf_eq_self (h : '\n' ∉ text) : crlf text = text := by
  induction text with
  | nil => rfl
  | cons c text ih =>
    simp only [List.mem_cons, not_or] at h
    rw [crlf_cons (Ne.symm h.1), ih h.2]

theorem ne_feed_of_not_isLineBreak (h : ¬isLineBreak c = true) : c ≠ '\n' := by
  rintro rfl
  exact h rfl

theorem feed_not_mem (h : Unbroken text) : '\n' ∉ text := fun hfeed =>
  absurd (h '\n' hfeed) (by decide)

theorem feed_mem_crlf : '\n' ∈ crlf text ↔ '\n' ∈ text := by
  simp only [crlf, List.mem_flatMap]
  grind

/-- Only a text without line feeds becomes one. -/
theorem crlf_eq_iff (h : '\n' ∉ cs) : crlf text = cs ↔ text = cs := by
  refine ⟨fun heq => ?_, fun heq => heq ▸ crlf_eq_self (heq ▸ h)⟩
  rw [← heq, feed_mem_crlf] at h
  rw [← heq, crlf_eq_self h]

/-! ## Lines -/

/-- A run that no line break belongs to stays as it is. -/
theorem takeWhile_crlf (hreturn : p '\r' = false) (hfeed : p '\n' = false) (text : List Char) :
    (crlf text).takeWhile p = text.takeWhile p := by
  induction text with
  | nil => rfl
  | cons c text ih =>
    by_cases hc : c = '\n'
    · subst hc
      simp [hreturn, hfeed]
    · simp only [crlf_cons hc, List.takeWhile_cons, ih]

theorem takeWhile_reverse_crlf (hfeed : p '\n' = false) (text : List Char) :
    (crlf text).reverse.takeWhile p = text.reverse.takeWhile p := by
  induction text using List.reverseRecOn with
  | nil => rfl
  | append_singleton text c ih =>
    by_cases hc : c = '\n'
    · subst hc
      simp [hfeed]
    · simp [crlf_cons hc, List.takeWhile_cons, ih]

theorem getLast?_crlf (text : List Char) : (crlf text).getLast? = text.getLast? := by
  cases text using List.reverseRecOn with
  | nil => rfl
  | append_singleton text c => by_cases hc : c = '\n' <;> simp [crlf_cons, hc]

theorem head?_crlf_eq_some_iff (hreturn : c ≠ '\r') (hfeed : c ≠ '\n') :
    (crlf text).head? = some c ↔ text.head? = some c := by
  cases text with
  | nil => rfl
  | cons d text => by_cases hd : d = '\n' <;> grind [crlf_cons, crlf_feed]

/-- The text has the same lines. -/
theorem lines_crlf (h : '\r' ∉ text) : lines (crlf text) = lines text := by
  induction text with
  | nil => rfl
  | cons c text ih =>
    simp only [List.mem_cons, not_or] at h
    by_cases hc : c = '\n'
    · subst hc
      rw [crlf_feed, lines, ih h.2, lines_cons_of_isLineBreak rfl (by rintro _ ⟨⟩)]
    · obtain ⟨line, rest, hlines⟩ := exists_lines_eq_cons text
      have hbreak : isLineBreak c = false := by simp [isLineBreak, hc, Ne.symm h.1]
      rw [crlf_cons hc, lines_cons hbreak hlines, lines_cons hbreak (ih h.2 ▸ hlines)]

theorem dropFinalBreak_crlf (h : '\r' ∉ text) :
    dropFinalBreak (crlf text) = crlf (dropFinalBreak text) := by
  cases text using List.reverseRecOn with
  | nil => rfl
  | append_singleton text c =>
    simp only [List.mem_append, List.mem_singleton, not_or] at h
    by_cases hc : c = '\n'
    · subst hc
      have hdrop : dropFinalBreak (text ++ ['\n']) = text := by
        unfold dropFinalBreak
        split
        · next rest hreverse =>
          have htail : text.reverse = '\r' :: rest := by simpa using hreverse
          exact absurd (List.mem_reverse.mp (htail ▸ List.mem_cons_self)) h.1
        · next d rest hne hreverse => grind [isLineBreak]
        · next hreverse => simp at hreverse
      rw [hdrop, crlf_append]
      simp [dropFinalBreak]
    · have hbreak : isLineBreak c = false := by simp [isLineBreak, hc, Ne.symm h.2]
      simp [dropFinalBreak, crlf_cons hc, hc, hbreak]

theorem mem_of_mem_dropFinalBreak (h : c ∈ dropFinalBreak text) : c ∈ text := by
  unfold dropFinalBreak at h
  rw [← List.mem_reverse]
  split at h <;> grind

/-- Line breaks are blank, so the text has the same words. -/
theorem wordsAfter_crlf (run text : List Char) :
    wordsAfter run (crlf text) = wordsAfter run text := by
  induction text generalizing run with
  | nil => rfl
  | cons c text ih =>
    by_cases hc : c = '\n'
    · subst hc
      have hreturn : isBlank '\r' = true := by decide
      have hfeed : isBlank '\n' = true := by decide
      cases run <;> simp [wordsAfter, hreturn, hfeed, ih]
    · simp only [crlf_cons hc, wordsAfter, ih]

end HotkeyScript.Text

namespace HotkeyScript.Source

open Text (crlf)

variable {source : Source} {a b n : Nat} {text rest : List Char}

/-! ## Offsets -/

/-- Where an offset lies in the source with a carriage return in front of every line feed. -/
def stretch (source : Source) (offset : Nat) : Nat :=
  offset + (takeBytes offset source).count '\n'

@[simp] theorem stretch_zero (source : Source) : stretch source 0 = 0 := by
  simp [stretch]

theorem takeBytes_mono (hle : a ≤ b) (cs : List Char) : takeBytes a cs <+: takeBytes b cs := by
  induction cs generalizing a b with
  | nil => exact List.prefix_refl []
  | cons c cs ih =>
    by_cases ha : a = 0
    · simp [ha]
    · have hb : b ≠ 0 := by omega
      have hsub : a - c.utf8Size ≤ b - c.utf8Size := by omega
      simpa [takeBytes, ha, hb] using ih hsub

/-- Offsets stay in their order. -/
theorem stretch_lt_stretch (hlt : a < b) : stretch source a < stretch source b := by
  have hcount := (takeBytes_mono (Nat.le_of_lt hlt) source).sublist.count_le '\n'
  simp only [stretch]
  omega

@[simp] theorem stretch_lt_iff : stretch source a < stretch source b ↔ a < b := by
  refine ⟨fun h => ?_, stretch_lt_stretch⟩
  rcases Nat.lt_trichotomy a b with hlt | rfl | hlt
  · exact hlt
  · omega
  · have := @stretch_lt_stretch source b a hlt
    omega

@[simp] theorem stretch_le_iff : stretch source a ≤ stretch source b ↔ a ≤ b := by
  rw [← Nat.not_lt, stretch_lt_iff, Nat.not_lt]

@[simp] theorem stretch_inj : stretch source a = stretch source b ↔ a = b := by
  simp only [Nat.le_antisymm_iff, stretch_le_iff]

theorem takeBytes_stretch (source : Source) (n : Nat) :
    takeBytes (stretch source n) (crlf source) = crlf (takeBytes n source) := by
  induction source generalizing n with
  | nil => rfl
  | cons c cs ih =>
    by_cases hn : n = 0
    · simp [hn]
    have hne : stretch (c :: cs) n ≠ 0 := by
      simp only [stretch]
      omega
    by_cases hc : c = '\n'
    · subst hc
      have hsize : '\r'.utf8Size = 1 ∧ '\n'.utf8Size = 1 := ⟨rfl, rfl⟩
      have hstretch : stretch ('\n' :: cs) n = stretch cs (n - 1) + 2 := by
        simp only [stretch, takeBytes, hn, if_false, hsize, List.count_cons_self]
        omega
      simp only [hstretch, Text.crlf_feed, takeBytes, hn, if_false, hsize, ← ih]
      rfl
    · have hstretch : stretch (c :: cs) n - c.utf8Size = stretch cs (n - c.utf8Size) := by
        simp only [stretch, takeBytes, hn, if_false, List.count_cons_of_ne hc]
        rcases Nat.le_total c.utf8Size n with hle | hle
        · omega
        · simp [Nat.sub_eq_zero_of_le hle]
      rw [Text.crlf_cons hc, takeBytes, if_neg hne, hstretch, ih, takeBytes, if_neg hn,
        Text.crlf_cons hc]

theorem dropBytes_stretch (source : Source) (n : Nat) :
    dropBytes (stretch source n) (crlf source) = crlf (dropBytes n source) := by
  have htake := takeBytes_append_dropBytes (stretch source n) (crlf source)
  rw [takeBytes_stretch] at htake
  have hsplit : crlf (takeBytes n source) ++ crlf (dropBytes n source) = crlf source := by
    rw [← Text.crlf_append, takeBytes_append_dropBytes]
  exact List.append_cancel_left (htake.trans hsplit.symm)

theorem stretch_byteLength_append (before after : List Char) :
    stretch (before ++ after) (byteLength before) = byteLength (crlf before) := by
  rw [stretch, takeBytes_byteLength_append, Text.byteLength_crlf]

/-- A text behind a boundary moves its end. -/
theorem IsBoundary.stretch_add (ha : IsBoundary source a)
    (h : dropBytes a source = text ++ rest) :
    stretch source (a + byteLength text) = stretch source a + byteLength (crlf text) := by
  obtain ⟨before, hsource, rfl⟩ := ha.dropBytes_append
  rw [h] at hsource
  rw [hsource, stretch_byteLength_append, ← byteLength_append, ← List.append_assoc,
    stretch_byteLength_append, Text.crlf_append, byteLength_append]

theorem slice_stretch (ha : IsBoundary source a) (hb : IsBoundary source b) :
    slice (crlf source) (stretch source a) (stretch source b) = crlf (slice source a b) := by
  rcases Nat.le_total a b with hab | hba
  · obtain ⟨before, text, after, rfl, rfl, rfl, htext⟩ := ha.split hb hab
    have hstop : stretch (before ++ (text ++ after)) (byteLength before + byteLength text) =
        byteLength (crlf before) + byteLength (crlf text) := by
      rw [← byteLength_append, ← List.append_assoc, stretch_byteLength_append, Text.crlf_append,
        byteLength_append]
    rw [htext, hstop, stretch_byteLength_append, Text.crlf_append, Text.crlf_append, slice_append]
  · have hnil : ∀ (cs : Source) {a b : Nat}, b ≤ a → slice cs a b = [] := by
      intro cs a b h
      rw [slice, Nat.sub_eq_zero_of_le h, takeBytes_zero]
    rw [hnil _ hba, hnil _ (stretch_le_iff.mpr hba), Text.crlf_nil]

/-! ## Lines of an offset -/

theorem lineBefore_stretch (source : Source) (n : Nat) :
    lineBefore (crlf source) (stretch source n) = lineBefore source n := by
  rw [lineBefore, takeBytes_stretch, Text.takeWhile_reverse_crlf (by decide), lineBefore]

theorem lineAfter_stretch (source : Source) (n : Nat) :
    lineAfter (crlf source) (stretch source n) = lineAfter source n := by
  rw [lineAfter, dropBytes_stretch, Text.takeWhile_crlf (by decide) (by decide), lineAfter]

theorem charBefore_stretch (source : Source) (n : Nat) :
    charBefore (crlf source) (stretch source n) = charBefore source n := by
  rw [charBefore, takeBytes_stretch, Text.getLast?_crlf, charBefore]

theorem unbroken_lineAfter (source : Source) (n : Nat) : Text.Unbroken (lineAfter source n) := by
  intro c hc
  simpa using List.mem_takeWhile_imp hc

theorem unbroken_lineBefore (source : Source) (n : Nat) :
    Text.Unbroken (lineBefore source n) := by
  intro c hc
  simpa using List.mem_takeWhile_imp (List.mem_reverse.mp hc)

theorem lineEnd_stretch (h : IsBoundary source n) :
    lineEnd (crlf source) (stretch source n) = stretch source (lineEnd source n) := by
  have hdrop : dropBytes n source = lineAfter source n ++
      (dropBytes n source).dropWhile (!Text.isLineBreak ·) :=
    List.takeWhile_append_dropWhile.symm
  rw [lineEnd, lineAfter_stretch, lineEnd, h.stretch_add hdrop,
    Text.crlf_eq_self (Text.feed_not_mem (unbroken_lineAfter source n))]

theorem lineStart_stretch (h : IsBoundary source n) :
    lineStart (crlf source) (stretch source n) = stretch source (lineStart source n) := by
  obtain ⟨first, rest, hsource, hstart, hstop⟩ := InBounds.exists_lineStart h
  have hdrop : dropBytes (lineStart source n) source = lineBefore source n ++ rest := by
    have hbehind := dropBytes_byteLength_append first (lineBefore source n ++ rest)
    rwa [← hsource, ← hstart] at hbehind
  have hadd := (InBounds.isBoundary_lineStart h).stretch_add hdrop
  rw [Text.crlf_eq_self (Text.feed_not_mem (unbroken_lineBefore source n)), hstart, ← hstop] at hadd
  rw [lineStart, lineBefore_stretch, hstart]
  omega

theorem nextLineStart_stretch (hreturn : '\r' ∉ source) (h : IsBoundary source n) :
    nextLineStart (crlf source) (stretch source n) = stretch source (nextLineStart source n) := by
  have hbreak := List.head?_dropWhile_not (!Text.isLineBreak ·) (dropBytes n source)
  rw [← h.dropBytes_lineEnd] at hbreak
  rw [nextLineStart_eq, lineEnd_stretch h, dropBytes_stretch, nextLineStart_eq]
  cases hdrop : dropBytes (lineEnd source n) source with
  | nil => rfl
  | cons c rest =>
    rw [hdrop] at hbreak
    have hmem : c ∈ source := by
      rw [← takeBytes_append_dropBytes (lineEnd source n) source, hdrop]
      simp
    obtain rfl : c = '\n' := by
      refine (Text.isLineBreak_iff.mp (by simpa using hbreak)).resolve_left ?_
      rintro rfl
      exact hreturn hmem
    have hfeed : dropBytes (lineEnd source n) source = ['\n'] ++ rest := hdrop
    exact (h.lineEnd.stretch_add hfeed).symm

end HotkeyScript.Source
