import HotkeyScript.Proofs.InBounds.Bytes
import HotkeyScript.Section

/-!
# Texts read within bounds

A slice of a text is more than a part of its bytes: its ends have to fall between two characters.
The cuts of the library round an offset inside a character up. Here such a slice fails, as one does
that reaches behind the end of the text or ends before it starts. None of the slices that the lines
and the sections are made of fails, and each function gives the answer of its namesake.

## Main definitions

* `InBounds.slice`, `InBounds.before`, `InBounds.behind` — the slices of a text.
* `InBounds.lineStart`, `InBounds.lineEnd`, `InBounds.nextLineStart`, `InBounds.column` — the lines
  around an offset.
* `InBounds.lines`, `InBounds.stripComment`, `InBounds.optionsOfText` — the parts of a section.
-/

namespace HotkeyScript.InBounds

open Source (IsBoundary byteLength takeBytes dropBytes breakLength)
open Text (isLineBreak)

variable {text : List Char} {a b : Nat}

/-! ## Slices -/

/-- The text from byte `start` up to byte `stop`. Both have to fall between two characters. -/
def slice (text : List Char) (start stop : Nat) : Option (List Char) :=
  if start ≤ stop ∧ byteLength (takeBytes start text) = start ∧
      byteLength (takeBytes stop text) = stop then
    some (Source.slice text start stop)
  else none

/-- The text before byte `stop`. -/
def before (text : List Char) (stop : Nat) : Option (List Char) :=
  slice text 0 stop

/-- The text from byte `start` on. -/
def behind (text : List Char) (start : Nat) : Option (List Char) :=
  slice text start (byteLength text)

theorem isBoundary_iff : IsBoundary text a ↔ byteLength (takeBytes a text) = a := by
  constructor
  · rintro ⟨first, rest, rfl, rfl⟩
    rw [Source.takeBytes_byteLength_append]
  · intro h
    exact ⟨takeBytes a text, dropBytes a text, (Source.takeBytes_append_dropBytes a text).symm,
      h.symm⟩

/-- A slice exists exactly between two boundaries. -/
theorem slice_eq_some_iff {part : List Char} :
    slice text a b = some part ↔
      (a ≤ b ∧ IsBoundary text a ∧ IsBoundary text b) ∧ part = Source.slice text a b := by
  simp only [isBoundary_iff, slice]
  split
  · next h => simp [h, eq_comm]
  · next h => simp [h]

example : slice "aéb".toList 1 3 = some ['é'] := by decide +kernel

example : slice "aéb".toList 1 2 = none ∧ slice "aéb".toList 3 1 = none ∧
    slice "aéb".toList 3 5 = none := by decide +kernel

theorem slice_eq (ha : IsBoundary text a) (hb : IsBoundary text b) (hle : a ≤ b) :
    slice text a b = some (Source.slice text a b) :=
  slice_eq_some_iff.mpr ⟨⟨hle, ha, hb⟩, rfl⟩

theorem isBoundary_zero : IsBoundary text 0 := ⟨[], text, rfl, rfl⟩

theorem isBoundary_byteLength : IsBoundary text (byteLength text) :=
  ⟨text, [], (List.append_nil text).symm, rfl⟩

theorem before_eq (h : IsBoundary text a) : before text a = some (takeBytes a text) := by
  rw [before, slice_eq isBoundary_zero h (Nat.zero_le a), Source.slice, Source.dropBytes_zero,
    Nat.sub_zero]

theorem behind_eq (h : IsBoundary text a) : behind text a = some (dropBytes a text) := by
  rw [behind, slice_eq h isBoundary_byteLength h.le_byteLength, Source.slice]
  obtain ⟨first, rest, rfl, rfl⟩ := h
  have htake := Source.takeBytes_byteLength_append rest []
  rw [List.append_nil] at htake
  rw [Source.dropBytes_byteLength_append, Source.byteLength_append, Nat.add_sub_cancel_left, htake]

/-- A part of a text can be cut out at its ends. -/
theorem slice_append (first part rest : List Char) :
    slice (first ++ (part ++ rest)) (byteLength first) (byteLength first + byteLength part) =
      some part := by
  have hstop := Source.isBoundary_append (first ++ part) rest
  rw [List.append_assoc, Source.byteLength_append] at hstop
  rw [slice_eq (Source.isBoundary_append _ _) hstop (Nat.le_add_right _ _), Source.slice_append]

theorem behind_append (first rest : List Char) :
    behind (first ++ rest) (byteLength first) = some rest := by
  rw [behind_eq (Source.isBoundary_append _ _), Source.dropBytes_byteLength_append]

/-- A part behind an offset can be cut out. -/
theorem slice_behind {part rest : List Char} (h : IsBoundary text a)
    (hpart : dropBytes a text = part ++ rest) : slice text a (a + byteLength part) = some part := by
  obtain ⟨first, htext, rfl⟩ := h.dropBytes_append
  rw [htext, hpart, slice_append]

theorem before_append (first rest : List Char) :
    before (first ++ rest) (byteLength first) = some first := by
  rw [before_eq (Source.isBoundary_append _ _), Source.takeBytes_byteLength_append]

/-! ## The lines around an offset -/

/-- The offset at which the line of `offset` starts. -/
def lineStart (source : Source) (offset : Nat) : Option Nat := do
  let text ← before source offset
  return offset - byteLength (text.reverse.takeWhile (!isLineBreak ·)).reverse

/-- The offset at which the line of `offset` ends. -/
def lineEnd (source : Source) (offset : Nat) : Option Nat := do
  let text ← behind source offset
  return offset + byteLength (text.takeWhile (!isLineBreak ·))

/-- The offset at which the line after the one of `offset` starts. -/
def nextLineStart (source : Source) (offset : Nat) : Option Nat := do
  let stop ← lineEnd source offset
  let text ← behind source stop
  return stop + breakLength text

/-- The number of characters between the start of the line and the offset. -/
def column (source : Source) (offset : Nat) : Option Nat := do
  let start ← lineStart source offset
  let text ← slice source start offset
  return text.length

/-- The character that ends at the offset. -/
def charBefore (source : Source) (offset : Nat) : Option (Option Char) := do
  let text ← before source offset
  return text.getLast?

theorem lineStart_eq (h : IsBoundary text a) :
    lineStart text a = some (Source.lineStart text a) := by
  simp [lineStart, before_eq h, Source.lineStart, Source.lineBefore]

theorem lineEnd_eq (h : IsBoundary text a) : lineEnd text a = some (Source.lineEnd text a) := by
  simp [lineEnd, behind_eq h, Source.lineEnd, Source.lineAfter]

theorem nextLineStart_eq (h : IsBoundary text a) :
    nextLineStart text a = some (Source.nextLineStart text a) := by
  simp [nextLineStart, lineEnd_eq h, behind_eq h.lineEnd, Source.nextLineStart_eq]

theorem charBefore_eq (h : IsBoundary text a) :
    charBefore text a = some (Source.charBefore text a) := by
  simp [charBefore, before_eq h, Source.charBefore]

/-- The line of a boundary starts at a boundary, with the characters of the line behind it. -/
theorem exists_lineStart (h : IsBoundary text a) :
    ∃ first rest, text = first ++ (Source.lineBefore text a ++ rest) ∧
      Source.lineStart text a = byteLength first ∧
      a = byteLength first + byteLength (Source.lineBefore text a) := by
  obtain ⟨front, rest, rfl, rfl⟩ := h
  have hsplit : front = (front.reverse.dropWhile (!isLineBreak ·)).reverse ++
      (front.reverse.takeWhile (!isLineBreak ·)).reverse := by
    rw [← List.reverse_append, List.takeWhile_append_dropWhile, List.reverse_reverse]
  have hline : Source.lineBefore (front ++ rest) (byteLength front) =
      (front.reverse.takeWhile (!isLineBreak ·)).reverse := by
    rw [Source.lineBefore, Source.takeBytes_byteLength_append]
  have hbytes := congrArg byteLength hsplit
  rw [Source.byteLength_append, ← hline] at hbytes
  refine ⟨(front.reverse.dropWhile (!isLineBreak ·)).reverse, rest, ?_, ?_, hbytes⟩
  · rw [hline, ← List.append_assoc, ← hsplit]
  · rw [Source.lineStart]
    omega

theorem isBoundary_lineStart (h : IsBoundary text a) :
    IsBoundary text (Source.lineStart text a) := by
  obtain ⟨first, rest, htext, hstart, -⟩ := exists_lineStart h
  exact ⟨first, _, htext, hstart⟩

theorem slice_lineStart (h : IsBoundary text a) :
    slice text (Source.lineStart text a) a = some (Source.lineBefore text a) := by
  obtain ⟨first, rest, htext, hstart, hstop⟩ := exists_lineStart h
  have hslice := slice_append first (Source.lineBefore text a) rest
  rwa [← htext, ← hstart, hstart, ← hstop, ← hstart] at hslice

/-- The end of a line behind an offset can be cut out. -/
theorem slice_lineEnd (h : IsBoundary text a) :
    slice text a (Source.lineEnd text a) = some (Source.lineAfter text a) :=
  slice_behind h List.takeWhile_append_dropWhile.symm

theorem column_eq (h : IsBoundary text a) :
    column text a = some (Source.lineBefore text a).length := by
  simp [column, lineStart_eq h, slice_lineStart h]

/-! ## The lines of a text -/

/-- The lines of a text from byte `start` on. Their breaks are looked for from byte `i` on, and each
step uses up one of the bound. -/
def linesFrom (text : List Char) : Nat → Nat → Nat → Option (List (List Char))
  | 0, _, _ => none
  | bound + 1, start, i =>
    if i < (bytes text).length then do
      let b ← (bytes text)[i]?
      if isByte isLineBreak b then
        let pair := isByte (· == '\r') b && (bytes text)[i + 1]?.any (isByte (· == '\n'))
        let next := i + if pair then 2 else 1
        let line ← slice text start i
        let lines ← linesFrom text bound next next
        return line :: lines
      else linesFrom text bound start (i + 1)
    else do
      let line ← behind text start
      return [line]

/-- The lines of a text without their breaks. -/
def lines (text : List Char) : Option (List (List Char)) :=
  linesFrom text (byteLength text + 1) 0 0

/-- The loop at a byte. -/
theorem linesFrom_append {first last : List UInt8} {b : UInt8}
    (h : bytes text = first ++ b :: last) (bound start : Nat) :
    linesFrom text (bound + 1) start first.length =
      if isByte isLineBreak b then do
        let pair := isByte (· == '\r') b && last.head?.any (isByte (· == '\n'))
        let next := first.length + if pair then 2 else 1
        let line ← slice text start first.length
        let lines ← linesFrom text bound next next
        return line :: lines
      else linesFrom text bound start (first.length + 1) := by
  rw [linesFrom, h, if_pos (by simp), getElem?_append_length, getElem?_append_length_succ]
  rfl

/-- A break ends the line `line`, and the loop goes on behind it. -/
theorem linesFrom_break {first line rest : List Char} {c : Char}
    (htext : text = first ++ (line ++ c :: rest)) (hbreak : isLineBreak c = true) (bound : Nat) :
    linesFrom text (bound + 1) (byteLength first) (byteLength (first ++ line)) =
      let next := byteLength (first ++ line) +
        if c == '\r' && rest.head?.any (· == '\n') then 2 else 1
      (linesFrom text bound next next).map (line :: ·) := by
  obtain ⟨b, hb, hb'⟩ := exists_bytes_cons (onlyAscii_isLineBreak c hbreak) rest
  have hbytes : bytes text = bytes (first ++ line) ++ b :: bytes rest := by
    rw [htext, ← List.append_assoc, bytes_append, hb]
  have hslice : slice text (byteLength first) (byteLength (first ++ line)) = some line := by
    rw [htext, Source.byteLength_append, slice_append]
  rw [← length_bytes (first ++ line)] at hslice ⊢
  rw [linesFrom_append hbytes, hb', if_pos hbreak, hb', head?_bytes (onlyAscii_beq (by decide)),
    hslice]
  exact Option.map_eq_bind.symm

/-- Any other character belongs to the line. -/
theorem linesFrom_character {first rest : List Char} {c : Char}
    (htext : text = first ++ c :: rest) (hbreak : isLineBreak c = false) (bound start : Nat) :
    linesFrom text (c.utf8Size + bound) start (byteLength first) =
      linesFrom text bound start (byteLength (first ++ [c])) := by
  have hbytes : bytes text = bytes first ++ (String.utf8EncodeChar c ++ bytes rest) := by
    rw [htext, bytes_append, bytes_cons]
  have hstep : ∀ {first b last}, bytes text = first ++ b :: last →
      b ∈ String.utf8EncodeChar c → ∀ bound, linesFrom text (bound + 1) start first.length =
        linesFrom text bound start (first.length + 1) := by
    intro first b last h hb bound
    rw [linesFrom_append h, isByte_of_mem hbreak hb]
    rfl
  simpa using loop_skip (linesFrom text · start ·) hstep hbytes bound

/-- The loop has read the text `first` and the beginning `line` of the line behind it. -/
theorem linesFrom_eq (first line : List Char) {rest : List Char} (bound : Nat)
    (htext : text = first ++ (line ++ rest)) (hline : Text.Unbroken line)
    (hbound : byteLength rest < bound) :
    linesFrom text bound (byteLength first) (byteLength (first ++ line)) =
      some (Text.lines (line ++ rest)) := by
  -- The cases are those of the lines: the end, a pair of breaks, another break, a character.
  induction rest using Text.lineBreaks.induct generalizing first line bound with
  | case1 =>
    obtain ⟨bound, rfl⟩ : ∃ n, bound = n + 1 := ⟨bound - 1, by omega⟩
    have hend : ¬byteLength (first ++ line) < (bytes text).length := by simp [htext]
    have hbehind : behind text (byteLength first) = some line := by
      rw [htext, List.append_nil, behind_append]
    have hlines : Text.lines (line ++ []) = [line ++ []] := Text.lines_append hline rfl
    rw [hlines, List.append_nil, linesFrom, if_neg hend, hbehind]
    rfl
  | case2 below ih =>
    obtain ⟨bound, rfl⟩ : ∃ n, bound = n + 1 := ⟨bound - 1, by omega⟩
    have hpair : byteLength ['\r', '\n'] = 2 := rfl
    have hsize : byteLength ('\r' :: '\n' :: below) = byteLength ['\r', '\n'] + byteLength below :=
      Source.byteLength_append ['\r', '\n'] below
    have hnext := ih (first ++ line ++ ['\r', '\n']) [] bound (by simpa using htext)
      (fun _ h => nomatch h) (by omega)
    rw [List.append_nil, List.nil_append, Source.byteLength_append, hpair] at hnext
    have hlines := Text.lines_append hline (Text.lines.eq_2 below)
    rw [linesFrom_break htext rfl, hlines, List.append_nil]
    exact congrArg (Option.map (line :: ·)) hnext
  | case3 c below hne hbreak ih =>
    obtain ⟨bound, rfl⟩ : ∃ n, bound = n + 1 := ⟨bound - 1, by omega⟩
    have hsize := Text.utf8Size_of_isLineBreak hbreak
    have hnext := ih (first ++ line ++ [c]) [] bound (by simpa using htext) (fun _ h => nomatch h)
      (by rw [Source.byteLength_cons] at hbound; omega)
    rw [List.append_nil, List.nil_append, Source.byteLength_append, Source.byteLength_cons, hsize,
      Source.byteLength_nil] at hnext
    have hpair : (c == '\r' && below.head?.any (· == '\n')) = false := by
      cases below with
      | nil => simp
      | cons d below => simpa using fun hc hd => hne below hc (by rw [hd])
    have hlines := Text.lines_append hline (Text.lines_cons_of_isLineBreak hbreak hne)
    rw [linesFrom_break htext hbreak, hlines, List.append_nil, hpair]
    exact congrArg (Option.map (line :: ·)) hnext
  | case4 c below hne hbreak ih =>
    obtain ⟨bound, rfl⟩ : ∃ n, bound = c.utf8Size + n :=
      ⟨bound - c.utf8Size, by rw [Source.byteLength_cons] at hbound; omega⟩
    have hnext := ih first (line ++ [c]) bound (by simpa using htext)
      (List.forall_mem_append.mpr ⟨hline, by simpa using hbreak⟩)
      (by rw [Source.byteLength_cons] at hbound; omega)
    rw [linesFrom_character (by simpa using htext) (by simpa using hbreak), List.append_assoc,
      hnext, List.append_assoc, List.singleton_append]

theorem lines_eq (text : List Char) : lines text = some (Text.lines text) :=
  linesFrom_eq [] [] _ rfl (fun _ h => nomatch h) (Nat.lt_succ_self _)

/-! ## Sections -/

/-- A line without its comment. -/
def stripComment (line : List Char) : Option (List Char) :=
  if Section.isCommentLine line then some []
  else before line (byteLength (Section.beforeComment line))

/-- Drops a comment, if comments are left out. -/
def dropComment (options : Section.Options) (line : List Char) : Option (List Char) :=
  if options.comments then stripComment line else some line

/-- A line of a section as the options leave it. -/
def trimLine (options : Section.Options) (line : List Char) : Option (List Char) := do
  let kept ← dropComment options line
  return options.trimEnd (options.trimStart kept)

/-- The trimmed lines with the separator between them. -/
def joinLines (options : Section.Options) (lines : List (List Char)) : Option (List Char) := do
  let trimmed ← lines.mapM (trimLine options)
  return options.separator.toList.intercalate trimmed

/-- The options after the option `word`. A separator is cut off behind the name of its option. -/
def applyOption (options : Section.Options) (word : List Char) : Option Section.Options :=
  if "join".toList.isPrefixOf (word.map Char.toLower) then do
    let text ← behind word 4
    return { options with
      join := true
      separator := String.ofList (Text.unescape (Section.spaceEscapes text)) }
  else some (options.apply word)

/-- The options written in a text. -/
def optionsOfText (text : List Char) : Option Section.Options :=
  (Text.words text).foldlM applyOption {}

theorem beforeComment_prefix (line : List Char) : Section.beforeComment line <+: line := by
  fun_induction Section.beforeComment line with
  | case1 c cs hblank => exact List.nil_prefix
  | case2 c cs hblank ih => exact (List.prefix_cons_inj c).mpr ih
  | case3 c cs hne ih => exact (List.prefix_cons_inj c).mpr ih
  | case4 => exact List.prefix_refl []

theorem stripComment_eq (line : List Char) :
    stripComment line = some (Section.stripComment line) := by
  unfold stripComment Section.stripComment
  split
  · rfl
  · obtain ⟨rest, hrest⟩ := beforeComment_prefix line
    have hbefore := before_append (Section.beforeComment line) rest
    rwa [hrest] at hbefore

theorem dropComment_eq (options : Section.Options) (line : List Char) :
    dropComment options line = some (options.stripComment line) := by
  unfold dropComment Section.Options.stripComment
  split
  · exact stripComment_eq line
  · rfl

theorem trimLine_eq (options : Section.Options) (line : List Char) :
    trimLine options line = some (options.trimLine line) := by
  simp [trimLine, dropComment_eq, Section.Options.trimLine]

/-- Accesses that succeed one by one succeed together. -/
theorem mapM_eq_some {α β : Type} {f : α → Option β} {g : α → β} {xs : List α}
    (h : ∀ x ∈ xs, f x = some (g x)) : xs.mapM f = some (xs.map g) := by
  induction xs with
  | nil => rfl
  | cons x xs ih =>
    obtain ⟨hx, hxs⟩ := List.forall_mem_cons.mp h
    simp [List.mapM_cons, hx, ih hxs]

theorem joinLines_eq (options : Section.Options) (lines : List (List Char)) :
    joinLines options lines = some (options.joinLines lines) := by
  simp [joinLines, mapM_eq_some fun line _ => trimLine_eq options line, Section.Options.joinLines]

/-- A letter has as many bytes in either case. -/
theorem utf8Size_toLower (c : Char) : c.toLower.utf8Size = c.utf8Size := by
  unfold Char.toLower
  split
  · next h =>
    have hascii : ∀ d : Char, d.val ≤ 127 → d.utf8Size = 1 := fun d hd => if_pos hd
    have hle : c.val ≤ 90 := h.2
    rw [UInt32.le_iff_toNat_le] at hle
    have hsum : (c.val + ('a'.val - 'A'.val)).toNat = c.val.toNat + 32 := by
      rw [UInt32.toNat_add]
      simp only [Char.reduceVal, UInt32.reduceSub, UInt32.reduceToNat] at hle ⊢
      omega
    simp only [UInt32.reduceToNat] at hle
    rw [hascii, hascii]
    · rw [UInt32.le_iff_toNat_le]
      simp only [UInt32.reduceToNat]
      omega
    · rw [UInt32.le_iff_toNat_le, hsum]
      simp only [UInt32.reduceToNat]
      omega
  · rfl

theorem byteLength_map_toLower (cs : List Char) :
    byteLength (cs.map Char.toLower) = byteLength cs := by
  induction cs with
  | nil => rfl
  | cons c cs ih => simp [utf8Size_toLower, ih]

/-- What stands behind the name of an option that holds a separator. -/
theorem behind_join {word : List Char}
    (h : "join".toList <+: word.map Char.toLower) : behind word 4 = some (word.drop 4) := by
  obtain ⟨rest, hrest⟩ := h
  have htake : (word.take 4).map Char.toLower = "join".toList := by
    rw [List.map_take, ← hrest]
    rfl
  have hbytes : byteLength (word.take 4) = 4 := by
    rw [← byteLength_map_toLower, htake]
    rfl
  have hbehind := behind_append (word.take 4) (word.drop 4)
  rwa [List.take_append_drop, hbytes] at hbehind

theorem applyOption_eq (options : Section.Options) (word : List Char) :
    applyOption options word = some (options.apply word) := by
  unfold applyOption
  split
  · next hjoin =>
    have hprefix : ['j', 'o', 'i', 'n'] <+: word.map Char.toLower :=
      List.isPrefixOf_iff_prefix.mp hjoin
    have hname : ∀ name : String, ¬ "join".toList <+: name.toList →
        String.ofList (word.map Char.toLower) ≠ name := by
      rintro _ hnot rfl
      simp only [String.toList_ofList] at hnot
      exact hnot hprefix
    rw [behind_join hprefix]
    simp [Section.Options.apply, hname, hprefix]
  · rfl

theorem optionsOfText_eq (text : List Char) :
    optionsOfText text = some (Section.Options.ofText text) := by
  have hfold : ∀ (words : List (List Char)) (options : Section.Options),
      words.foldlM applyOption options = some (words.foldl Section.Options.apply options) := by
    intro words
    induction words with
    | nil => exact fun _ => rfl
    | cons word words ih => exact fun options => by simp [applyOption_eq, ih]
  exact hfold _ _

end HotkeyScript.InBounds
