import HotkeyScript.Proofs.Token.Order

/-!
# Tokens and the lines of the source

The lexer keeps an offset, a line, a column and a mark for the start of a line side by side. They
agree with what the source shows: the text of a token stands on its line right behind as many
characters as its column says, the mark is set for the first token of a line, and outside of all
tokens there are only blanks.

All of this is proved of a scan that starts at any place, relative to the place.

## Main definitions

* `Token.Place.Locates` — the lines of a text, seen from a place, show a token.
-/

namespace HotkeyScript

/-! ## Lines -/

namespace Text

theorem exists_lines_eq_cons (cs : List Char) : ∃ line rest, lines cs = line :: rest := by
  apply List.exists_cons_of_length_pos
  rw [length_lines]
  exact Nat.succ_pos _

theorem lines_cons {c : Char} {cs line : List Char} {rest : List (List Char)}
    (hc : isLineBreak c = false) (h : lines cs = line :: rest) :
    lines (c :: cs) = (c :: line) :: rest := by
  have hne : ∀ cs', c = '\r' → cs = '\n' :: cs' → False := by
    rintro cs' rfl -
    cases hc
  rw [lines.eq_3 c cs hne, hc, h]
  rfl

/-- A text without a line break lengthens the first line behind it. -/
theorem lines_append {text cs line : List Char} {rest : List (List Char)} (htext : Unbroken text)
    (h : lines cs = line :: rest) : lines (text ++ cs) = (text ++ line) :: rest := by
  induction text with
  | nil => exact h
  | cons c text ih =>
    obtain ⟨hc, htext⟩ := List.forall_mem_cons.mp htext
    exact lines_cons hc (ih htext)

theorem lines_cons_of_isLineBreak {c : Char} {cs : List Char} (hc : isLineBreak c = true)
    (hne : ∀ cs', c = '\r' → cs = '\n' :: cs' → False) : lines (c :: cs) = [] :: lines cs := by
  rw [lines.eq_3 c cs hne, hc]
  rfl

theorem isBlank_of_isLineBreak {c : Char} (h : isLineBreak c = true) : isBlank c = true := by
  simp only [isLineBreak, Bool.or_eq_true, beq_iff_eq] at h
  rcases h with rfl | rfl <;> decide

end Text

namespace Token

open Source (byteLength)
open Text (Unbroken)

variable {place place' : Place} {cs rest text : List Char} {token : Token}

/-! ## Lines and columns -/

/-- The lines of the text that starts at the place show the token: its text stands on the line that
is as many lines further on, and as many characters further on, as its span says. -/
def Place.Locates (place : Place) (cs : List Char) (token : Token) : Prop :=
  ∃ n before after, token.span.line = place.line + n ∧
    (Text.lines cs)[n]? = some (before ++ (token.text.toList ++ after)) ∧
    token.span.column = (if n = 0 then place.column else 0) + before.length

theorem Place.locates_token (kind : Kind) (htext : Unbroken text) (rest : List Char) :
    place.Locates (text ++ rest) (place.token kind text) := by
  obtain ⟨line, lines, hlines⟩ := Text.exists_lines_eq_cons rest
  refine ⟨0, [], line, rfl, ?_, rfl⟩
  rw [Text.lines_append htext hlines]
  simp [Place.token]

/-- What is read on the same line moves the columns. -/
theorem Place.Locates.append (h : place'.Locates rest token) (htext : Unbroken text)
    (hline : place'.line = place.line) (hcolumn : place'.column = place.column + text.length) :
    place.Locates (text ++ rest) token := by
  obtain ⟨n, before, after, htoken, hget, hwidth⟩ := h
  obtain ⟨line, lines, hlines⟩ := Text.exists_lines_eq_cons rest
  rw [hlines] at hget
  rw [Place.Locates, Text.lines_append htext hlines]
  cases n with
  | zero =>
    cases hget
    refine ⟨0, text ++ before, after, by rw [htoken, hline], by simp, ?_⟩
    simp only [if_true] at hwidth ⊢
    rw [hwidth, hcolumn, List.length_append, Nat.add_assoc]
  | succ n => exact ⟨n + 1, before, after, by rw [htoken, hline], hget, hwidth⟩

/-- A line break moves the lines, and columns start anew. -/
theorem Place.Locates.of_break (h : place'.Locates rest token)
    (hlines : Text.lines cs = [] :: Text.lines rest) (hline : place'.line = place.line + 1)
    (hcolumn : place'.column = 0) : place.Locates cs token := by
  obtain ⟨n, before, after, htoken, hget, hwidth⟩ := h
  refine ⟨n + 1, before, after, by omega, by rw [hlines]; exact hget, ?_⟩
  rw [hcolumn, ite_self] at hwidth
  simpa using hwidth

theorem scan_locates (place : Place) (cs : List Char) :
    ∀ token ∈ scan false place cs, place.Locates cs token := by
  generalize honeLine : false = oneLine
  fun_induction scan oneLine place cs with
  | case1 place => exact List.forall_mem_nil _
  | case2 place cs => exact List.forall_mem_nil _
  | case3 place cs _ ih =>
    intro token htoken
    exact (ih token htoken).of_break rfl rfl rfl
  | case4 place c cs hne hbreak => exact List.forall_mem_nil _
  | case5 place c cs hne hbreak _ ih =>
    intro token htoken
    exact (ih token htoken).of_break (Text.lines_cons_of_isLineBreak hbreak hne) rfl rfl
  | case6 place c cs hne hbreak hblank ih =>
    have hunbroken : Unbroken [c] := by simpa [Unbroken] using hbreak
    intro token htoken
    exact (ih token htoken).append hunbroken rfl rfl
  | case7 place c cs hne hbreak hblank next text =>
    rename_i ih
    have hunbroken : Unbroken text := unbroken_lexeme _ _ (by simpa using hbreak)
    have hcs : text ++ (c :: cs).drop next.2 = c :: cs := List.take_append_drop _ _
    intro token htoken
    rw [← hcs]
    rcases List.mem_cons.mp htoken with rfl | htoken
    · exact Place.locates_token _ hunbroken _
    · exact (ih token htoken).append hunbroken rfl rfl

/-! ## Characters outside of tokens -/

/-- The token reaches over the offset. -/
def Spans (token : Token) (offset : Nat) : Prop :=
  token.span.start ≤ offset ∧ offset < token.span.stop

/-- Every character of the text that starts at the place is blank, or one of the tokens has it. -/
def Place.Covers (place : Place) (cs : List Char) (tokens : List Token) : Prop :=
  ∀ before c after, cs = before ++ c :: after →
    Text.isBlank c = true ∨ ∃ token ∈ tokens, token.Spans (place.offset + byteLength before)

theorem Place.covers_nil (place : Place) (tokens : List Token) : place.Covers [] tokens := by
  intro before c after h
  simp at h

theorem Place.covers_of_isBlank (place : Place) (tokens : List Token)
    (h : ∀ c ∈ cs, Text.isBlank c = true) : place.Covers cs tokens := by
  rintro before c after rfl
  exact .inl (h c (by simp))

theorem Place.covers_token (place : Place) (kind : Kind) (text : List Char) :
    place.Covers text [place.token kind text] := by
  rintro before c after rfl
  have := c.utf8Size_pos
  refine .inr ⟨_, List.mem_singleton_self _, ?_⟩
  simp only [Spans, Place.token, Source.byteLength_append, Source.byteLength_cons]
  omega

/-- Tokens cover a text if some of them cover its beginning and the others the rest. -/
theorem Place.Covers.append {tokens tokens' : List Token} (h : place.Covers text tokens)
    (h' : place'.Covers rest tokens')
    (hoffset : place'.offset = place.offset + byteLength text) :
    place.Covers (text ++ rest) (tokens ++ tokens') := by
  intro before c after hsplit
  rcases List.append_eq_append_iff.mp hsplit with ⟨more, rfl, hrest⟩ | ⟨more, rfl, hmore⟩
  · refine (h' more c after hrest).imp_right ?_
    rintro ⟨token, htoken, hspans⟩
    refine ⟨token, List.mem_append_right _ htoken, ?_⟩
    rwa [Source.byteLength_append, ← Nat.add_assoc, ← hoffset]
  · cases more with
    | nil =>
      refine (h' [] c after hmore.symm).imp_right ?_
      rintro ⟨token, htoken, hspans⟩
      refine ⟨token, List.mem_append_right _ htoken, ?_⟩
      rwa [hoffset, List.append_nil, Source.byteLength_nil, Nat.add_zero] at hspans
    | cons d more =>
      cases hmore
      refine (h before c more rfl).imp_right ?_
      rintro ⟨token, htoken, hspans⟩
      exact ⟨token, List.mem_append_left _ htoken, hspans⟩

theorem scan_covers (place : Place) (cs : List Char) :
    place.Covers cs (scan false place cs) := by
  generalize honeLine : false = oneLine
  fun_induction scan oneLine place cs with
  | case1 place => exact place.covers_nil []
  | case2 place cs htrue => exact absurd (honeLine.trans htrue) Bool.false_ne_true
  | case3 place cs _ ih =>
    have hblank : place.Covers ['\r', '\n'] [] := place.covers_of_isBlank [] <|
      List.forall_mem_cons.mpr ⟨by decide, List.forall_mem_singleton.mpr (by decide)⟩
    exact hblank.append ih rfl
  | case4 place c cs hne hbreak htrue => exact absurd (honeLine.trans htrue) Bool.false_ne_true
  | case5 place c cs hne hbreak _ ih =>
    have hblank : place.Covers [c] [] :=
      place.covers_of_isBlank [] (by simpa using Text.isBlank_of_isLineBreak hbreak)
    exact hblank.append ih (by simp [Place.afterBreak, Text.utf8Size_of_isLineBreak hbreak])
  | case6 place c cs hne hbreak hblank ih =>
    have hblank : place.Covers [c] [] := place.covers_of_isBlank [] (by simpa using hblank)
    exact hblank.append ih rfl
  | case7 place c cs hne hbreak hblank next text =>
    rename_i ih
    have hcs : text ++ (c :: cs).drop next.2 = c :: cs := List.take_append_drop _ _
    have hcovers := (place.covers_token next.1 text).append ih rfl
    rwa [hcs] at hcovers

/-! ## Starts of lines -/

theorem le_of_mem_scan {oneLine : Bool} (h : token ∈ scan oneLine place cs) :
    place.offset ≤ token.span.start ∧ place.line ≤ token.span.line := by
  fun_induction scan oneLine place cs with
  | case1 place => cases h
  | case2 place cs => cases h
  | case3 place cs _ ih =>
    have := ih h
    simp only [Place.afterBreak] at this
    omega
  | case4 place c cs hne hbreak => cases h
  | case5 place c cs hne hbreak _ ih =>
    have := ih h
    simp only [Place.afterBreak] at this
    omega
  | case6 place c cs hne hbreak hblank ih =>
    have := ih h
    simp only [Place.afterBlank] at this
    omega
  | case7 place c cs hne hbreak hblank next text =>
    rename_i ih
    rcases List.mem_cons.mp h with rfl | h
    · exact ⟨Nat.le_refl _, Nat.le_refl _⟩
    · have := ih h
      simp only [Place.afterToken] at this
      omega

theorem byteLength_take_lexeme_pos (before : Option Char) (fresh : Bool) (c : Char)
    (cs : List Char) : 0 < byteLength ((c :: cs).take (lexeme before fresh (c :: cs)).2) := by
  have hpos := lexeme_pos before fresh (c :: cs)
  have hlength := Source.length_le_byteLength ((c :: cs).take (lexeme before fresh (c :: cs)).2)
  simp only [List.length_take, List.length_cons] at hlength
  omega

/-- No token of the list stands before the token on its line. -/
def IsFirst (tokens : List Token) (token : Token) : Prop :=
  ∀ other ∈ tokens, other.span.line = token.span.line → token.span.start ≤ other.span.start

theorem isFirst_cons {other : Token} {tokens : List Token} :
    IsFirst (other :: tokens) token ↔
      (other.span.line = token.span.line → token.span.start ≤ other.span.start) ∧
        IsFirst tokens token :=
  List.forall_mem_cons

/-- The tokens that open a line are the first ones of their lines; on the line of the place, only if
no token stands before the place. -/
theorem scan_opensLine (place : Place) (cs : List Char) :
    ∀ token ∈ scan false place cs, token.opensLine = true ↔
      (token.span.line = place.line → place.fresh = true) ∧
        IsFirst (scan false place cs) token := by
  generalize honeLine : false = oneLine
  fun_induction scan oneLine place cs with
  | case1 place => exact List.forall_mem_nil _
  | case2 place cs => exact List.forall_mem_nil _
  | case3 place cs _ ih =>
    intro token htoken
    have hline := (le_of_mem_scan htoken).2
    simp only [Place.afterBreak] at hline
    rw [ih token htoken]
    refine and_congr_left' ⟨fun _ hplace => ?_, fun _ _ => rfl⟩
    omega
  | case4 place c cs hne hbreak => exact List.forall_mem_nil _
  | case5 place c cs hne hbreak _ ih =>
    intro token htoken
    have hline := (le_of_mem_scan htoken).2
    simp only [Place.afterBreak] at hline
    rw [ih token htoken]
    refine and_congr_left' ⟨fun _ hplace => ?_, fun _ _ => rfl⟩
    omega
  | case6 place c cs hne hbreak hblank ih => exact ih
  | case7 place c cs hne hbreak hblank next text =>
    rename_i ih
    have hpos : 0 < byteLength text := byteLength_take_lexeme_pos _ _ c cs
    have hlater : ∀ other ∈ scan oneLine (place.afterToken text) ((c :: cs).drop next.2),
        place.offset < other.span.start := by
      intro other hother
      have := (le_of_mem_scan hother).1
      simp only [Place.afterToken] at this
      omega
    intro token htoken
    rcases List.mem_cons.mp htoken with rfl | htoken
    · refine ⟨fun hopens => ⟨fun _ => hopens, fun other hother _ => ?_⟩, fun h => h.1 rfl⟩
      rcases List.mem_cons.mp hother with rfl | hother
      · exact Nat.le_refl _
      · exact Nat.le_of_lt (hlater other hother)
    · have hstart := hlater token htoken
      rw [ih token htoken, isFirst_cons]
      by_cases hline : token.span.line = place.line
      · -- the token before it on the line is the one that was just read
        refine iff_of_false (fun h => ?_) (fun h => ?_)
        · cases h.1 hline
        · exact absurd (h.2.1 hline.symm) (Nat.not_le_of_lt hstart)
      · have hne : place.line ≠ token.span.line := fun h => hline h.symm
        simp [Place.afterToken, Place.token, hline, hne]

/-! ## The tokens of a source -/

open Source (byteOrderMark)

/-- The scan of a source starts at its start, or behind a byte order mark. -/
theorem start_cases (source : Source) :
    (source.head? ≠ some byteOrderMark ∧ start source = ({}, source)) ∨
      ∃ cs, source = byteOrderMark :: cs ∧ start source =
        ({ offset := byteOrderMark.utf8Size, before := some byteOrderMark }, cs) := by
  fun_cases start source with
  | case1 => exact .inl ⟨by simp, rfl⟩
  | case2 cs => exact .inr ⟨cs, rfl, rfl⟩
  | case3 c cs hne => exact .inl ⟨by simpa using hne, rfl⟩

theorem tokenize_covers {source : Source} {before after : List Char} {c : Char}
    (hsource : source = before ++ c :: after) :
    Text.isBlank c = true ∨ (before = [] ∧ c = byteOrderMark) ∨
      ∃ token ∈ tokenize source, token.Spans (byteLength before) := by
  have hscan := scan_covers (start source).1 (start source).2
  rw [← tokenize] at hscan
  rcases start_cases source with ⟨-, hstart⟩ | ⟨cs, hmark, hstart⟩
  · rw [hstart] at hscan
    refine (hscan before c after hsource).imp_right ?_
    rintro ⟨token, htoken, hspans⟩
    exact .inr ⟨token, htoken, by simpa using hspans⟩
  · rw [hstart] at hscan
    cases before with
    | nil =>
      cases hmark.symm.trans hsource
      exact .inr (.inl ⟨rfl, rfl⟩)
    | cons d before =>
      cases hmark.symm.trans hsource
      refine (hscan before c after rfl).imp_right ?_
      rintro ⟨token, htoken, hspans⟩
      exact .inr ⟨token, htoken, hspans⟩

theorem tokenize_locates {source : Source} (htoken : token ∈ tokenize source) :
    ∃ before after,
      (Text.lines source)[token.span.line]? = some (before ++ (token.text.toList ++ after)) ∧
      before.length = token.span.column +
        if token.span.line = 0 ∧ source.head? = some byteOrderMark then 1 else 0 := by
  have hscan := scan_locates (start source).1 (start source).2 token htoken
  rcases start_cases source with ⟨hmark, hstart⟩ | ⟨cs, hmark, hstart⟩
  · rw [hstart] at hscan
    obtain ⟨n, before, after, hline, hget, hcolumn⟩ := hscan
    simp only [Nat.zero_add] at hline
    refine ⟨before, after, by rw [hline]; exact hget, ?_⟩
    simp [hcolumn, hmark]
  · -- the mark lengthens the first line and no other
    rw [hstart] at hscan
    obtain ⟨n, before, after, hline, hget, hcolumn⟩ := hscan
    obtain ⟨line, rest, hlines⟩ := Text.exists_lines_eq_cons cs
    have hfirst := Text.lines_cons (c := byteOrderMark) (by decide) hlines
    simp only [Nat.zero_add, ite_self] at hline hcolumn
    rw [hmark, hfirst, hline]
    rw [hlines] at hget
    cases n with
    | zero =>
      cases hget
      exact ⟨byteOrderMark :: before, after, rfl, by simp [hcolumn]⟩
    | succ n => exact ⟨before, after, hget, by simp [hcolumn]⟩

theorem tokenize_opensLine {token : Token} (htoken : token ∈ tokenize source) :
    token.opensLine = true ↔ IsFirst (tokenize source) token := by
  have hfresh : (start source).1.fresh = true := by
    rcases start_cases source with ⟨-, hstart⟩ | ⟨cs, -, hstart⟩ <;> rw [hstart]
  rw [scan_opensLine _ _ token htoken]
  exact and_iff_right fun _ => hfresh

/-- The tokens of a source are pieces of it, one behind the other, and outside of them there are
only blanks and a byte order mark at the start. The line and the column of a token say where its
text stands in the lines of the source, and the tokens that open a line are the first ones there. -/
theorem tokenize_lossless (source : Source) :
    (∀ token ∈ tokenize source, Cut source token) ∧
    ((tokenize source).Pairwise fun token next => token.span.stop ≤ next.span.start) ∧
    (∀ before c after, source = before ++ c :: after →
      Text.isBlank c = true ∨ (before = [] ∧ c = byteOrderMark) ∨
        ∃ token ∈ tokenize source, token.Spans (byteLength before)) ∧
    ∀ token ∈ tokenize source,
      (∃ before after,
        (Text.lines source)[token.span.line]? = some (before ++ (token.text.toList ++ after)) ∧
        before.length = token.span.column +
          if token.span.line = 0 ∧ source.head? = some byteOrderMark then 1 else 0) ∧
      (token.opensLine = true ↔ IsFirst (tokenize source) token) := by
  obtain ⟨hcut, hordered⟩ := tokenize_ordered source
  refine ⟨hcut, hordered.imp And.left, fun _ _ _ => tokenize_covers, fun token htoken => ?_⟩
  refine ⟨tokenize_locates htoken, ?_⟩
  have hfresh : (start source).1.fresh = true := by
    rcases start_cases source with ⟨-, hstart⟩ | ⟨cs, -, hstart⟩ <;> rw [hstart]
  rw [scan_opensLine _ _ token htoken]
  exact and_iff_right fun _ => hfresh

/-- Two lines behind a byte order mark, with a comment and a string of two-byte characters. -/
theorem tokenize_lossless_mark :
    let source := "\uFEFFx := 1 ; c\r\n\t\"éé\" y".toList
    ∃ token ∈ tokenize source, token.text = "y" ∧ token.opensLine = false ∧
      ∃ before after, (Text.lines source)[1]? = some (before ++ (token.text.toList ++ after)) ∧
        before.length = 6 := by
  intro source
  have hmem : ∃ token ∈ tokenize source, token.text = "y" ∧ token.opensLine = false ∧
      token.span.line = 1 ∧ token.span.column = 6 := by decide +kernel
  obtain ⟨token, htoken, htext, hopens, hline, hcolumn⟩ := hmem
  obtain ⟨before, after, hget, hlength⟩ := ((tokenize_lossless source).2.2.2 token htoken).1
  rw [hline] at hget
  exact ⟨token, htoken, htext, hopens, before, after, hget, by simpa [hline, hcolumn] using hlength⟩

end Token

end HotkeyScript
