import HotkeyScript.Proofs.Source.Position
import HotkeyScript.Proofs.Token.Exact
import HotkeyScript.Proofs.Token.Spaced
import HotkeyScript.Proofs.Tree.Shift

/-!
# Tokens of lines behind each other

A token lies on one line, so the lines below a text do not change its tokens, and the lines above it
only move them: the tokens of two texts with a line break between them are the tokens of the first
and then those of the second, further on by the length of the first.

## Main definitions

* `Token.StopsLine` — no line goes on behind the cut.
* `Token.Place.past` — the offset and the line behind a text.
* `Token.Place.Moved` — a place further on, at which a scan reads the same.
-/

namespace HotkeyScript.Token

open Source (byteLength)
open Text (Unbroken isLineBreak lineBreaks)

variable {c stop : Char} {p : Char → Bool} {place place' : Place} {bytes lines : Nat}

/-! ## A line break ends a lexeme -/

theorem exists_cons_of_append {d : Char} {cs rest more : List Char} (hd : d ≠ stop)
    (h : cs ++ stop :: rest = d :: more) : ∃ more', cs = d :: more' := by
  cases cs with
  | nil => exact absurd (List.cons.inj h).1.symm hd
  | cons c cs => exact ⟨cs, by rw [(List.cons.inj h).1]⟩

theorem runLength_break (hp : p stop = false) (cs rest : List Char) :
    runLength p (cs ++ stop :: rest) = runLength p cs := by
  refine runLength_append ?_ cs
  rintro d ⟨⟩
  exact hp

section LineBreak

variable (hstop : isLineBreak stop = true) (cs rest : List Char)
include hstop

theorem ne_break {d : Char} (hd : isLineBreak d = false) : d ≠ stop := by
  rintro rfl
  exact absurd (hd.symm.trans hstop) Bool.false_ne_true

theorem hexLength_break : hexLength (cs ++ stop :: rest) = hexLength cs := by
  have hdigit : isHexDigit stop = false := by
    rcases Text.isLineBreak_iff.mp hstop with rfl | rfl <;> decide
  fun_cases hexLength cs with
  | case1 x cs h =>
    rw [List.cons_append, List.cons_append, hexLength, runLength_break hdigit, if_pos h]
  | case2 x cs h =>
    rw [List.cons_append, List.cons_append, hexLength, runLength_break hdigit, if_neg h]
  | case3 cs hne =>
    have hx : (stop == 'x' || stop == 'X') = false := by
      rcases Text.isLineBreak_iff.mp hstop with rfl | rfl <;> decide
    rcases cs with _ | ⟨d, _ | ⟨e, cs⟩⟩
    · rw [List.nil_append, hexLength]
      rintro x tail heq
      exact ne_break hstop (by decide) (List.cons.inj heq).1.symm
    · unfold hexLength
      split
      · next heq =>
        cases heq
        rw [hx]
        rfl
      · rfl
    · rw [List.cons_append, List.cons_append, hexLength]
      rintro x tail ⟨⟩
      exact hne _ _ rfl

theorem fractionLength_break : fractionLength (cs ++ stop :: rest) = fractionLength cs := by
  have hdigit : stop.isDigit = false := by
    rcases Text.isLineBreak_iff.mp hstop with rfl | rfl <;> decide
  fun_cases fractionLength cs with
  | case1 cs h => rw [List.cons_append, fractionLength, runLength_break hdigit, if_pos h]
  | case2 cs h => rw [List.cons_append, fractionLength, runLength_break hdigit, if_neg h]
  | case3 cs hne =>
    rw [fractionLength]
    intro tail heq
    obtain ⟨tail', rfl⟩ := exists_cons_of_append (ne_break hstop (by decide)) heq
    exact hne _ rfl

theorem decimalLength_break : decimalLength (cs ++ stop :: rest) = decimalLength cs := by
  have hwhole : runLength Char.isDigit (cs ++ stop :: rest) = runLength Char.isDigit cs :=
    runLength_break (by rcases Text.isLineBreak_iff.mp hstop with rfl | rfl <;> decide) cs rest
  simp only [decimalLength, hwhole, List.drop_append_of_le_length (runLength_le Char.isDigit cs),
    fractionLength_break hstop]

theorem numberLength_break : numberLength (cs ++ stop :: rest) = numberLength cs := by
  rw [numberLength, hexLength_break hstop, decimalLength_break hstop, numberLength]

theorem commentLength_break : commentLength (cs ++ stop :: rest) = commentLength cs := by
  fun_cases commentLength cs with
  | case1 cs => rw [List.cons_append, commentLength, runLength_break (by simp [hstop])]
  | case2 cs hne =>
    rw [commentLength]
    intro tail heq
    obtain ⟨tail', rfl⟩ := exists_cons_of_append (ne_break hstop (by decide)) heq
    exact hne _ rfl

theorem operatorLength_break : operatorLength (cs ++ stop :: rest) = operatorLength cs := by
  refine operatorLength_append ?_ cs
  rintro d ⟨⟩
  rcases Text.isLineBreak_iff.mp hstop with rfl | rfl <;> decide

theorem closingQuote_break : closingQuote (cs ++ stop :: rest) = closingQuote cs := by
  have hquote : '"' ≠ stop := ne_break hstop (by decide)
  have hdouble : ∀ {c : Char} {cs : List Char}, (∀ more, c = '"' → cs = '"' :: more → False) →
      ∀ more, c = '"' → cs ++ stop :: rest = '"' :: more → False := by
    intro c cs hne more hc heq
    obtain ⟨more', hcs⟩ := exists_cons_of_append hquote heq
    exact hne more' hc hcs
  fun_induction closingQuote cs with
  | case1 cs ih => rw [List.cons_append, List.cons_append, closingQuote, ih]
  | case2 c cs hne hquote =>
    rw [List.cons_append, closingQuote, if_pos hquote]
    exact hdouble hne
  | case3 c cs hne hquote hbreak =>
    rw [List.cons_append, closingQuote, if_neg hquote, if_pos hbreak]
    exact hdouble hne
  | case4 c cs hne hquote hbreak ih =>
    rw [List.cons_append, closingQuote, if_neg hquote, if_neg hbreak, ih]
    exact hdouble hne
  | case5 =>
    rw [List.nil_append, closingQuote, if_neg (by simpa using hquote.symm), if_pos hstop]
    intro more heq
    exact absurd heq.symm hquote

theorem stringLength_break : stringLength (cs ++ stop :: rest) = stringLength cs := by
  fun_cases stringLength cs with
  | case1 cs => rw [List.cons_append, stringLength, closingQuote_break hstop]
  | case2 cs hne =>
    rw [stringLength]
    intro tail heq
    obtain ⟨tail', rfl⟩ := exists_cons_of_append (ne_break hstop (by decide)) heq
    exact hne _ rfl

/-- A lexeme ends with its line, whatever stands on the next one. -/
theorem lexeme_break (before : Option Char) (fresh : Bool) :
    lexeme before fresh (cs ++ stop :: rest) = lexeme before fresh cs := by
  have hlength : wordLength (cs ++ stop :: rest) = wordLength cs :=
    runLength_break (by rcases Text.isLineBreak_iff.mp hstop with rfl | rfl <;> decide) cs rest
  have hword : (cs ++ stop :: rest).take (wordLength cs) = cs.take (wordLength cs) :=
    List.take_append_of_le_length (runLength_le isWordChar cs)
  simp only [lexeme, numberLength_break hstop, hlength, hword, commentLength_break hstop,
    operatorLength_break hstop, stringLength_break hstop]

end LineBreak

/-! ## Lines below -/

theorem scan_of_isLineBreak (place : Place) {cs : List Char} (hc : isLineBreak c = true) :
    scan true place (c :: cs) = [] := by
  rw [scan.eq_def]
  split
  · rfl
  · rfl
  · next heq =>
    cases heq
    rw [if_pos hc, if_pos rfl]

theorem scan_lexeme {oneLine : Bool} {cs : List Char} {next : Kind × Nat}
    (hnext : lexeme place.before place.fresh (c :: cs) = next)
    (hbreak : isLineBreak c = false) (hblank : Text.isBlank c = false) :
    scan oneLine place (c :: cs) =
      place.token next.1 ((c :: cs).take next.2) ::
        scan oneLine (place.afterToken ((c :: cs).take next.2)) ((c :: cs).drop next.2) := by
  have hne : ∀ more, c = '\r' → cs = '\n' :: more → False := by
    rintro more rfl -
    exact absurd hbreak (by decide)
  rw [scan, hbreak, hblank, hnext]
  · rfl
  · exact hne

/-- The next token of a text with another line behind it. -/
theorem scan_lexeme_break {oneLine : Bool} {cs : List Char} {next : Kind × Nat}
    (hnext : lexeme place.before place.fresh (c :: cs) = next)
    (hbreak : isLineBreak c = false) (hblank : Text.isBlank c = false)
    (hstop : isLineBreak stop = true) (rest : List Char) :
    scan oneLine place (c :: cs ++ stop :: rest) =
      place.token next.1 ((c :: cs).take next.2) ::
        scan oneLine (place.afterToken ((c :: cs).take next.2))
          ((c :: cs).drop next.2 ++ stop :: rest) := by
  have hle := lexeme_le place.before place.fresh (List.cons_ne_nil c cs)
  have hnext' : lexeme place.before place.fresh (c :: (cs ++ stop :: rest)) = next :=
    (lexeme_break hstop (c :: cs) rest place.before place.fresh).trans hnext
  rw [hnext] at hle
  rw [List.cons_append, scan_lexeme hnext' hbreak hblank, ← List.cons_append,
    List.take_append_of_le_length hle, List.drop_append_of_le_length hle]

/-- A scan of one line does not reach the next line. -/
theorem scan_line_append (place : Place) (hstop : isLineBreak stop = true)
    (cs rest : List Char) : scan true place (cs ++ stop :: rest) = scan true place cs := by
  generalize honeLine : true = oneLine
  fun_induction scan oneLine place cs with
  | case1 place =>
    subst honeLine
    exact scan_of_isLineBreak place hstop
  | case2 place cs htrue =>
    subst honeLine
    exact scan_of_isLineBreak place (by decide)
  | case3 place cs hfalse ih => exact absurd honeLine.symm hfalse
  | case4 place c cs hne hbreak htrue =>
    subst honeLine
    exact scan_of_isLineBreak place hbreak
  | case5 place c cs hne hbreak hfalse ih => exact absurd honeLine.symm hfalse
  | case6 place c cs hne hbreak hblank ih =>
    rw [List.cons_append, scan_blank (by simpa using hbreak) hblank, ih]
  | case7 place c cs hne hbreak hblank next text =>
    rename_i ih
    rw [scan_lexeme_break rfl (by simpa using hbreak) (by simpa using hblank) hstop, ih]

theorem line_of_mem_scan {cs : List Char} {token : Token} (h : token ∈ scan true place cs) :
    token.span.line = place.line := by
  generalize honeLine : true = oneLine at h
  fun_induction scan oneLine place cs with
  | case1 | case2 | case4 => cases h
  | case3 place cs hfalse ih => exact absurd honeLine.symm hfalse
  | case5 place c cs hne hbreak hfalse ih => exact absurd honeLine.symm hfalse
  | case6 place c cs hne hbreak hblank ih => exact ih h
  | case7 place c cs hne hbreak hblank next text =>
    rename_i ih
    rcases List.mem_cons.mp h with rfl | h
    · rfl
    · exact ih h

/-- The line breaks of two texts add up, unless one stands across the cut. -/
theorem lineBreaks_append {text cs : List Char}
    (hcut : text.getLast? = some '\r' → cs.head? ≠ some '\n') :
    lineBreaks (text ++ cs) = lineBreaks text + lineBreaks cs := by
  have hadvance := congrArg Prod.fst (@Text.advance_append 0 0 text cs hcut)
  simpa only [Text.advance_eq, Nat.zero_add] using hadvance

theorem getLast?_ne_of_unbroken {text : List Char} (htext : Unbroken text) :
    text.getLast? ≠ some '\r' := by
  intro hlast
  exact absurd (htext '\r' (List.mem_of_getLast? hlast)) (by decide)

/-- The offset and the line behind a text; the other fields are those at the start of a line. -/
def Place.past (place : Place) (cs : List Char) : Place :=
  { offset := place.offset + byteLength cs
    line := place.line + lineBreaks cs }

theorem Place.past_append {text cs : List Char}
    (hcut : text.getLast? = some '\r' → cs.head? ≠ some '\n')
    (hoffset : place'.offset = place.offset + byteLength text)
    (hline : place'.line = place.line + lineBreaks text) :
    place'.past cs = place.past (text ++ cs) := by
  simp only [Place.past, Source.byteLength_append, hoffset, hline, lineBreaks_append hcut,
    Nat.add_assoc]

theorem Place.past_append_of_unbroken {text cs : List Char} (htext : Unbroken text)
    (hoffset : place'.offset = place.offset + byteLength text) (hline : place'.line = place.line) :
    place'.past cs = place.past (text ++ cs) := by
  refine Place.past_append (fun hlast => absurd hlast (getLast?_ne_of_unbroken htext)) hoffset ?_
  rw [hline, Text.lineBreaks_eq_zero_iff.mpr htext, Nat.add_zero]

/-- The text is empty or starts with a line break, so a line that ends in front of it is over. -/
def StopsLine (rest : List Char) : Prop :=
  ∀ c, rest.head? = some c → isLineBreak c = true

theorem stopsLine_cons (hstop : isLineBreak stop = true) (rest : List Char) :
    StopsLine (stop :: rest) := by
  rintro c ⟨⟩
  exact hstop

/-- Behind a line, a scan knows no more than the offset and the line. -/
theorem scan_eq_of_stopsLine {rest : List Char} (hrest : StopsLine rest)
    (hoffset : place'.offset = place.offset) (hline : place'.line = place.line) :
    scan false place' rest = scan false place rest := by
  have hbreak : ∀ n c, place'.afterBreak n c = place.afterBreak n c := by
    intro n c
    simp only [Place.afterBreak, hoffset, hline]
  generalize honeLine : false = oneLine
  fun_cases scan oneLine place rest with
  | case1 => rw [scan]
  | case2 cs htrue => exact absurd (honeLine.trans htrue) Bool.false_ne_true
  | case3 cs hfalse => rw [scan, if_neg hfalse, hbreak]
  | case4 c cs hne hc htrue => exact absurd (honeLine.trans htrue) Bool.false_ne_true
  | case5 c cs hne hc hfalse =>
    rw [scan, if_pos hc, if_neg hfalse, hbreak]
    exact hne
  | case6 c cs hne hc hblank => exact absurd (hrest c rfl) hc
  | case7 c cs hne hc hblank => exact absurd (hrest c rfl) hc

/-- The next token of a text with other lines behind it. -/
theorem scan_lexeme_append {oneLine : Bool} {cs rest : List Char} {next : Kind × Nat}
    (hnext : lexeme place.before place.fresh (c :: cs) = next) (hbreak : isLineBreak c = false)
    (hblank : Text.isBlank c = false) (hrest : StopsLine rest) :
    scan oneLine place (c :: cs ++ rest) =
      place.token next.1 ((c :: cs).take next.2) ::
        scan oneLine (place.afterToken ((c :: cs).take next.2))
          ((c :: cs).drop next.2 ++ rest) := by
  cases rest with
  | nil => rw [List.append_nil, List.append_nil, scan_lexeme hnext hbreak hblank]
  | cons stop rest => exact scan_lexeme_break hnext hbreak hblank (hrest stop rfl) rest

theorem cut_of_append (text : List Char) {cs rest : List Char}
    (hcut : (text ++ cs).getLast? = some '\r' → rest.head? ≠ some '\n') :
    cs.getLast? = some '\r' → rest.head? ≠ some '\n' := by
  intro hlast
  refine hcut ?_
  rw [List.getLast?_append, hlast]
  rfl

/-- The tokens of a text and of the lines below it, if no line break stands across the cut. -/
theorem scan_append (place : Place) {cs rest : List Char} (hrest : StopsLine rest)
    (hcut : cs.getLast? = some '\r' → rest.head? ≠ some '\n') :
    scan false place (cs ++ rest) = scan false place cs ++ scan false (place.past cs) rest := by
  generalize honeLine : false = oneLine
  fun_induction scan oneLine place cs with
  | case1 place =>
    subst honeLine
    exact scan_eq_of_stopsLine hrest rfl rfl
  | case2 place cs htrue => exact absurd (honeLine.trans htrue) Bool.false_ne_true
  | case3 place cs hfalse ih =>
    have hpast : (place.afterBreak 2 '\n').past cs = place.past (['\r', '\n'] ++ cs) :=
      Place.past_append (fun hlast => by cases hlast) rfl rfl
    rw [List.cons_append, List.cons_append, scan, if_neg hfalse,
      ih (cut_of_append ['\r', '\n'] hcut), hpast]
    rfl
  | case4 place c cs hne hbreak htrue => exact absurd (honeLine.trans htrue) Bool.false_ne_true
  | case5 place c cs hne hbreak hfalse ih =>
    have hbreaks : lineBreaks [c] = 1 := by
      rcases Text.isLineBreak_iff.mp hbreak with rfl | rfl <;> rfl
    have hpast : (place.afterBreak 1 c).past cs = place.past ([c] ++ cs) := by
      refine Place.past_append ?_ ?_ ?_
      · intro hlast hhead
        obtain ⟨cs', rfl⟩ := List.head?_eq_some_iff.mp hhead
        exact hne cs' (by simpa using hlast) rfl
      · simp [Place.afterBreak, Text.utf8Size_of_isLineBreak hbreak]
      · rw [hbreaks]
        rfl
    have hne' : ∀ cs', c = '\r' → cs ++ rest = '\n' :: cs' → False := by
      intro cs' hc heq
      cases cs with
      | nil => exact hcut (by simp [hc]) (by rw [show rest = _ from heq]; rfl)
      | cons d cs => exact hne cs hc (by rw [(List.cons.inj heq).1])
    rw [List.cons_append, scan, if_pos hbreak, if_neg hfalse, ih (cut_of_append [c] hcut), hpast]
    · rfl
    · exact hne'
  | case6 place c cs hne hbreak hblank ih =>
    have hc : Unbroken [c] := by simpa [Unbroken] using hbreak
    have hpast : (place.afterBlank c).past cs = place.past ([c] ++ cs) :=
      Place.past_append_of_unbroken hc (by simp [Place.afterBlank]) rfl
    rw [List.cons_append, scan_blank (by simpa using hbreak) hblank, ih (cut_of_append [c] hcut),
      hpast]
    rfl
  | case7 place c cs hne hbreak hblank next text =>
    rename_i ih
    have hcs : text ++ (c :: cs).drop next.2 = c :: cs := List.take_append_drop _ _
    have hpast : (place.afterToken text).past ((c :: cs).drop next.2) =
        place.past (text ++ (c :: cs).drop next.2) :=
      Place.past_append_of_unbroken (unbroken_lexeme _ _ (by simpa using hbreak)) rfl rfl
    rw [scan_lexeme_append rfl (by simpa using hbreak) (by simpa using hblank) hrest,
      ih (cut_of_append text (by rwa [hcs])), hpast, hcs]
    rfl

/-! ## Lines above -/

/-- The place `place'` is as many bytes and lines further on, and a scan reads the same there. -/
structure Place.Moved (bytes lines : Nat) (place place' : Place) : Prop where
  offset : place'.offset = place.offset + bytes
  line : place'.line = place.line + lines
  column : place'.column = place.column
  fresh : place'.fresh = place.fresh
  word : place'.before.any isWordChar = place.before.any isWordChar
  blank : place'.before.all Text.isBlank = place.before.all Text.isBlank

namespace Place.Moved

theorem lexeme (h : place.Moved bytes lines place') (cs : List Char) :
    lexeme place'.before place'.fresh cs = Token.lexeme place.before place.fresh cs := by
  unfold Token.lexeme wordKind commentAllowed
  rw [h.word, h.blank, h.fresh]

theorem token (h : place.Moved bytes lines place') (kind : Kind) (text : List Char) :
    place'.token kind text = (place.token kind text).shift bytes lines := by
  simp only [Place.token, Token.shift, Span.shift, h.offset, h.line, h.column, h.fresh,
    Nat.add_right_comm]

theorem afterBlank (h : place.Moved bytes lines place') (c : Char) :
    (place.afterBlank c).Moved bytes lines (place'.afterBlank c) where
  offset := by simp only [Place.afterBlank, h.offset, Nat.add_right_comm]
  line := h.line
  column := congrArg (· + 1) h.column
  fresh := h.fresh
  word := rfl
  blank := rfl

theorem afterBreak (h : place.Moved bytes lines place') (n : Nat) (c : Char) :
    (place.afterBreak n c).Moved bytes lines (place'.afterBreak n c) where
  offset := by simp only [Place.afterBreak, h.offset, Nat.add_right_comm]
  line := by simp only [Place.afterBreak, h.line, Nat.add_right_comm]
  column := rfl
  fresh := rfl
  word := rfl
  blank := rfl

theorem afterToken (h : place.Moved bytes lines place') (text : List Char) :
    (place.afterToken text).Moved bytes lines (place'.afterToken text) where
  offset := by simp only [Place.afterToken, h.offset, Nat.add_right_comm]
  line := h.line
  column := congrArg (· + text.length) h.column
  fresh := rfl
  word := by cases hlast : text.getLast? <;> simp [Place.afterToken, hlast, h.word]
  blank := by cases hlast : text.getLast? <;> simp [Place.afterToken, hlast, h.blank]

end Place.Moved

/-- A scan that starts further on finds the same tokens further on. -/
theorem scan_shift (oneLine : Bool) (h : place.Moved bytes lines place') (cs : List Char) :
    scan oneLine place' cs = (scan oneLine place cs).map (Token.shift bytes lines) := by
  fun_induction scan oneLine place cs generalizing place' with
  | case1 place => rw [scan, List.map_nil]
  | case2 place cs honeLine => rw [scan, if_pos honeLine, List.map_nil]
  | case3 place cs honeLine ih => rw [scan, if_neg honeLine, ih (h.afterBreak 2 '\n')]
  | case4 place c cs hne hbreak honeLine =>
    rw [scan, if_pos hbreak, if_pos honeLine, List.map_nil]
    exact hne
  | case5 place c cs hne hbreak honeLine ih =>
    rw [scan, if_pos hbreak, if_neg honeLine, ih (h.afterBreak 1 c)]
    exact hne
  | case6 place c cs hne hbreak hblank ih =>
    rw [scan_blank (by simpa using hbreak) hblank, ih (h.afterBlank c)]
  | case7 place c cs hne hbreak hblank next text =>
    rename_i ih
    rw [scan_lexeme (h.lexeme _) (by simpa using hbreak) (by simpa using hblank), h.token,
      ih (h.afterToken _), List.map_cons]

/-! ## The tokens of two texts -/

theorem line_le_of_mem_tokenize {source : Source} {token : Token} (h : token ∈ tokenize source) :
    token.span.line ≤ lineBreaks source := by
  obtain ⟨before, after, hget, -⟩ := tokenize_locates h
  obtain ⟨hlt, -⟩ := List.getElem?_eq_some_iff.mp hget
  rw [Text.length_lines] at hlt
  exact Nat.le_of_lt_succ hlt

theorem start_append (a : List Char) {rest : List Char}
    (hmark : rest.head? ≠ some Source.byteOrderMark) :
    start (a ++ rest) = ((start a).1, (start a).2 ++ rest) := by
  cases a with
  | nil =>
    rcases start_cases rest with ⟨-, hstart⟩ | ⟨cs, rfl, -⟩
    · exact hstart
    · exact absurd rfl hmark
  | cons c a => by_cases hc : c = Source.byteOrderMark <;> simp [start, hc]

theorem tokenize_eq_scan {b : Source} (hmark : b.head? ≠ some Source.byteOrderMark) :
    tokenize b = scan false {} b := by
  rcases start_cases b with ⟨-, hstart⟩ | ⟨cs, rfl, -⟩
  · rw [tokenize, hstart]
  · exact absurd rfl hmark

/-- The offset and the line behind a source count its bytes and its line breaks. -/
theorem past_start (a : Source) : (start a).1.past (start a).2 = Place.past {} a := by
  rcases start_cases a with ⟨-, hstart⟩ | ⟨cs, rfl, hstart⟩
  · rw [hstart]
  · have hmark : Unbroken [Source.byteOrderMark] := by
      simp only [Unbroken, List.mem_singleton, forall_eq]
      decide
    rw [hstart]
    exact Place.past_append_of_unbroken hmark (by simp) rfl

/-- The tokens of a source and of the lines below it, if no line break stands across the cut. -/
theorem tokenize_append_scan (a : Source) {rest : List Char} (hrest : StopsLine rest)
    (hcut : a.getLast? = some '\r' → rest.head? ≠ some '\n') :
    tokenize (a ++ rest) = tokenize a ++ scan false (Place.past {} a) rest := by
  have hmark : rest.head? ≠ some Source.byteOrderMark := by
    intro hhead
    exact absurd (hrest _ hhead) (by decide)
  have hcut' : (start a).2.getLast? = some '\r' → rest.head? ≠ some '\n' := by
    rcases start_cases a with ⟨-, hstart⟩ | ⟨cs, rfl, hstart⟩
    · rwa [hstart]
    · rw [hstart]
      exact cut_of_append [Source.byteOrderMark] hcut
  rw [tokenize, start_append a hmark, scan_append _ hrest hcut', past_start, tokenize]

/-- The tokens of two texts with a line break between them. -/
theorem tokenize_append {a b : Source} (hreturn : a.getLast? ≠ some '\r')
    (hmark : b.head? ≠ some Source.byteOrderMark) :
    tokenize (a ++ '\n' :: b) =
      tokenize a ++ (tokenize b).map (Token.shift (byteLength a + 1) (lineBreaks a + 1)) := by
  have hmoved : Place.Moved (byteLength a + 1) (lineBreaks a + 1) {}
      ((Place.past {} a).afterBreak 1 '\n') :=
    ⟨by simp [Place.past, Place.afterBreak], by simp [Place.past, Place.afterBreak], rfl, rfl, rfl,
      rfl⟩
  rw [tokenize_append_scan a (stopsLine_cons rfl b) fun h => absurd h hreturn,
    tokenize_eq_scan hmark, ← scan_shift false hmoved, scan]
  · rfl
  · rintro _ ⟨⟩

/-! ## What stands at the cut -/

/-- The tokens of two texts with a carriage return and a line feed between them. -/
theorem tokenize_append_crlf (a : Source) {b : Source}
    (hmark : b.head? ≠ some Source.byteOrderMark) :
    tokenize (a ++ '\r' :: '\n' :: b) =
      tokenize a ++ (tokenize b).map (Token.shift (byteLength a + 2) (lineBreaks a + 1)) := by
  have hmoved : Place.Moved (byteLength a + 2) (lineBreaks a + 1) {}
      ((Place.past {} a).afterBreak 2 '\n') :=
    ⟨by simp [Place.past, Place.afterBreak], by simp [Place.past, Place.afterBreak], rfl, rfl, rfl,
      rfl⟩
  rw [tokenize_append_scan a (stopsLine_cons rfl _) (by simp), tokenize_eq_scan hmark,
    ← scan_shift false hmoved, scan]
  rfl

theorem tokenize_append_return (a : Source) : tokenize (a ++ ['\r']) = tokenize a := by
  have hscan : scan false (Place.past {} a) ['\r'] = [] := by
    rw [scan, if_pos (by decide), if_neg Bool.false_ne_true, scan]
    rintro _ - ⟨⟩
  rw [tokenize_append_scan a (stopsLine_cons rfl []) (by simp), hscan, List.append_nil]

/-- Behind another text a byte order mark is a token, while at the start of a source it is none. -/
theorem head?_ne_of_tokenize_append {a b : Source} {lines : Nat}
    (h : tokenize (a ++ '\n' :: b) =
      tokenize a ++ (tokenize b).map (Token.shift (byteLength a + 1) lines)) :
    b.head? ≠ some Source.byteOrderMark := by
  intro hhead
  obtain ⟨cs, rfl⟩ := List.head?_eq_some_iff.mp hhead
  have hsource : a ++ '\n' :: Source.byteOrderMark :: cs =
      (a ++ ['\n']) ++ Source.byteOrderMark :: cs := by simp
  rcases tokenize_covers hsource with hblank | ⟨hnil, -⟩ | ⟨token, htoken, hstart, hstop⟩
  · exact absurd hblank (by decide)
  · simp at hnil
  · have hlength : byteLength (a ++ ['\n']) = byteLength a + 1 := Source.byteLength_append _ _
    rw [hlength] at hstart hstop
    rw [h, List.mem_append, List.mem_map] at htoken
    rcases htoken with htoken | ⟨token, htoken, rfl⟩
    · have := ((tokenize_ordered a).1 token htoken).stop.le_byteLength
      omega
    · have hbehind := (le_of_mem_scan htoken).1
      have hsize : 0 < Source.byteOrderMark.utf8Size := Char.utf8Size_pos _
      simp only [start, if_pos] at hbehind
      simp only [shift_span, Span.shift_start] at hstart
      omega

/-- The tokens of two texts with a line feed between them are those of the first and then, further
on by the first text and the line feed, those of the second. This fails only where the second text
starts with a byte order mark, and where tokens stand behind a line feed that completes a line break
of the first text. -/
theorem tokenize_append_iff (a b : Source) :
    tokenize (a ++ '\n' :: b) =
        tokenize a ++ (tokenize b).map (Token.shift (byteLength a + 1) (lineBreaks a + 1)) ↔
      b.head? ≠ some Source.byteOrderMark ∧ (a.getLast? ≠ some '\r' ∨ tokenize b = []) := by
  by_cases hmark : b.head? = some Source.byteOrderMark
  · exact iff_of_false (fun h => head?_ne_of_tokenize_append h hmark) fun h => h.1 hmark
  rw [and_iff_right hmark]
  by_cases hreturn : a.getLast? = some '\r'
  · obtain ⟨a, rfl⟩ := List.getLast?_eq_some_iff.mp hreturn
    have hcrlf : tokenize (a ++ ['\r'] ++ '\n' :: b) = _ :=
      (congrArg tokenize (by simp)).trans (tokenize_append_crlf a hmark)
    have hbreaks : lineBreaks (a ++ ['\r']) = lineBreaks a + 1 := lineBreaks_append (by simp)
    rw [hcrlf, tokenize_append_return, hbreaks, List.append_cancel_left_eq]
    cases htokens : tokenize b with
    | nil => simp
    | cons token tokens =>
      refine iff_of_false (fun h => ?_) (by simp)
      have hline := congrArg (·.span.line) (List.cons.inj h).1
      simp only [shift_span, Span.shift_line] at hline
      omega
  · exact iff_of_true (tokenize_append hreturn hmark) (.inl hreturn)

/-! ## The rest of a line -/

theorem tokenizeLine_after {cs : List Char} {offset : Nat} (h : offset ≤ byteLength cs)
    (after : List Char) (line column : Nat) :
    tokenizeLine (cs ++ '\n' :: after) offset line column = tokenizeLine cs offset line column := by
  rw [tokenizeLine, Source.dropBytes_after h, Source.charBefore_after h,
    scan_line_append _ rfl, tokenizeLine]

/-- At the start of a text, a line break in front of it reads like nothing. -/
theorem tokenizeLine_before {before : List Char} (hbefore : before.getLast? = some '\n')
    (cs : List Char) (offset line column lines : Nat) :
    tokenizeLine (before ++ cs) (offset + byteLength before) (line + lines) column =
      (tokenizeLine cs offset line column).map (Token.shift (byteLength before) lines) := by
  have hchar : Source.charBefore (before ++ cs) (offset + byteLength before) =
      (Source.charBefore cs offset).or (some '\n') := by
    rw [Source.charBefore, Source.takeBytes_before, List.getLast?_append, hbefore,
      Source.charBefore]
  have hmoved : Place.Moved (byteLength before) lines
      { offset, line, column, before := Source.charBefore cs offset, fresh := false }
      { offset := offset + byteLength before
        line := line + lines
        column
        before := (Source.charBefore cs offset).or (some '\n')
        fresh := false } := by
    refine ⟨rfl, rfl, rfl, rfl, ?_, ?_⟩ <;> cases Source.charBefore cs offset <;> rfl
  rw [tokenizeLine, hchar, scan_shift true hmoved, Source.dropBytes_before, tokenizeLine]

end HotkeyScript.Token
