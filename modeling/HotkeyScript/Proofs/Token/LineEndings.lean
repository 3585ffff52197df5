import HotkeyScript.Proofs.Source.LineEndings
import HotkeyScript.Proofs.Token.Append

/-!
# Tokens and line endings

A lexeme ends with its line, whichever way the line ends. So a source in which every line feed gets
a carriage return has the same tokens, with their offsets moved on.

## Main definitions

* `Token.stretch` — where a token lies in that source.
* `Token.face` — what a token shows besides its text and its offsets.
-/

namespace HotkeyScript

open Source (byteLength IsBoundary)
open Text (crlf Unbroken isLineBreak)

variable {source : Source}

/-! ## Tokens further on -/

/-- Where a span lies in the source with a carriage return in front of every line feed. -/
def Span.stretch (source : Source) (span : Span) : Span :=
  { span with
    start := Source.stretch source span.start
    stop := Source.stretch source span.stop }

/-- The token in the source with a carriage return in front of every line feed. -/
def Token.stretch (source : Source) (token : Token) : Token :=
  { token with
    text := String.ofList (crlf token.text.toList)
    span := token.span.stretch source }

/-- What a token shows besides its text and its offsets. -/
def Token.face (token : Token) : Token.Kind × Nat × Nat × Bool :=
  (token.kind, token.span.line, token.span.column, token.opensLine)

section Fields

variable (source) (span : Span) (token next : Token)

@[simp] theorem Span.stretch_start :
    (span.stretch source).start = Source.stretch source span.start := rfl

@[simp] theorem Span.stretch_stop :
    (span.stretch source).stop = Source.stretch source span.stop := rfl

@[simp] theorem Span.stretch_line : (span.stretch source).line = span.line := rfl

@[simp] theorem Span.stretch_column : (span.stretch source).column = span.column := rfl

theorem Span.to_stretch (stop : Nat) :
    (span.stretch source).to (Source.stretch source stop) = (span.to stop).stretch source := rfl

@[simp] theorem Token.stretch_kind : (token.stretch source).kind = token.kind := rfl

@[simp] theorem Token.stretch_text :
    (token.stretch source).text = String.ofList (crlf token.text.toList) := rfl

@[simp] theorem Token.stretch_span : (token.stretch source).span = token.span.stretch source := rfl

@[simp] theorem Token.stretch_opensLine :
    (token.stretch source).opensLine = token.opensLine := rfl

@[simp] theorem Token.face_stretch : (token.stretch source).face = token.face := rfl

@[simp] theorem Token.touches_stretch :
    (token.stretch source).touches (next.stretch source) = token.touches next := by
  rw [Bool.eq_iff_iff]
  simp [Token.touches]

end Fields

namespace Token

variable {cs before : List Char} {place : Place}

/-- Two texts of which one has no line feed are equal for both line endings or for none. -/
theorem ofList_crlf_beq (text : String) (h : '\n' ∉ text.toList) (other : String) :
    (String.ofList (crlf other.toList) == text) = (other == text) := by
  rw [Bool.eq_iff_iff, beq_iff_eq, beq_iff_eq, ← String.toList_inj, String.toList_ofList,
    Text.crlf_eq_iff h, String.toList_inj]

/-! ## Lexemes -/

/-- A text has no line feed, or one behind its first line. -/
theorem feed_cases (cs : List Char) :
    '\n' ∉ cs ∨ ∃ line rest, '\n' ∉ line ∧ cs = line ++ '\n' :: rest := by
  by_cases h : '\n' ∈ cs
  · obtain ⟨line, rest, hcs, hline⟩ := List.eq_append_cons_of_mem h
    exact .inr ⟨line, rest, hline, hcs⟩
  · exact .inl h

/-- What does not look behind the end of a line reads the same. -/
theorem eq_of_break {α : Type} {f : List Char → α}
    (h : ∀ {stop : Char}, isLineBreak stop = true → ∀ cs rest, f (cs ++ stop :: rest) = f cs)
    (cs : List Char) : f (crlf cs) = f cs := by
  rcases feed_cases cs with hcs | ⟨line, rest, hline, rfl⟩
  · rw [Text.crlf_eq_self hcs]
  · rw [Text.crlf_append, Text.crlf_feed, Text.crlf_eq_self hline, h rfl, h rfl]

theorem lexeme_crlf (before : Option Char) (fresh : Bool) (cs : List Char) :
    lexeme before fresh (crlf cs) = lexeme before fresh cs :=
  eq_of_break (fun hstop cs rest => lexeme_break hstop cs rest before fresh) cs

theorem closingQuote_crlf (cs : List Char) : closingQuote (crlf cs) = closingQuote cs :=
  eq_of_break (fun hstop cs rest => closingQuote_break hstop cs rest) cs

/-- The rest of a string is the same text. -/
theorem take_closingQuote_crlf {length : Nat} (h : closingQuote cs = some length) :
    (crlf cs).take length = cs.take length := by
  have htail : '\n' ∉ cs.take length := Text.feed_not_mem (unbroken_closingQuote h)
  have hlength : (cs.take length).length = length := List.length_take_of_le (closingQuote_le h)
  have hsplit : crlf cs = cs.take length ++ crlf (cs.drop length) := by
    rw [← Text.crlf_eq_self htail, ← Text.crlf_append, List.take_append_drop]
  rw [hsplit, List.take_append_of_le_length (Nat.le_of_eq hlength.symm), List.take_take,
    Nat.min_self]

/-! ## Scans -/

/-- The place in the source with a carriage return in front of every line feed. -/
def Place.stretch (source : Source) (place : Place) : Place :=
  { place with offset := Source.stretch source place.offset }

theorem Place.stretch_add {text rest : List Char} (hsource : source = before ++ (text ++ rest))
    (hbehind : place.Behind before) :
    Source.stretch source (place.offset + byteLength text) =
      Source.stretch source place.offset + byteLength (crlf text) := by
  have hoffset : place.offset = byteLength before := hbehind
  have hdrop : Source.dropBytes (byteLength before) source = text ++ rest := by
    rw [hsource, Source.dropBytes_byteLength_append]
  have hboundary : IsBoundary source (byteLength before) := ⟨before, _, hsource, rfl⟩
  rw [hoffset, hboundary.stretch_add hdrop]

section Moves

variable {text rest : List Char} (hsource : source = before ++ (text ++ rest))
  (hbehind : place.Behind before)
include hsource hbehind

theorem Place.token_stretch (htext : '\n' ∉ text) (kind : Kind) :
    (place.stretch source).token kind text = (place.token kind text).stretch source := by
  simp [Place.token, Place.stretch, Token.stretch, Span.stretch, Text.crlf_eq_self htext,
    Place.stretch_add hsource hbehind]

theorem Place.afterToken_stretch (htext : '\n' ∉ text) :
    (place.stretch source).afterToken text = (place.afterToken text).stretch source := by
  simp [Place.afterToken, Place.stretch, Text.crlf_eq_self htext, Place.stretch_add hsource hbehind]

end Moves

theorem Place.afterBlank_stretch {c : Char} (hsource : source = before ++ c :: cs)
    (hbehind : place.Behind before) (hc : c ≠ '\n') :
    (place.stretch source).afterBlank c = (place.afterBlank c).stretch source := by
  have hsource' : source = before ++ ([c] ++ cs) := hsource
  have hoffset := Place.stretch_add hsource' hbehind
  rw [Text.crlf_cons hc] at hoffset
  simp [Place.afterBlank, Place.stretch] at hoffset ⊢
  omega

theorem Place.afterBreak_stretch (hsource : source = before ++ '\n' :: cs)
    (hbehind : place.Behind before) :
    (place.stretch source).afterBreak 2 '\n' = (place.afterBreak 1 '\n').stretch source := by
  have hsource' : source = before ++ (['\n'] ++ cs) := hsource
  have hoffset := Place.stretch_add hsource' hbehind
  simp only [Place.afterBreak, Place.stretch, Place.mk.injEq, and_true]
  exact hoffset.symm

/-- A scan finds the same tokens further on. -/
theorem scan_crlf (oneLine : Bool) (hreturn : '\r' ∉ cs) (hsource : source = before ++ cs)
    (hbehind : place.Behind before) :
    scan oneLine (place.stretch source) (crlf cs) =
      (scan oneLine place cs).map (Token.stretch source) := by
  fun_induction scan oneLine place cs generalizing before with
  | case1 place => rw [Text.crlf_nil, scan, List.map_nil]
  | case2 place cs honeLine => simp at hreturn
  | case3 place cs honeLine ih => simp at hreturn
  | case4 place c cs hne hbreak honeLine =>
    obtain rfl : c = '\n' := by
      refine (Text.isLineBreak_iff.mp hbreak).resolve_left ?_
      rintro rfl
      simp at hreturn
    rw [Text.crlf_feed, scan, if_pos honeLine, List.map_nil]
  | case5 place c cs hne hbreak honeLine ih =>
    simp only [List.mem_cons, not_or] at hreturn
    obtain rfl : c = '\n' := (Text.isLineBreak_iff.mp hbreak).resolve_left (Ne.symm hreturn.1)
    -- the break has one character here and two there, and both places count one line more
    have hbehind' : (place.afterBreak 1 '\n').Behind (before ++ ['\n']) := hbehind.append rfl
    rw [Text.crlf_feed, scan, if_neg honeLine, Place.afterBreak_stretch hsource hbehind,
      ih hreturn.2 (by simpa using hsource) hbehind']
  | case6 place c cs hne hbreak hblank ih =>
    simp only [List.mem_cons, not_or] at hreturn
    have hc : c ≠ '\n' := Text.ne_feed_of_not_isLineBreak hbreak
    have hbehind' : (place.afterBlank c).Behind (before ++ [c]) := hbehind.append rfl
    rw [Text.crlf_cons hc, scan_blank (by simpa using hbreak) hblank,
      Place.afterBlank_stretch hsource hbehind hc, ih hreturn.2 (by simpa using hsource) hbehind']
  | case7 place c cs hne hbreak hblank next text =>
    rename_i ih
    have hcs : text ++ (c :: cs).drop next.2 = c :: cs := List.take_append_drop _ _
    have htext : '\n' ∉ text :=
      Text.feed_not_mem (unbroken_lexeme place.before place.fresh (by simpa using hbreak))
    have hsource' : source = before ++ (text ++ (c :: cs).drop next.2) := by rw [hsource, hcs]
    have hlength : text.length = next.2 :=
      List.length_take_of_le (lexeme_le place.before place.fresh (List.cons_ne_nil c cs))
    have hc : c ≠ '\n' := Text.ne_feed_of_not_isLineBreak hbreak
    have hcrlf : c :: crlf cs = text ++ crlf ((c :: cs).drop next.2) := by
      rw [← Text.crlf_cons hc, ← hcs, Text.crlf_append, Text.crlf_eq_self htext, hcs]
    have hnext : lexeme (place.stretch source).before (place.stretch source).fresh
        (c :: crlf cs) = next := by
      rw [← Text.crlf_cons hc]
      exact lexeme_crlf place.before place.fresh (c :: cs)
    have hbehind' : (place.afterToken text).Behind (before ++ text) := hbehind.append rfl
    have hreturn' : '\r' ∉ (c :: cs).drop next.2 := fun hmem => hreturn (List.mem_of_mem_drop hmem)
    rw [Text.crlf_cons hc, scan_lexeme hnext (by simpa using hbreak) (by simpa using hblank), hcrlf,
      ← hlength, List.take_left, List.drop_left, hlength,
      Place.token_stretch hsource' hbehind htext, Place.afterToken_stretch hsource' hbehind htext,
      ih hreturn' (by rw [hsource', List.append_assoc]) hbehind', List.map_cons]

theorem start_crlf (source : Source) :
    start (crlf source) = ((start source).1.stretch source, crlf (start source).2) := by
  rcases start_cases source with ⟨hmark, hstart⟩ | ⟨cs, rfl, hstart⟩
  · have hmark' : (crlf source).head? ≠ some Source.byteOrderMark := by
      rwa [ne_eq, Text.head?_crlf_eq_some_iff (by decide) (by decide)]
    rcases start_cases (crlf source) with ⟨-, hstart'⟩ | ⟨cs, hcrlf, -⟩
    · simp [hstart, hstart', Place.stretch]
    · exact absurd (by rw [hcrlf]; rfl) hmark'
  · have hmark : Source.byteOrderMark ≠ '\n' := by decide
    have hoffset : Source.stretch (Source.byteOrderMark :: cs) Source.byteOrderMark.utf8Size =
        Source.byteOrderMark.utf8Size :=
      Source.stretch_byteLength_append [Source.byteOrderMark] cs
    rw [Text.crlf_cons hmark, hstart, start, if_pos rfl]
    simp only [Place.stretch, hoffset]

/-- A source has the same tokens further on. -/
theorem tokenize_crlf (hreturn : '\r' ∉ source) :
    tokenize (crlf source) = (tokenize source).map (Token.stretch source) := by
  rw [tokenize, start_crlf, tokenize]
  rcases start_cases source with ⟨-, hstart⟩ | ⟨cs, hsource, hstart⟩
  · rw [hstart]
    exact scan_crlf false hreturn (List.nil_append source).symm rfl
  · have hreturn' : '\r' ∉ cs := fun hmem => hreturn (by simp [hsource, hmem])
    have hsource' : source = [Source.byteOrderMark] ++ cs := hsource
    rw [hstart]
    exact scan_crlf false hreturn' hsource' rfl

/-- The rest of a line has the same tokens further on. -/
theorem tokenizeLine_crlf (hreturn : '\r' ∉ source) {offset : Nat} (h : IsBoundary source offset)
    (line column : Nat) :
    tokenizeLine (crlf source) (Source.stretch source offset) line column =
      (tokenizeLine source offset line column).map (Token.stretch source) := by
  obtain ⟨before, hsource, hoffset⟩ := h.dropBytes_append
  have hbehind : Place.Behind
      { offset, line, column, before := Source.charBefore source offset, fresh := false } before :=
    hoffset
  have hreturn' : '\r' ∉ Source.dropBytes offset source := by
    intro hmem
    rw [hsource] at hreturn
    exact hreturn (List.mem_append_right _ hmem)
  rw [tokenizeLine, Source.dropBytes_stretch, Source.charBefore_stretch]
  exact scan_crlf true hreturn' hsource hbehind

end Token

end HotkeyScript
