import HotkeyScript.Proofs.Source.Position
import HotkeyScript.Proofs.Token.Append

/-!
# Positions of tokens

The lexer counts lines and columns while it moves, and what it counts is the position of the offset
in the source. When it starts again in the middle of a line it counts on from the line and the
column that it is given.

## Main definitions

* `Token.Located` — a token on one line whose line and column are those of its start.
-/

namespace HotkeyScript.Token

open Source (IsBoundary byteLength mark)
open Text (Unbroken advance)

variable {source : Source} {token : Token} {place place' : Place} {text rest cs : List Char}

/-! ## Scans -/

/-- The text of the token stands in the text behind the place, at the line and the column that the
text before it leads to. -/
def Place.Finds (place : Place) (cs : List Char) (token : Token) : Prop :=
  ∃ before after, cs = before ++ (token.text.toList ++ after) ∧
    token.span.start = place.offset + byteLength before ∧
    (token.span.line, token.span.column) = advance place.line place.column before ∧
    Unbroken token.text.toList

theorem Place.finds_token (kind : Kind) (htext : Unbroken text) (rest : List Char) :
    place.Finds (text ++ rest) (place.token kind text) :=
  ⟨[], rest, by simp [Place.token], rfl, rfl, by simpa [Place.token] using htext⟩

theorem Place.Finds.append (text : List Char) (h : place'.Finds rest token)
    (hoffset : place'.offset = place.offset + byteLength text)
    (hadvance : ∀ before after, rest = before ++ after →
      advance place.line place.column (text ++ before) =
        advance place'.line place'.column before) :
    place.Finds (text ++ rest) token := by
  obtain ⟨before, after, hrest, hstart, hposition, hunbroken⟩ := h
  refine ⟨text ++ before, after, ?_, ?_, ?_, hunbroken⟩
  · rw [hrest, List.append_assoc]
  · rw [hstart, hoffset, Source.byteLength_append, Nat.add_assoc]
  · rw [hposition, hadvance before _ hrest]

/-- The tokens of a scan stand where the lexer has counted to. -/
theorem scan_finds (oneLine : Bool) (place : Place) (cs : List Char) :
    ∀ token ∈ scan oneLine place cs, place.Finds cs token := by
  fun_induction scan oneLine place cs with
  | case1 place => exact List.forall_mem_nil _
  | case2 place cs => exact List.forall_mem_nil _
  | case3 place cs _ ih =>
    intro token htoken
    have hfinds := ih token htoken
    exact hfinds.append ['\r', '\n'] rfl fun _ _ _ => rfl
  | case4 place c cs hne hbreak => exact List.forall_mem_nil _
  | case5 place c cs hne hbreak _ ih =>
    intro token htoken
    have hfinds := ih token htoken
    refine hfinds.append [c] ?_ ?_
    · simp [Place.afterBreak, Text.utf8Size_of_isLineBreak hbreak]
    · intro before after hcs
      refine Text.advance_break hbreak fun more hc hbefore => hne (more ++ after) hc ?_
      rw [hcs, show before = '\n' :: more from hbefore, List.cons_append]
  | case6 place c cs hne hbreak hblank ih =>
    intro token htoken
    have hfinds := ih token htoken
    exact hfinds.append [c] rfl fun _ _ _ => Text.advance_cons (by simpa using hbreak)
  | case7 place c cs hne hbreak hblank next text =>
    rename_i ih
    have hunbroken : Unbroken text := unbroken_lexeme _ _ (by simpa using hbreak)
    have hcs : text ++ (c :: cs).drop next.2 = c :: cs := List.take_append_drop _ _
    intro token htoken
    rw [← hcs]
    rcases List.mem_cons.mp htoken with rfl | htoken
    · exact Place.finds_token _ hunbroken _
    · exact (ih token htoken).append text rfl fun _ _ _ => Text.advance_append_of_unbroken hunbroken

/-! ## Sources and lines -/

/-- The token lies on one line behind the mark, and its line and column are those of its start. -/
structure Located (source : Source) (token : Token) : Prop where
  position : (token.span.line, token.span.column) = Source.position source token.span.start
  behind : byteLength (mark source) ≤ token.span.start
  unbroken : Unbroken token.text.toList

theorem tokenize_located {source : Source} (h : token ∈ tokenize source) :
    Located source token := by
  have hstart : source = mark source ++ (start source).2 ∧
      (start source).1.offset = byteLength (mark source) ∧ (start source).1.line = 0 ∧
      (start source).1.column = 0 := by
    rcases start_cases source with ⟨hmark, hstart⟩ | ⟨cs, hsource, hstart⟩
    · simp [hstart, mark, hmark]
    · have hmark : mark source = [Source.byteOrderMark] := by simp [mark, hsource]
      rw [hstart, hmark]
      exact ⟨hsource, rfl, rfl, rfl⟩
  obtain ⟨hsource, hoffset, hline, hcolumn⟩ := hstart
  obtain ⟨before, after, hcs, hbegin, hposition, hunbroken⟩ := scan_finds _ _ _ token h
  rw [hoffset] at hbegin
  rw [hline, hcolumn] at hposition
  rw [hcs] at hsource
  refine ⟨?_, by omega, hunbroken⟩
  rw [hposition, hbegin, ← Source.byteLength_append, Source.position_eq hsource]

/-- On a line that is read anew the lexer counts on from the column that it is given. -/
theorem tokenizeLine_position {offset line column : Nat} (h : IsBoundary source offset)
    (hbehind : byteLength (mark source) ≤ offset)
    (htoken : token ∈ tokenizeLine source offset line column) :
    ∃ n, token.span.line = line ∧ token.span.column = column + n ∧
      Source.position source token.span.start =
        ((Source.position source offset).1, (Source.position source offset).2 + n) ∧
      offset ≤ token.span.start ∧ Unbroken token.text.toList := by
  obtain ⟨before, after, hdrop, hstart, hposition, hunbroken⟩ := scan_finds _ _ _ token htoken
  have hline : token.span.line = line := line_of_mem_scan htoken
  have hle : offset ≤ token.span.start := hstart ▸ Nat.le_add_right _ _
  simp only [Text.advance_eq] at hposition
  have hbreaks : Text.lineBreaks before = 0 := by
    have := congrArg Prod.fst hposition
    simp only at this
    omega
  have hbefore := Text.lineBreaks_eq_zero_iff.mp hbreaks
  refine ⟨before.length, hline, ?_, ?_, hle, hunbroken⟩
  · have hcolumn := congrArg Prod.snd hposition
    simpa [hbreaks, Text.length_takeWhile_reverse_of_unbroken hbefore] using hcolumn
  · rw [hstart]
    exact Source.position_add_of_unbroken h hbehind hdrop hbefore

end HotkeyScript.Token
