import HotkeyScript.Proofs.Source.Boundary
import HotkeyScript.Token.Lexer

/-!
# The order of tokens

The lexer cuts its tokens out of the source from left to right. A token lies on one line, and
between two tokens on different lines there is a line break.

## Main definitions

* `Token.Cut` — the text of a token is what the source has at its place.
* `Token.Follows` — a token comes behind another one.
-/

namespace HotkeyScript.Token

open Source (IsBoundary BreakBetween byteLength)
open Text (Unbroken)

/-! ## Lexemes lie on one line -/

theorem take_runLength (p : Char → Bool) (cs : List Char) :
    cs.take (runLength p cs) = cs.takeWhile p := by
  induction cs with
  | nil => rfl
  | cons c cs ih =>
    by_cases hc : p c = true
    · simpa [runLength, hc] using ih
    · simp [runLength, hc]

/-- A run of characters lies on one line if no line break belongs to it. -/
theorem unbroken_runLength {p : Char → Bool} (hreturn : p '\r' = false) (hfeed : p '\n' = false)
    (cs : List Char) : Unbroken (cs.take (runLength p cs)) := by
  rw [take_runLength]
  intro c hc
  have hp : p c = true := List.all_eq_true.mp List.all_takeWhile c hc
  rw [Bool.eq_false_iff]
  intro hbreak
  simp only [Text.isLineBreak, Bool.or_eq_true, beq_iff_eq] at hbreak
  rcases hbreak with rfl | rfl
  · rw [hreturn] at hp
    cases hp
  · rw [hfeed] at hp
    cases hp

theorem unbroken_nil : Unbroken [] := by
  intro c hc
  cases hc

theorem unbroken_cons {c : Char} {text : List Char} :
    Unbroken (c :: text) ↔ Text.isLineBreak c = false ∧ Unbroken text :=
  List.forall_mem_cons

theorem unbroken_append {text text' : List Char} :
    Unbroken (text ++ text') ↔ Unbroken text ∧ Unbroken text' :=
  List.forall_mem_append

theorem unbroken_hexLength (cs : List Char) : Unbroken (cs.take (hexLength cs)) := by
  fun_cases hexLength cs with
  | case1 x cs h =>
    simp only [Bool.and_eq_true, Bool.or_eq_true, beq_iff_eq] at h
    have hx : Text.isLineBreak x = false := by
      rcases h.1 with rfl | rfl <;> decide
    rw [show 2 + runLength isHexDigit cs = runLength isHexDigit cs + 1 + 1 by omega]
    exact unbroken_cons.mpr ⟨by decide, unbroken_cons.mpr ⟨hx,
      unbroken_runLength (by decide) (by decide) cs⟩⟩
  | case2 => exact unbroken_nil
  | case3 => exact unbroken_nil

theorem unbroken_fractionLength (cs : List Char) : Unbroken (cs.take (fractionLength cs)) := by
  fun_cases fractionLength cs with
  | case1 => exact unbroken_nil
  | case2 cs h =>
    rw [Nat.add_comm]
    exact unbroken_cons.mpr ⟨by decide, unbroken_runLength (by decide) (by decide) cs⟩
  | case3 => exact unbroken_nil

theorem unbroken_numberLength (cs : List Char) : Unbroken (cs.take (numberLength cs)) := by
  simp only [numberLength, decimalLength]
  split
  · split
    · exact unbroken_nil
    · rw [List.take_add]
      exact unbroken_append.mpr ⟨unbroken_runLength (by decide) (by decide) cs,
        unbroken_fractionLength _⟩
  · exact unbroken_hexLength cs

theorem unbroken_commentLength (cs : List Char) : Unbroken (cs.take (commentLength cs)) := by
  fun_cases commentLength cs with
  | case1 cs =>
    rw [Nat.add_comm]
    exact unbroken_cons.mpr ⟨by decide, unbroken_runLength (by decide) (by decide) cs⟩
  | case2 => exact unbroken_nil

theorem unbroken_operators : ∀ op ∈ operators, ∀ c ∈ op.toList, Text.isLineBreak c = false := by
  have hall : (operators.all fun op => op.toList.all fun c => !Text.isLineBreak c) = true := by
    decide
  intro op hop c hc
  have hop := List.all_eq_true.mp hall op hop
  have hc := List.all_eq_true.mp hop c hc
  simpa using hc

theorem unbroken_operatorLength (cs : List Char) : Unbroken (cs.take (operatorLength cs)) := by
  fun_cases operatorLength cs with
  | case1 op h =>
    have hmatch := List.find?_some h
    obtain ⟨rest, rfl⟩ := List.isPrefixOf_iff_prefix.mp hmatch
    rw [show op.length = op.toList.length from rfl, List.take_left]
    exact unbroken_operators op (List.mem_of_find?_eq_some h)
  | case2 => exact unbroken_nil

theorem unbroken_closingQuote {cs : List Char} {n : Nat} (h : closingQuote cs = some n) :
    Unbroken (cs.take n) := by
  fun_induction closingQuote cs generalizing n with
  | case1 cs ih =>
    obtain ⟨m, hm, rfl⟩ := Option.map_eq_some_iff.mp h
    exact unbroken_cons.mpr ⟨by decide, unbroken_cons.mpr ⟨by decide, ih hm⟩⟩
  | case2 c cs hne hquote =>
    cases h
    rw [beq_iff_eq] at hquote
    subst hquote
    exact unbroken_cons.mpr ⟨by decide, unbroken_nil⟩
  | case3 => cases h
  | case4 c cs hne hquote hbreak ih =>
    obtain ⟨m, hm, rfl⟩ := Option.map_eq_some_iff.mp h
    exact unbroken_cons.mpr ⟨by simpa using hbreak, ih hm⟩
  | case5 => cases h

theorem unbroken_stringLength (cs : List Char) : Unbroken (cs.take (stringLength cs)) := by
  fun_cases stringLength cs with
  | case1 cs =>
    cases h : closingQuote cs with
    | none => exact unbroken_nil
    | some n => exact unbroken_cons.mpr ⟨by decide, unbroken_closingQuote h⟩
  | case2 => exact unbroken_nil

/-- A lexeme lies on one line. -/
theorem unbroken_lexeme (before : Option Char) (fresh : Bool) {c : Char} {cs : List Char}
    (hc : Text.isLineBreak c = false) :
    Unbroken ((c :: cs).take (lexeme before fresh (c :: cs)).2) := by
  unfold lexeme
  split
  · exact unbroken_numberLength (c :: cs)
  split
  · exact unbroken_runLength (by decide) (by decide) (c :: cs)
  split
  · exact unbroken_commentLength (c :: cs)
  split
  · exact unbroken_operatorLength (c :: cs)
  split
  · exact unbroken_stringLength (c :: cs)
  · exact unbroken_cons.mpr ⟨hc, unbroken_nil⟩

/-! ## Places of tokens -/

/-- The token is a piece of the source. -/
structure Cut (source : Source) (token : Token) : Prop where
  start : IsBoundary source token.span.start
  stop : IsBoundary source token.span.stop
  lt : token.span.start < token.span.stop
  text : token.text = String.ofList (Source.slice source token.span.start token.span.stop)

theorem Cut.dropBytes_start {source : Source} {token : Token} (h : Cut source token) :
    Source.dropBytes token.span.start source =
      token.text.toList ++ Source.dropBytes token.span.stop source := by
  obtain ⟨before, text, after, rfl, hstart, hstop, hslice⟩ := h.start.split h.stop (Nat.le_of_lt h.lt)
  rw [h.text, hslice, String.toList_ofList, hstart, Source.dropBytes_byteLength_append, hstop,
    ← List.append_assoc, ← Source.byteLength_append, Source.dropBytes_byteLength_append]

theorem Cut.stop_eq {source : Source} {token : Token} (h : Cut source token) :
    token.span.stop = token.span.start + byteLength token.text.toList := by
  rw [h.text, String.toList_ofList, Source.byteLength_slice h.start h.stop (Nat.le_of_lt h.lt)]

/-- The token `next` comes behind the token, and behind a line break if it is on another line. -/
def Follows (source : Source) (token next : Token) : Prop :=
  token.span.stop ≤ next.span.start ∧
    (next.span.line ≠ token.span.line →
      BreakBetween source token.span.stop next.span.start)

/-- The token comes at or behind the place, and behind a line break if it is on another line. -/
def Place.Before (source : Source) (place : Place) (token : Token) : Prop :=
  place.offset ≤ token.span.start ∧
    (token.span.line ≠ place.line → BreakBetween source place.offset token.span.start)

/-- The place stands behind the text. -/
def Place.Behind (place : Place) (text : List Char) : Prop :=
  place.offset = byteLength text

theorem Place.cut_token {place : Place} {before text rest : List Char} (h : place.Behind before)
    (kind : Kind) (htext : text ≠ []) : Cut (before ++ (text ++ rest)) (place.token kind text) := by
  have hpos : 0 < byteLength text := by
    have := Source.length_le_byteLength text
    have := List.length_pos_iff.mpr htext
    omega
  have hoffset : place.offset = byteLength before := h
  refine ⟨?_, ?_, ?_, ?_⟩
  · simp only [Place.token, hoffset]
    exact Source.isBoundary_append before _
  · simp only [Place.token, hoffset]
    rw [← List.append_assoc, ← Source.byteLength_append]
    exact Source.isBoundary_append _ _
  · simp only [Place.token]
    omega
  · simp only [Place.token, hoffset]
    rw [Source.slice_append]

/-- What comes behind a later place comes behind an earlier one on the same line. -/
theorem Place.Before.of_le {source : Source} {place place' : Place} {token : Token}
    (h : place'.Before source token) (hle : place.offset ≤ place'.offset)
    (hline : place'.line = place.line) : place.Before source token := by
  refine ⟨Nat.le_trans hle h.1, fun hne => ?_⟩
  exact (h.2 (hline ▸ hne)).mono hle (Nat.le_refl _)

/-- What comes behind a line break comes behind the place before the break. -/
theorem Place.Before.of_break {source before after : List Char} {place place' : Place}
    {token : Token} {c : Char} (h : place'.Before source token) (hsource : source = before ++ c :: after)
    (hbehind : place.Behind before) (hbreak : Text.isLineBreak c = true)
    (hlt : place.offset < place'.offset) : place.Before source token := by
  have hstart := h.1
  have hoffset : place.offset = byteLength before := hbehind
  exact ⟨by omega, fun _ => ⟨before, c, after, hsource, hbreak, by omega, by omega⟩⟩

theorem Place.Behind.append {place place' : Place} {before text : List Char}
    (h : place.Behind before) (hoffset : place'.offset = place.offset + byteLength text) :
    place'.Behind (before ++ text) := by
  rw [Behind, hoffset, Source.byteLength_append, show place.offset = byteLength before from h]

/-- The tokens of a scan are pieces of the source, one behind the other. -/
theorem scan_ordered (oneLine : Bool) {source before cs : List Char} {place : Place}
    (hsource : source = before ++ cs) (hbehind : place.Behind before) :
    (∀ token ∈ scan oneLine place cs, Cut source token ∧ place.Before source token) ∧
      (scan oneLine place cs).Pairwise (Follows source) := by
  fun_induction scan oneLine place cs generalizing before with
  | case1 place => exact ⟨List.forall_mem_nil _, .nil⟩
  | case2 place cs => exact ⟨List.forall_mem_nil _, .nil⟩
  | case3 place cs honeLine ih =>
    obtain ⟨htokens, hpairwise⟩ := @ih (before ++ ['\r', '\n']) (by simpa using hsource)
      (hbehind.append rfl)
    refine ⟨fun token htoken => ?_, hpairwise⟩
    obtain ⟨hcut, hplace⟩ := htokens token htoken
    exact ⟨hcut, hplace.of_break hsource hbehind (by decide) (by simp [Place.afterBreak])⟩
  | case4 place c cs hne hbreak => exact ⟨List.forall_mem_nil _, .nil⟩
  | case5 place c cs hne hbreak honeLine ih =>
    obtain ⟨htokens, hpairwise⟩ := @ih (before ++ [c]) (by simpa using hsource)
      (hbehind.append (by simp [Place.afterBreak, Text.utf8Size_of_isLineBreak hbreak]))
    refine ⟨fun token htoken => ?_, hpairwise⟩
    obtain ⟨hcut, hplace⟩ := htokens token htoken
    exact ⟨hcut, hplace.of_break hsource hbehind hbreak (by simp [Place.afterBreak])⟩
  | case6 place c cs hne hbreak hblank ih =>
    obtain ⟨htokens, hpairwise⟩ := @ih (before ++ [c]) (by simpa using hsource)
      (hbehind.append (by simp [Place.afterBlank]))
    refine ⟨fun token htoken => ?_, hpairwise⟩
    obtain ⟨hcut, hplace⟩ := htokens token htoken
    exact ⟨hcut, hplace.of_le (by simp [Place.afterBlank]) rfl⟩
  | case7 place c cs hne hbreak hblank next text =>
    rename_i ih
    have hpos : 0 < next.2 := lexeme_pos place.before place.fresh (c :: cs)
    have htext : text ≠ [] := by
      intro hnil
      rcases List.take_eq_nil_iff.mp hnil with hzero | hnil
      · omega
      · cases hnil
    have hsplit : source = before ++ (text ++ (c :: cs).drop next.2) := by
      rw [hsource, List.take_append_drop]
    obtain ⟨htokens, hpairwise⟩ := @ih (before ++ text)
      (by rw [hsplit, List.append_assoc]) (hbehind.append rfl)
    refine ⟨?_, List.pairwise_cons.mpr ⟨?_, hpairwise⟩⟩
    · intro token htoken
      rcases List.mem_cons.mp htoken with rfl | htoken
      · refine ⟨?_, Nat.le_refl _, fun hline => absurd rfl hline⟩
        rw [hsplit]
        exact Place.cut_token hbehind _ htext
      · obtain ⟨hcut, hplace⟩ := htokens token htoken
        exact ⟨hcut, hplace.of_le (by simp [Place.afterToken]) rfl⟩
    · -- the place behind the token is where it stops
      intro token htoken
      exact (htokens token htoken).2

/-- The tokens of a scan of one line end where the line ends. -/
theorem stop_le_of_mem_scan {cs : List Char} {place : Place} {token : Token}
    (h : token ∈ scan true place cs) :
    token.span.stop ≤ place.offset + byteLength (cs.takeWhile (!Text.isLineBreak ·)) := by
  generalize honeLine : true = oneLine at h
  fun_induction scan oneLine place cs with
  | case1 place => cases h
  | case2 place cs => cases h
  | case3 place cs hfalse ih => exact absurd honeLine.symm hfalse
  | case4 place c cs hne hbreak => cases h
  | case5 place c cs hne hbreak hfalse ih => exact absurd honeLine.symm hfalse
  | case6 place c cs hne hbreak hblank ih =>
    have := ih h
    simp only [Place.afterBlank] at this
    simp [hbreak]
    omega
  | case7 place c cs hne hbreak hblank next text =>
    rename_i ih
    have hunbroken : Unbroken text := unbroken_lexeme place.before place.fresh (by simpa using hbreak)
    have hall : ∀ c ∈ text, (!Text.isLineBreak c) = true := by
      intro c hc
      simp [hunbroken c hc]
    have hline : byteLength ((c :: cs).takeWhile (!Text.isLineBreak ·)) = byteLength text +
        byteLength (((c :: cs).drop next.2).takeWhile (!Text.isLineBreak ·)) := by
      rw [← Source.byteLength_append, ← List.takeWhile_append_of_pos hall, List.take_append_drop]
    rw [hline]
    rcases List.mem_cons.mp h with rfl | h
    · simp only [Place.token]
      omega
    · have := ih h
      simp only [Place.afterToken] at this
      omega

/-- The tokens of a source are pieces of it, one behind the other. -/
theorem tokenize_ordered (source : Source) :
    (∀ token ∈ tokenize source, Cut source token) ∧
      (tokenize source).Pairwise (Follows source) := by
  have hstart : ∃ before, source = before ++ (start source).2 ∧ (start source).1.Behind before := by
    fun_cases start source with
    | case1 => exact ⟨[], rfl, rfl⟩
    | case2 cs => exact ⟨[Source.byteOrderMark], rfl, rfl⟩
    | case3 c cs hne => exact ⟨[], rfl, rfl⟩
  obtain ⟨before, hsource, hbehind⟩ := hstart
  obtain ⟨htokens, hpairwise⟩ := scan_ordered false hsource hbehind
  exact ⟨fun token htoken => (htokens token htoken).1, hpairwise⟩

/-- The tokens from an offset to the end of its line lie there, one behind the other. -/
theorem tokenizeLine_ordered {source : Source} {offset : Nat} (h : IsBoundary source offset)
    (line column : Nat) :
    (∀ token ∈ tokenizeLine source offset line column, Cut source token ∧
      offset ≤ token.span.start ∧ token.span.stop ≤ Source.lineEnd source offset) ∧
      (tokenizeLine source offset line column).Pairwise (Follows source) := by
  obtain ⟨before, hsource, hoffset⟩ := h.dropBytes_append
  have hbehind : Place.Behind
      { offset, line, column, before := Source.charBefore source offset, fresh := false } before :=
    hoffset
  obtain ⟨htokens, hpairwise⟩ := scan_ordered true hsource hbehind
  refine ⟨fun token htoken => ?_, hpairwise⟩
  obtain ⟨hcut, hplace⟩ := htokens token htoken
  exact ⟨hcut, hplace.1, stop_le_of_mem_scan htoken⟩

end HotkeyScript.Token
