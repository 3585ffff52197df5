import HotkeyScript.Proofs.Token.Exact
import HotkeyScript.Proofs.Token.Kind
import HotkeyScript.Proofs.Token.Position

/-!
# Tokens as the lexer reads them

What the lexer reads at a place follows from the text behind the place, the character before it, and
whether a token stands before it on its line. So a line that is read anew, from an offset inside of
it, comes out the same from any offset on at which a token was read before. It may pass over the
start of a comment only inside a token with a blank, and that is a string or another comment.

## Main definitions

* `Token.Lexed` — a token is what the lexer reads at its start.
* `Token.Matches` — two tokens are equal, but for their columns.
* `Token.Encloses` — an offset lies inside a token.
* `Token.Swallows` — an offset lies inside a string or a comment.
-/

namespace HotkeyScript.Token

open Source (IsBoundary byteLength charBefore dropBytes mark)
open Text (Unbroken isBlank)

variable {source : Source} {token other : Token} {place : Place} {before : Option Char}
  {fresh : Bool} {c d : Char} {cs : List Char}

/-! ## Lexemes -/

theorem isWordChar_of_isHexDigit (h : isHexDigit c = true) : isWordChar c = true := by
  simp only [isHexDigit, Bool.or_eq_true, Bool.and_eq_true, decide_eq_true_eq] at h
  delta isWordChar Char.isAlphanum Char.isAlpha Char.isUpper Char.isLower
  simp only [Bool.or_eq_true, Bool.and_eq_true, decide_eq_true_eq]
  rcases h with (h | h) | h
  · exact .inl (.inr h)
  · exact .inl (.inl (.inr ⟨h.1, UInt32.le_trans h.2 (by decide)⟩))
  · exact .inl (.inl (.inl ⟨h.1, UInt32.le_trans h.2 (by decide)⟩))

/-- The characters of a run satisfy its predicate. -/
theorem of_mem_take_runLength {p : Char → Bool} (h : d ∈ cs.take (runLength p cs)) :
    p d = true := by
  rw [take_runLength] at h
  exact List.all_eq_true.mp List.all_takeWhile d h

theorem isWordChar_of_mem_hexLength (h : d ∈ cs.take (hexLength cs)) : isWordChar d = true := by
  unfold hexLength at h
  split at h
  · next x cs =>
    split at h
    · next hx =>
      rw [Nat.add_comm, List.take_succ_cons, List.take_succ_cons] at h
      simp only [Bool.and_eq_true, Bool.or_eq_true, beq_iff_eq] at hx
      rcases List.mem_cons.mp h with rfl | h
      · decide
      rcases List.mem_cons.mp h with rfl | h
      · rcases hx.1 with rfl | rfl <;> decide
      · exact isWordChar_of_isHexDigit (of_mem_take_runLength h)
    · simp at h
  · simp at h

theorem of_mem_fractionLength (h : d ∈ cs.take (fractionLength cs)) :
    isWordChar d = true ∨ d = '.' := by
  unfold fractionLength at h
  split at h
  · next cs =>
    split at h
    · simp at h
    · rw [Nat.add_comm, List.take_succ_cons] at h
      rcases List.mem_cons.mp h with rfl | h
      · exact .inr rfl
      · exact .inl (isWordChar_of_isDigit (of_mem_take_runLength h))
  · simp at h

/-- A number is made up of word characters and a point. -/
theorem of_mem_numberLength (h : d ∈ cs.take (numberLength cs)) :
    isWordChar d = true ∨ d = '.' := by
  simp only [numberLength, decimalLength] at h
  split at h
  · split at h
    · simp at h
    · rw [List.take_add] at h
      rcases List.mem_append.mp h with h | h
      · exact .inl (isWordChar_of_isDigit (of_mem_take_runLength h))
      · exact of_mem_fractionLength h
  · exact .inl (isWordChar_of_mem_hexLength h)

/-- What holds of all characters of the operators holds of those of an operator that is read. -/
theorem of_mem_operatorLength {p : Char → Bool}
    (hall : (operators.all fun op => op.toList.all p) = true)
    (h : d ∈ cs.take (operatorLength cs)) : p d = true := by
  unfold operatorLength at h
  split at h
  · next op hop =>
    have hmatch := List.find?_some hop
    obtain ⟨rest, rfl⟩ := List.isPrefixOf_iff_prefix.mp hmatch
    rw [show op.length = op.toList.length from rfl, List.take_left] at h
    have hop := List.all_eq_true.mp hall op (List.mem_of_find?_eq_some hop)
    exact List.all_eq_true.mp hop d h
  · simp at h

theorem isBlank_of_mem_operatorLength (h : d ∈ cs.take (operatorLength cs)) :
    isBlank d = false := by
  have hall : (operators.all fun op => op.toList.all fun c => !isBlank c) = true := by decide
  simpa using of_mem_operatorLength hall h

/-- Only strings and comments have blanks. -/
theorem kind_of_isBlank (hc : isBlank c = false)
    (hd : d ∈ (c :: cs).take (lexeme before fresh (c :: cs)).2) (hblank : isBlank d = true) :
    (lexeme before fresh (c :: cs)).1 = .string ∨ (lexeme before fresh (c :: cs)).1 = .comment := by
  have hword : isWordChar d = true ∨ d = '.' → isBlank d = false := by
    rintro (hd | rfl)
    · exact isBlank_of_isWordChar hd
    · decide
  unfold lexeme at hd ⊢
  split_ifs at hd ⊢ with hnumber hwordLength hcomment hoperator hstring
  · grind [of_mem_numberLength]
  · grind [of_mem_take_runLength, wordLength]
  · exact .inr rfl
  · grind [isBlank_of_mem_operatorLength]
  · exact .inl rfl
  · simp only [List.take_succ_cons, List.take_zero, List.mem_singleton] at hd
    grind

theorem wordKind_ne_comment (before : Option Char) (word : String) :
    wordKind before word ≠ .comment := by
  unfold wordKind
  split_ifs <;> decide

/-- A comment starts with a semicolon, at the start of a line or behind a blank. -/
theorem of_lexeme_comment (h : (lexeme before fresh cs).1 = .comment) :
    commentAllowed before fresh = true ∧ cs.head? = some ';' := by
  unfold lexeme at h
  split_ifs at h with hnumber hword hcomment hoperator hstring
  · exact absurd h (wordKind_ne_comment _ _)
  · simp only [Bool.and_eq_true, bne_iff_ne, ne_eq] at hcomment
    refine ⟨hcomment.1, ?_⟩
    have hlength := hcomment.2
    unfold commentLength at hlength
    split at hlength
    · rfl
    · exact absurd rfl hlength

/-- A comment is as long as the line behind its semicolon. -/
theorem length_of_lexeme_comment (h : (lexeme before fresh cs).1 = .comment) :
    (lexeme before fresh cs).2 = commentLength cs := by
  unfold lexeme at h ⊢
  split_ifs at h ⊢ with hnumber hword hcomment hoperator hstring
  · exact absurd h (wordKind_ne_comment _ _)
  · rfl

/-! ## Tokens -/

/-- The token is what the lexer reads at its start. -/
structure Lexed (source : Source) (token : Token) : Prop where
  lexeme : lexeme (charBefore source token.span.start) token.opensLine
    (dropBytes token.span.start source) = (token.kind, token.text.toList.length)
  text : token.text.toList <+: dropBytes token.span.start source
  first : ∃ c cs, token.text.toList = c :: cs ∧ isBlank c = false

theorem scan_lexed (oneLine : Bool) {before cs : List Char} (hsource : source = before ++ cs)
    (hbehind : place.Behind before) (hbefore : place.before = before.getLast?) :
    ∀ token ∈ scan oneLine place cs, Lexed source token := by
  fun_induction scan oneLine place cs generalizing before with
  | case1 | case2 | case4 => exact List.forall_mem_nil _
  | case3 place cs honeLine ih =>
    refine @ih (before ++ ['\r', '\n']) (by simpa using hsource) (hbehind.append rfl) ?_
    simp [Place.afterBreak]
  | case5 place c cs hne hbreak honeLine ih =>
    refine @ih (before ++ [c]) (by simpa using hsource) (hbehind.append ?_) ?_
    · simp [Place.afterBreak, Text.utf8Size_of_isLineBreak hbreak]
    · simp [Place.afterBreak]
  | case6 place c cs hne hbreak hblank ih =>
    refine @ih (before ++ [c]) (by simpa using hsource) (hbehind.append rfl) ?_
    simp [Place.afterBlank]
  | case7 place c cs hne hbreak hblank next text =>
    rename_i ih
    have hsplit : source = before ++ (text ++ (c :: cs).drop next.2) := by
      rw [hsource, List.take_append_drop]
    refine List.forall_mem_cons.mpr ⟨?_, @ih (before ++ text)
      (by rw [hsplit, List.append_assoc]) (hbehind.append rfl) ?_⟩
    · have hoffset : place.offset = byteLength before := hbehind
      have hdrop : dropBytes place.offset source = c :: cs := by
        rw [hoffset, hsource, Source.dropBytes_byteLength_append]
      have hchar : charBefore source place.offset = place.before := by
        rw [hbefore, charBefore, hoffset, hsource, Source.takeBytes_byteLength_append]
      have hlength : text.length = next.2 :=
        List.length_take_of_le (lexeme_le place.before place.fresh (List.cons_ne_nil c cs))
      have hpos : 0 < next.2 := lexeme_pos place.before place.fresh (c :: cs)
      refine ⟨?_, ?_, c, cs.take (next.2 - 1), ?_, by simpa using hblank⟩
      · simp only [Place.token, String.toList_ofList, hdrop, hchar, hlength]
        rfl
      · simp only [Place.token, String.toList_ofList, hdrop]
        exact List.take_prefix _ _
      · simp only [Place.token, String.toList_ofList]
        obtain ⟨n, hn⟩ := Nat.exists_eq_succ_of_ne_zero (Nat.pos_iff_ne_zero.mp hpos)
        simp [text, hn]
    · simp [Place.afterToken, hbefore, List.getLast?_append]

theorem tokenize_lexed (h : token ∈ tokenize source) : Lexed source token := by
  rcases start_cases source with ⟨-, hstart⟩ | ⟨cs, hsource, hstart⟩
  · have hbehind : Place.Behind {} [] := rfl
    rw [tokenize, hstart] at h
    exact scan_lexed false (List.nil_append source).symm hbehind rfl token h
  · have hbehind : Place.Behind
        { offset := Source.byteOrderMark.utf8Size, before := some Source.byteOrderMark }
        [Source.byteOrderMark] := rfl
    rw [tokenize, hstart] at h
    exact scan_lexed false hsource hbehind rfl token h

theorem opensLine_of_mem_tokenizeLine {offset line column : Nat}
    (h : token ∈ tokenizeLine source offset line column) : token.opensLine = false := by
  have hscan : ∀ {place : Place} {cs : List Char}, place.fresh = false →
      token ∈ scan true place cs → token.opensLine = false := by
    intro place cs hfresh h
    generalize honeLine : true = oneLine at h
    fun_induction scan oneLine place cs with
    | case1 | case2 | case4 => cases h
    | case3 place cs hfalse ih => exact absurd honeLine.symm hfalse
    | case5 place c cs hne hbreak hfalse ih => exact absurd honeLine.symm hfalse
    | case6 place c cs hne hbreak hblank ih => exact ih hfresh h
    | case7 place c cs hne hbreak hblank next text =>
      rename_i ih
      rcases List.mem_cons.mp h with rfl | h
      · exact hfresh
      · exact ih rfl h
  exact hscan rfl h

theorem tokenizeLine_lexed {offset line column : Nat} (hoffset : IsBoundary source offset)
    (h : token ∈ tokenizeLine source offset line column) : Lexed source token := by
  obtain ⟨before, hsource, hlength⟩ := hoffset.dropBytes_append
  have hbehind : Place.Behind
      { offset, line, column, before := charBefore source offset, fresh := false } before := hlength
  refine scan_lexed true hsource hbehind ?_ token h
  rw [charBefore, hlength, Source.takeBytes_of_append hsource]

/-- The text of a token is as much of the source as the lexer reads. -/
theorem Lexed.text_eq_take (h : Lexed source token) :
    token.text.toList = (dropBytes token.span.start source).take
      (Token.lexeme (charBefore source token.span.start) token.opensLine
        (dropBytes token.span.start source)).2 := by
  obtain ⟨after, hafter⟩ := h.text
  rw [h.lexeme, ← hafter, List.take_left]

/-- Behind the start of a token the source goes on with a character that is not blank. -/
theorem Lexed.dropBytes_eq_cons (h : Lexed source token) :
    ∃ c cs, dropBytes token.span.start source = c :: cs ∧ isBlank c = false := by
  obtain ⟨c, cs, htext, hc⟩ := h.first
  obtain ⟨after, hafter⟩ := h.text
  exact ⟨c, cs ++ after, by rw [← hafter, htext, List.cons_append], hc⟩

/-- A token with a blank is a string or a comment. -/
theorem Lexed.kind_of_isBlank (h : Lexed source token) (hd : d ∈ token.text.toList)
    (hblank : isBlank d = true) : token.kind = .string ∨ token.kind = .comment := by
  obtain ⟨c, cs, hcons, hc⟩ := h.dropBytes_eq_cons
  rw [h.text_eq_take, hcons] at hd
  have hkind := Token.kind_of_isBlank hc hd hblank
  rwa [← hcons, h.lexeme] at hkind

/-- A token of the lexer lies on one line. -/
theorem Lexed.unbroken (h : Lexed source token) : Unbroken token.text.toList := by
  obtain ⟨c, cs, hcons, hc⟩ := h.dropBytes_eq_cons
  have hbreak : Text.isLineBreak c = false := by
    rw [Bool.eq_false_iff]
    intro hbreak
    exact absurd (hc.symm.trans (Text.isBlank_of_isLineBreak hbreak)) Bool.false_ne_true
  rw [h.text_eq_take, hcons]
  exact unbroken_lexeme _ _ hbreak

/-- A comment starts with a semicolon, at the start of its line or behind a blank. -/
theorem Lexed.of_comment (h : Lexed source token) (hkind : token.kind = .comment) :
    commentAllowed (charBefore source token.span.start) token.opensLine = true ∧
      token.text.toList.head? = some ';' := by
  have hlexeme := congrArg Prod.fst h.lexeme
  simp only [hkind] at hlexeme
  obtain ⟨hallowed, hhead⟩ := of_lexeme_comment hlexeme
  refine ⟨hallowed, ?_⟩
  obtain ⟨c, cs, htext, -⟩ := h.first
  obtain ⟨after, hafter⟩ := h.text
  rw [htext]
  rwa [← hafter, htext] at hhead

/-- A comment reaches to the end of its line. -/
theorem Lexed.text_of_comment (h : Lexed source token) (hkind : token.kind = .comment) :
    token.text.toList = Source.lineAfter source token.span.start := by
  have hlexeme := h.lexeme
  rw [hkind] at hlexeme
  have hhead := (of_lexeme_comment (congrArg Prod.fst hlexeme)).2
  have hlength := length_of_lexeme_comment (congrArg Prod.fst hlexeme)
  rw [h.text_eq_take, hlength, Source.lineAfter]
  obtain ⟨cs, hcs⟩ := List.head?_eq_some_iff.mp hhead
  rw [hcs, commentLength, Nat.add_comm, List.take_succ_cons, take_runLength,
    List.takeWhile_cons_of_pos (by decide)]

/-- Behind a comment other tokens come on later lines only. -/
theorem Lexed.break_behind_comment (h : Lexed source token) (hcut : Cut source token)
    (hkind : token.kind = .comment) (hother : Lexed source other) (hcut' : Cut source other)
    (hle : token.span.stop ≤ other.span.start) :
    Source.BreakBetween source token.span.stop other.span.start := by
  have hstop : token.span.stop = Source.lineEnd source token.span.start := by
    rw [hcut.stop_eq, h.text_of_comment hkind, Source.lineEnd]
  obtain ⟨before, hsource, hbefore⟩ := hcut.stop.dropBytes_append
  obtain ⟨c, cs, hcons, hc⟩ := hother.dropBytes_eq_cons
  have hbreak := List.head?_dropWhile_not (!Text.isLineBreak ·) (dropBytes token.span.start source)
  rw [← hcut.start.dropBytes_lineEnd, ← hstop] at hbreak
  cases hdrop : dropBytes token.span.stop source with
  | nil =>
    -- the other token stands inside the source
    have hsize := hcut'.stop.le_byteLength
    have hlt := hcut'.lt
    rw [hsource, hdrop, List.append_nil] at hsize
    omega
  | cons break_ after =>
    rw [hdrop] at hbreak hsource
    have hbreak : Text.isLineBreak break_ = true := by simpa using hbreak
    refine ⟨before, break_, after, hsource, hbreak, by omega, ?_⟩
    rcases Nat.eq_or_lt_of_le hle with heq | hlt
    · rw [heq, hcons] at hdrop
      obtain ⟨rfl, -⟩ := List.cons.inj hdrop
      cases hc.symm.trans (Text.isBlank_of_isLineBreak hbreak)
    · omega

/-- A slash or a parenthesis is no comment. -/
theorem Lexed.kind_ne_comment (h : Lexed source token)
    (htext : token.text = "/" ∨ token.text = ")") : token.kind ≠ .comment := by
  intro hkind
  have hhead := (h.of_comment hkind).2
  rcases htext with htext | htext <;> (rw [htext] at hhead; cases hhead)

/-! ## Lines read anew -/

/-- The tokens are equal, but for their columns. -/
def Matches (token other : Token) : Prop :=
  other = { token with span := { token.span with column := other.span.column } }

/-- The offset lies inside the token. -/
def Encloses (token : Token) (offset : Nat) : Prop :=
  token.span.start < offset ∧ offset < token.span.stop

/-- The token is a string or a comment, and the offset lies inside of it. -/
def Swallows (token : Token) (offset : Nat) : Prop :=
  (token.kind = .string ∨ token.kind = .comment) ∧ token.Encloses offset

instance (token other : Token) : Decidable (token.Matches other) :=
  inferInstanceAs (Decidable (_ = _))

instance (token : Token) (offset : Nat) : Decidable (token.Encloses offset) :=
  inferInstanceAs (Decidable (_ ∧ _))

instance (token : Token) (offset : Nat) : Decidable (token.Swallows offset) :=
  inferInstanceAs (Decidable (_ ∧ _))

theorem Matches.refl (token : Token) : token.Matches token := rfl

theorem Matches.kind_eq (h : token.Matches other) : other.kind = token.kind := by
  rw [show other = _ from h]

theorem Matches.start_eq (h : token.Matches other) : other.span.start = token.span.start := by
  rw [show other = _ from h]

/-- Two tokens that are read at one place match. -/
theorem Lexed.matches (h : Lexed source token) (h' : Lexed source other)
    (hcut : Cut source token) (hcut' : Cut source other)
    (hstart : other.span.start = token.span.start) (hline : other.span.line = token.span.line)
    (hopens : other.opensLine = token.opensLine) : token.Matches other := by
  have hlexeme := h'.lexeme
  rw [hstart, hopens, h.lexeme] at hlexeme
  obtain ⟨hkind, hlength⟩ := Prod.mk.inj hlexeme
  have htext : other.text = token.text := by
    have hprefix := h'.text
    rw [hstart] at hprefix
    exact String.toList_injective
      ((List.prefix_of_prefix_length_le hprefix h.text hlength.ge).eq_of_length hlength.symm)
  have hstop : other.span.stop = token.span.stop := by
    rw [hcut.stop_eq, hcut'.stop_eq, hstart, htext]
  obtain ⟨kind, text, ⟨start, stop, line, column⟩, opensLine⟩ := other
  simp_all [Matches]

/-- Lines are counted on from one token to the next. -/
theorem Located.line_eq (h : Located source token) (h' : Located source other)
    (hcut : Cut source token) (hcut' : Cut source other)
    (hle : token.span.start ≤ other.span.start) :
    other.span.line = token.span.line +
      Text.lineBreaks (Source.slice source token.span.start other.span.start) := by
  obtain ⟨before, text, after, hsource, hbefore, hlength, hslice⟩ :=
    hcut.start.split hcut'.start hle
  have hdrop : dropBytes token.span.start source = text ++ after := by
    rw [hbefore, hsource, Source.dropBytes_byteLength_append]
  have hhead : text.head? ≠ some '\n' := by
    intro hhead
    obtain ⟨rest, rfl⟩ := List.head?_eq_some_iff.mp hhead
    have hboth := hcut.dropBytes_start.symm.trans hdrop
    cases htext : token.text.toList with
    | nil =>
      have hlt := hcut.lt
      rw [hcut.stop_eq, htext] at hlt
      exact absurd hlt (Nat.lt_irrefl _)
    | cons c cs =>
      rw [htext] at hboth
      obtain ⟨rfl, -⟩ := List.cons.inj hboth
      have hbreak := h.unbroken _ (by rw [htext]; exact List.mem_cons_self)
      cases hbreak
  rw [← hbefore] at hlength
  have hposition := Source.position_add hcut.start h.behind hdrop hhead
  rw [← hlength, ← h'.position, ← h.position, Text.advance_eq] at hposition
  rw [hslice]
  exact congrArg Prod.fst hposition

/-- An offset inside a token is on the line of the token. -/
theorem Located.line_of_le {offset : Nat} (h : Located source token) (hcut : Cut source token)
    (hoffset : IsBoundary source offset) (hle : token.span.start ≤ offset)
    (hle' : offset ≤ token.span.stop) : (Source.position source offset).1 = token.span.line := by
  obtain ⟨before, text, after, hsource, hbefore, hlength, hslice⟩ := hcut.start.split hoffset hle
  have hdrop : dropBytes token.span.start source = text ++ after := by
    rw [hbefore, hsource, Source.dropBytes_byteLength_append]
  have htext : text <+: token.text.toList := by
    have hboth := hdrop.symm.trans hcut.dropBytes_start
    have hstop_eq := hcut.stop_eq
    obtain ⟨more, hmore, -⟩ := Source.exists_append_of_byteLength_le hboth (by omega)
    exact ⟨more, hmore.symm⟩
  have hunbroken : Unbroken text := fun c hc => h.unbroken c (htext.subset hc)
  have hposition := Source.position_add_of_unbroken hcut.start h.behind hdrop hunbroken
  rw [← hbefore] at hlength
  rw [hlength, hposition, ← h.position]

/-- The tokens of a line have all characters of the line that are not blank. -/
theorem scan_covers_line (place : Place) (cs : List Char) :
    place.Covers (cs.takeWhile (!Text.isLineBreak ·)) (scan true place cs) := by
  generalize honeLine : true = oneLine
  fun_induction scan oneLine place cs with
  | case1 place => exact place.covers_nil []
  | case2 place cs => exact place.covers_nil []
  | case3 place cs hfalse ih => exact absurd honeLine.symm hfalse
  | case4 place c cs hne hbreak =>
    rw [List.takeWhile_cons_of_neg (by simp [hbreak])]
    exact place.covers_nil []
  | case5 place c cs hne hbreak hfalse ih => exact absurd honeLine.symm hfalse
  | case6 place c cs hne hbreak hblank ih =>
    have hblank : place.Covers [c] [] := place.covers_of_isBlank [] (by simpa using hblank)
    rw [List.takeWhile_cons_of_pos (by simpa using hbreak)]
    exact hblank.append ih rfl
  | case7 place c cs hne hbreak hblank next text =>
    rename_i ih
    have hunbroken : Unbroken text := unbroken_lexeme _ _ (by simpa using hbreak)
    have hline : (c :: cs).takeWhile (!Text.isLineBreak ·) =
        text ++ ((c :: cs).drop next.2).takeWhile (!Text.isLineBreak ·) := by
      rw [← List.takeWhile_append_of_pos (by simpa [Unbroken] using hunbroken),
        List.take_append_drop]
    rw [hline]
    exact (place.covers_token next.1 text).append ih rfl

/-- A line that is read anew from an offset before a comment has a token with the semicolon. Either
it is the comment, or the comment starts inside a string or inside another comment. -/
theorem exists_mem_tokenizeLine {offset line : Nat} (column : Nat)
    (hoffset : IsBoundary source offset) (h : Lexed source token) (hcut : Cut source token)
    (hline : token.span.line = line) (hkind : token.kind = .comment)
    (hopens : token.opensLine = false)
    (hle : offset ≤ token.span.start)
    (hunbroken : Unbroken (Source.slice source offset token.span.start)) :
    ∃ other ∈ tokenizeLine source offset line column,
      token.Matches other ∨ other.Swallows token.span.start := by
  obtain ⟨hallowed, hhead⟩ := h.of_comment hkind
  obtain ⟨rest, htext⟩ := List.head?_eq_some_iff.mp hhead
  obtain ⟨before, text, after, hsource, hbefore, hstart, hslice⟩ := hoffset.split hcut.start hle
  rw [hslice] at hunbroken
  obtain ⟨more, rfl⟩ : ∃ more, after = ';' :: more := by
    have hdrop := hcut.dropBytes_start
    rw [htext, hstart, ← Source.byteLength_append, hsource, ← List.append_assoc,
      Source.dropBytes_byteLength_append] at hdrop
    exact ⟨_, hdrop⟩
  -- the semicolon is on the line that is read anew, and it is not blank
  have htail : (dropBytes offset source).takeWhile (!Text.isLineBreak ·) =
      text ++ ';' :: more.takeWhile (!Text.isLineBreak ·) := by
    rw [hbefore, hsource, Source.dropBytes_byteLength_append,
      List.takeWhile_append_of_pos (by simpa [Unbroken] using hunbroken),
      List.takeWhile_cons_of_pos (by decide)]
  obtain hblank | ⟨other, hother, hspans⟩ := scan_covers_line
    { offset, line, column, before := charBefore source offset, fresh := false }
    (dropBytes offset source) text ';' _ htail
  · exact absurd hblank (by decide)
  have hspan : other.Spans token.span.start := by rwa [hstart, ← hbefore]
  obtain ⟨hcut', -, -⟩ := (tokenizeLine_ordered hoffset line column).1 other hother
  have hlexed' := tokenizeLine_lexed hoffset hother
  refine ⟨other, hother, ?_⟩
  rcases Nat.lt_or_eq_of_le hspan.1 with hlt | heq
  · -- the character before the semicolon is a blank of the other token
    refine .inr ⟨?_, hlt, hspan.2⟩
    obtain ⟨before', text', after', hsource', hbefore', hstart', hslice'⟩ :=
      hcut'.start.split hcut.start hspan.1
    have hdrop : dropBytes other.span.start source = text' ++ after' := by
      rw [hbefore', hsource', Source.dropBytes_byteLength_append]
    obtain ⟨more, hmore, -⟩ := Source.exists_append_of_byteLength_le
      (hdrop.symm.trans hcut'.dropBytes_start) (by have := hcut'.stop_eq; have := hspan.2; omega)
    have hne : text' ≠ [] := by
      rintro rfl
      simp only [Source.byteLength_nil] at hstart'
      omega
    have hlast : charBefore source token.span.start = text'.getLast? := by
      rw [charBefore, hstart', ← Source.byteLength_append, hsource', ← List.append_assoc,
        Source.takeBytes_byteLength_append, List.getLast?_append,
        List.getLast?_eq_some_getLast hne, Option.some_or]
    rw [commentAllowed, hopens, Bool.false_or, hlast, List.getLast?_eq_some_getLast hne] at hallowed
    refine hlexed'.kind_of_isBlank (d := text'.getLast hne) ?_ hallowed
    rw [hmore]
    exact List.mem_append_left _ (List.getLast_mem hne)
  · refine .inl (h.matches hlexed' hcut hcut' heq ?_ ?_)
    · rw [hline]
      exact line_of_mem_scan hother
    · rw [hopens, opensLine_of_mem_tokenizeLine hother]

/-- The same for a comment of the source and an offset behind the start of a token on its line. -/
theorem exists_mem_tokenizeLine_of_line {last : Token} {offset : Nat} (column : Nat)
    (hoffset : IsBoundary source offset) (hlast : last ∈ tokenize source)
    (h : token ∈ tokenize source) (hkind : token.kind = .comment)
    (hline : token.span.line = last.span.line) (hlt : last.span.start < offset)
    (hle : offset ≤ token.span.start) :
    ∃ other ∈ tokenizeLine source offset last.span.line column,
      token.Matches other ∨ other.Swallows token.span.start := by
  have hcut := (tokenize_ordered source).1 token h
  have hcut' := (tokenize_ordered source).1 last hlast
  have hopens : token.opensLine = false := by
    rw [Bool.eq_false_iff]
    intro hopens
    have := ((scan_opensLine _ _ token h).mp hopens).2 last hlast hline.symm
    omega
  refine exists_mem_tokenizeLine column hoffset (tokenize_lexed h) hcut hline hkind hopens hle ?_
  have hbreaks := (tokenize_located hlast).line_eq (tokenize_located h) hcut' hcut (by omega)
  have hunbroken := Text.lineBreaks_eq_zero_iff.mp (show Text.lineBreaks
    (Source.slice source last.span.start token.span.start) = 0 by omega)
  rw [← Source.slice_append_slice hcut'.start hoffset hcut.start (by omega) hle] at hunbroken
  exact (unbroken_append.mp hunbroken).2

end HotkeyScript.Token
