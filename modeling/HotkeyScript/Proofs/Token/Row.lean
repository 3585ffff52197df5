import HotkeyScript.Proofs.Text.Lines
import HotkeyScript.Proofs.Token.Append
import HotkeyScript.Proofs.Token.Lexed

/-!
# The tokens of a line

A line without its comment is a row: blanks, and then a token, as often as there are tokens, and
blanks at the end. So there is the text from the start of the first token to the end of the last
one, and the blanks in front of it and behind it, with the comment behind the blanks. A blank inside
of a token is part of a string, so on a line without strings a semicolon behind a blank starts the
comment.

## Main definitions

* `Token.Row` — the tokens of a part of a line that are no comments.
* `Token.Frame` — the text that the tokens of a row take up.
* `Token.rows` — the tokens of several lines.
-/

namespace HotkeyScript.Token

open Source (byteLength)
open Text (Tight Unbroken isBlank)

variable {place : Place} {line offset : Nat} {allowed : Bool} {text rest : List Char} {c : Char}
  {token first : Token} {more tokens : List Token}

/-! ## What is left behind the tokens -/

/-- There are only blanks, or blanks and a comment. -/
def Remains (text : List Char) : Prop :=
  ∀ c, (Text.trimStart text).head? = some c → c = ';'

instance : DecidablePred Remains := fun text =>
  decidable_of_iff ((Text.trimStart text).head?.all (· == ';') = true)
    (by simp [Remains, Option.all_eq_true])

theorem remains_nil : Remains [] := by
  intro c h
  cases h

theorem remains_cons_of_isBlank (hc : isBlank c = true) : Remains (c :: text) ↔ Remains text := by
  rw [Remains, Text.trimStart, List.dropWhile_cons_of_pos hc]
  rfl

theorem remains_of_head? (h : text.head? = some ';') : Remains text := by
  obtain ⟨more, rfl⟩ := List.head?_eq_some_iff.mp h
  intro c hc
  rw [Text.trimStart, List.dropWhile_cons_of_neg (by decide)] at hc
  cases hc
  rfl

theorem Remains.of_not_isBlank (h : Remains (c :: text)) (hc : isBlank c = false) : c = ';' := by
  refine h c ?_
  rw [Text.trimStart, List.dropWhile_cons_of_neg (by simp [hc]), List.head?_cons]

theorem Remains.isBlank (h : Remains text) (hsemicolon : ';' ∉ text) :
    ∀ c ∈ text, Text.isBlank c = true := by
  induction text with
  | nil => exact List.forall_mem_nil _
  | cons c text ih =>
    have hc : Text.isBlank c = true := by
      by_contra hc
      rw [h.of_not_isBlank (by simpa using hc)] at hsemicolon
      exact hsemicolon List.mem_cons_self
    exact List.forall_mem_cons.mpr ⟨hc, ih ((remains_cons_of_isBlank hc).mp h)
      fun hmem => hsemicolon (List.mem_cons_of_mem _ hmem)⟩

/-! ## Rows -/

/-- The tokens, from an offset on, of a part of a line that are no comments. A comment may start at
the offset if it is `allowed`. -/
inductive Row (line : Nat) : Bool → Nat → List Char → List Token → Prop where
  | rest {allowed : Bool} {offset : Nat} {text : List Char} (hremains : Remains text)
      (hhead : text.head? = some ';' → allowed = true) : Row line allowed offset text []
  | token {allowed : Bool} {offset : Nat} {lead text : List Char} {token : Token}
      {tokens : List Token} (hlead : ∀ c ∈ lead, isBlank c = true)
      (hline : token.span.line = line) (hstart : token.span.start = offset + byteLength lead)
      (hstop : token.span.stop = token.span.start + byteLength token.text.toList)
      (htight : Tight token.text.toList)
      (hstring : ∀ c ∈ token.text.toList, isBlank c = true → '"' ∈ token.text.toList)
      (hhead : token.text.toList.head? = some ';' → allowed = false ∧ lead = [])
      (hrow : Row line false token.span.stop text tokens) :
      Row line allowed offset (lead ++ (token.text.toList ++ text)) (token :: tokens)

/-- A blank in front belongs to no token, and a comment may start behind it. -/
theorem Row.blank (hc : isBlank c = true) (h : Row line true (offset + c.utf8Size) text tokens)
    (allowed : Bool) : Row line allowed offset (c :: text) tokens := by
  cases h with
  | rest hremains hhead =>
    refine .rest ((remains_cons_of_isBlank hc).mpr hremains) fun hsemicolon => ?_
    cases hsemicolon
    cases hc
  | @token _ _ lead text token tokens hlead hline hstart hstop htight hstring hhead hrow =>
    have hlead : ∀ d ∈ c :: lead, isBlank d = true := List.forall_mem_cons.mpr ⟨hc, hlead⟩
    refine .token hlead hline ?_ hstop htight hstring (fun hsemicolon => ?_) hrow
    · rw [hstart, Source.byteLength_cons]
      omega
    · cases (hhead hsemicolon).1

theorem Row.line_eq (h : Row line allowed offset text tokens) :
    ∀ token ∈ tokens, token.span.line = line := by
  induction h with
  | rest hremains hhead => exact List.forall_mem_nil _
  | token hlead hline hstart hstop htight hstring hhead hrow ih =>
    exact List.forall_mem_cons.mpr ⟨hline, ih⟩

theorem Row.remains (h : Row line allowed offset text []) : Remains text := by
  cases h with
  | rest hremains hhead => exact hremains

/-- A token that is no comment has no blanks at its ends, and blanks between them only if it is a
string. -/
theorem tight_lexeme {cs : List Char} (hblank : isBlank c = false)
    (hkind : (lexeme place.before place.fresh (c :: cs)).1 ≠ .comment) :
    Tight ((c :: cs).take (lexeme place.before place.fresh (c :: cs)).2) ∧
      ∀ d ∈ (c :: cs).take (lexeme place.before place.fresh (c :: cs)).2, isBlank d = true →
        '"' ∈ (c :: cs).take (lexeme place.before place.fresh (c :: cs)).2 := by
  have hkinded := wellKinded_lexeme place c cs
  have hpos := lexeme_pos place.before place.fresh (c :: cs)
  have hread : ∀ d ∈ (c :: cs).take (lexeme place.before place.fresh (c :: cs)).2,
      isBlank d = true → _ := fun d => kind_of_isBlank hblank
  generalize lexeme place.before place.fresh (c :: cs) = next at *
  have hstring : ∀ d ∈ (c :: cs).take next.2, isBlank d = true →
      ∃ inside, (c :: cs).take next.2 = '"' :: (inside ++ ['"']) := by
    intro d hd hblank
    have hkind := (hread d hd hblank).resolve_right hkind
    simpa [Place.token] using hkinded.string hkind
  obtain ⟨n, hn⟩ := Nat.exists_eq_succ_of_ne_zero (Nat.pos_iff_ne_zero.mp hpos)
  have hcons : (c :: cs).take next.2 = c :: cs.take n := by rw [hn, List.take_succ_cons]
  refine ⟨⟨⟨c, by rw [hcons]; rfl, hblank⟩, ?_⟩, fun d hd hblank => ?_⟩
  · have hne : (c :: cs).take next.2 ≠ [] := by simp [hcons]
    refine ⟨_, List.getLast?_eq_some_getLast hne, ?_⟩
    by_contra hlast
    obtain ⟨inside, hinside⟩ := hstring _ (List.getLast_mem hne) (by simpa using hlast)
    have hquote : ((c :: cs).take next.2).getLast? = some '"' := by
      rw [hinside, ← List.cons_append, List.getLast?_concat]
    rw [List.getLast?_eq_some_getLast hne, Option.some.injEq] at hquote
    rw [hquote] at hlast
    exact hlast (by decide)
  · obtain ⟨inside, hinside⟩ := hstring d hd hblank
    rw [hinside]
    exact List.mem_cons_self

/-- A semicolon where a comment may start is one. -/
theorem commentAllowed_of_semicolon {before : Option Char} {fresh : Bool} {cs : List Char}
    (hkind : (lexeme before fresh (';' :: cs)).1 ≠ .comment) :
    commentAllowed before fresh = false := by
  by_contra hallowed
  have hallowed : commentAllowed before fresh = true := by simpa using hallowed
  have hnumber : numberLength (';' :: cs) = 0 := numberLength_eq_zero (by decide) cs
  have hword : wordLength (';' :: cs) = 0 := rfl
  have hcomment : (commentLength (';' :: cs) != 0) = true := by simp [commentLength]
  simp [lexeme, hnumber, hword, hallowed, hcomment] at hkind

/-- The lexer reads a line as a row, and comments that are none of it. -/
theorem scan_row (place : Place) (htext : Unbroken text) :
    Row place.line (commentAllowed place.before place.fresh) place.offset text
      ((scan false place text).filter (·.kind != .comment)) := by
  generalize honeLine : false = oneLine
  fun_induction scan oneLine place text with
  | case1 place => exact .rest remains_nil fun h => by cases h
  | case2 place cs | case3 place cs => cases htext '\r' List.mem_cons_self
  | case4 place c cs hne hbreak | case5 place c cs hne hbreak =>
    cases hbreak.symm.trans (htext c List.mem_cons_self)
  | case6 place c cs hne hbreak hblank ih =>
    have hrow := ih (unbroken_cons.mp htext).2
    have hallowed : commentAllowed (place.afterBlank c).before (place.afterBlank c).fresh = true := by
      simp [commentAllowed, Place.afterBlank, hblank]
    rw [hallowed] at hrow
    exact hrow.blank hblank _
  | case7 place c cs hne hbreak hblank next text =>
    rename_i ih
    have hsplit : c :: cs = text ++ (c :: cs).drop next.2 := (List.take_append_drop _ _).symm
    by_cases hkind : next.1 = .comment
    · -- the comment takes the rest of the line
      obtain ⟨hallowed, hhead⟩ := of_lexeme_comment hkind
      have hlength : next.2 = (c :: cs).length := by
        cases hhead
        rw [length_of_lexeme_comment hkind, commentLength, runLength,
          List.takeWhile_eq_self_iff.mpr fun d hd => by simp [(unbroken_cons.mp htext).2 d hd],
          List.length_cons, Nat.add_comm]
      rw [List.filter_cons_of_neg (by simp [Place.token, hkind]), hlength, List.drop_length, scan,
        List.filter_nil]
      exact .rest (remains_of_head? hhead) fun _ => hallowed
    · obtain ⟨htight, hstring⟩ := tight_lexeme (by simpa using hblank) hkind
      have hrow := ih fun d hd => htext d (List.mem_of_mem_drop hd)
      have hallowed : commentAllowed (place.afterToken text).before
          (place.afterToken text).fresh = false := by
        obtain ⟨last, hlast, hnot⟩ := htight.last
        simp [commentAllowed, Place.afterToken, text, next, hlast, hnot]
      have htext : (place.token next.1 text).text.toList = text := String.toList_ofList
      have hhead : text.head? = some ';' → commentAllowed place.before place.fresh = false := by
        intro hhead
        have hc : (c :: cs).head? = some ';' := by rw [hsplit, List.head?_append, hhead]; rfl
        cases hc
        exact commentAllowed_of_semicolon hkind
      rw [hallowed] at hrow
      have hrow' : Row place.line _ place.offset _ (place.token next.1 text :: _) :=
        .token (show ∀ c ∈ [], isBlank c = true from List.forall_mem_nil _) rfl rfl
          (by rw [htext]; rfl)
          (by rw [htext]; exact htight) (by rw [htext]; exact hstring)
          (fun hsemicolon => ⟨hhead (by rwa [htext] at hsemicolon), rfl⟩) hrow
      rw [htext, List.nil_append, ← hsplit] at hrow'
      rwa [List.filter_cons_of_pos (by simpa [Place.token] using hkind)]

/-! ## Frames -/

/-- The tokens of a row, from the first to the last, take up the middle of the text. -/
structure Frame (allowed : Bool) (offset : Nat) (text : List Char) (first last : Token)
    (lead mid rest : List Char) : Prop where
  text_eq : text = lead ++ (mid ++ rest)
  blank : ∀ c ∈ lead, isBlank c = true
  tight : Tight mid
  remains : Remains rest
  start : first.span.start = offset + byteLength lead
  stop : last.span.stop = offset + byteLength lead + byteLength mid
  /-- The middle does not start with a comment. -/
  opens : mid.head? = some ';' → allowed = false ∧ lead = []
  /-- No comment starts inside of it. -/
  joined : '"' ∉ mid → (lead ++ mid).IsChain Section.Joins
  /-- What follows directly is no comment. -/
  closes : rest.head? ≠ some ';'

theorem isChain_joins_of_isBlank (h : ∀ c ∈ text, isBlank c = true) :
    text.IsChain Section.Joins := by
  refine (List.pairwise_of_forall_mem_list fun c _ d hd hsemicolon => ?_).isChain
  cases (h d hd).symm.trans (congrArg isBlank hsemicolon)

theorem isChain_joins_of_not_isBlank (h : ∀ c ∈ text, isBlank c = false) :
    text.IsChain Section.Joins := by
  refine (List.pairwise_of_forall_mem_list fun c hc d _ _ => ?_).isChain
  exact Text.isSpaceOrTab_of_not_isBlank (h c hc)

/-- Behind a text without a blank at its end no comment starts. -/
theorem isChain_joins_append (htext : text.IsChain Section.Joins) (hrest : rest.IsChain Section.Joins)
    (htight : Tight text) : (text ++ rest).IsChain Section.Joins := by
  refine List.isChain_append.mpr ⟨htext, hrest, fun c hc d _ _ => ?_⟩
  obtain ⟨last, hlast, hblank⟩ := htight.last
  cases hc.symm.trans hlast
  exact Text.isSpaceOrTab_of_not_isBlank hblank

theorem Row.exists_frame (h : Row line allowed offset text (first :: more)) :
    ∃ lead mid rest, Frame allowed offset text first (more.getLastD first) lead mid rest := by
  generalize htokens : first :: more = tokens at h
  induction h generalizing first more with
  | rest hremains hhead => cases htokens
  | @token allowed offset lead text token tokens hlead hline hstart hstop htight hstring hhead hrow
      ih =>
    cases htokens
    have hjoined : '"' ∉ token.text.toList → token.text.toList.IsChain Section.Joins := by
      intro hquote
      refine isChain_joins_of_not_isBlank fun c hc => ?_
      by_contra hblank
      exact hquote (hstring c hc (by simpa using hblank))
    have hfront : ∀ mid, mid.IsChain Section.Joins → mid.head? = token.text.toList.head? →
        (lead ++ mid).IsChain Section.Joins := by
      intro mid hmid hsame
      refine List.isChain_append.mpr
        ⟨isChain_joins_of_isBlank hlead, hmid, fun c hc d hd hsemicolon => ?_⟩
      have hd : token.text.toList.head? = some ';' := by rw [← hsame, ← hsemicolon]; exact hd
      rw [(hhead hd).2] at hc
      cases hc
    cases tokens with
    | nil =>
      cases hrow with
      | rest hremains hsemicolon =>
        refine ⟨lead, token.text.toList, text, rfl, hlead, htight, hremains, hstart, ?_, hhead,
          fun hquote => hfront _ (hjoined hquote) rfl, fun hclose => by cases hsemicolon hclose⟩
        rw [List.getLastD_nil, hstop, hstart]
    | cons next tokens =>
      obtain ⟨lead', mid, rest, hframe⟩ := ih rfl
      obtain ⟨d, hd, hblank⟩ := htight.head
      obtain ⟨last, hlast, hblank'⟩ := hframe.tight.last
      have hhead' : (token.text.toList ++ (lead' ++ mid)).head? = token.text.toList.head? := by
        rw [List.head?_append, hd]
        rfl
      refine ⟨lead, token.text.toList ++ (lead' ++ mid), rest, ?_, hlead,
        ⟨⟨d, hhead'.trans hd, hblank⟩, last, ?_, hblank'⟩, hframe.remains, hstart, ?_, ?_, ?_,
        hframe.closes⟩
      · simp [hframe.text_eq]
      · rw [List.getLast?_append, List.getLast?_append, hlast]
        rfl
      · rw [List.getLastD_cons, hframe.stop, hstop, hstart]
        simp only [Source.byteLength_append]
        omega
      · rwa [hhead']
      · intro hquote
        have hparts : '"' ∉ token.text.toList ∧ '"' ∉ mid := by
          simp only [List.mem_append, not_or] at hquote
          exact ⟨hquote.1, hquote.2.2⟩
        exact hfront _ (isChain_joins_append (hjoined hparts.1) (hframe.joined hparts.2) htight)
          hhead'

/-- Without blanks at its ends and without a comment, the whole text is taken up. -/
theorem Frame.eq_of_tight {offset : Nat} {last : Token} {lead mid rest : List Char}
    (h : Frame allowed offset text first last lead mid rest) (htight : Tight text)
    (hsemicolon : ';' ∉ text) : lead = [] ∧ mid = text ∧ rest = [] := by
  have hrest := h.remains.isBlank fun hmem => hsemicolon (by simp [h.text_eq, hmem])
  obtain ⟨c, hhead, hc⟩ := htight.head
  obtain ⟨d, hlast, hd⟩ := htight.last
  have hlead : lead = [] := by
    cases lead with
    | nil => rfl
    | cons b lead =>
      rw [h.text_eq] at hhead
      cases hhead
      cases (h.blank c List.mem_cons_self).symm.trans hc
  have hend : rest = [] := by
    cases hrest' : rest.getLast? with
    | none => exact List.getLast?_eq_none_iff.mp hrest'
    | some b =>
      rw [h.text_eq, List.getLast?_append, List.getLast?_append, hrest'] at hlast
      cases hlast
      cases (hrest d (List.mem_of_getLast? hrest')).symm.trans hd
  exact ⟨hlead, by simp [h.text_eq, hlead, hend], hend⟩

/-! ## Lines below each other -/

/-- A token is a part of the text, and there is no comment without a semicolon. -/
theorem subset_of_mem_scan {oneLine : Bool} (h : token ∈ scan oneLine place text) :
    token.text.toList ⊆ text ∧ (token.kind = .comment → ';' ∈ text) := by
  fun_induction scan oneLine place text with
  | case1 | case2 | case4 => cases h
  | case3 place cs honeLine ih =>
    obtain ⟨hsubset, hcomment⟩ := ih h
    exact ⟨fun d hd => by simp [hsubset hd], fun hkind => by simp [hcomment hkind]⟩
  | case5 place c cs hne hbreak honeLine ih | case6 place c cs hne hbreak hblank ih =>
    obtain ⟨hsubset, hcomment⟩ := ih h
    exact ⟨fun d hd => List.mem_cons_of_mem _ (hsubset hd),
      fun hkind => List.mem_cons_of_mem _ (hcomment hkind)⟩
  | case7 place c cs hne hbreak hblank next text =>
    rename_i ih
    rcases List.mem_cons.mp h with rfl | h
    · refine ⟨fun d hd => ?_, fun hkind => ?_⟩
      · rw [Place.token, String.toList_ofList] at hd
        exact List.mem_of_mem_take hd
      · exact List.mem_of_mem_head? (of_lexeme_comment hkind).2
    · obtain ⟨hsubset, hcomment⟩ := ih h
      exact ⟨fun d hd => List.mem_of_mem_drop (hsubset hd),
        fun hkind => List.mem_of_mem_drop (hcomment hkind)⟩

/-- The tokens of a part of a line are on its line, and a token that opens the line has the first
character of it that is not blank. -/
theorem of_mem_scan_line (htext : Unbroken text) (h : token ∈ scan false place text) :
    token.span.line = place.line ∧ (token.opensLine = true →
      place.fresh = true ∧ token.text.toList.head? = (Text.trimStart text).head?) := by
  generalize honeLine : false = oneLine at h
  fun_induction scan oneLine place text with
  | case1 place => cases h
  | case2 place cs | case3 place cs => cases htext '\r' List.mem_cons_self
  | case4 place c cs hne hbreak | case5 place c cs hne hbreak =>
    cases hbreak.symm.trans (htext c List.mem_cons_self)
  | case6 place c cs hne hbreak hblank ih =>
    rw [Text.trimStart, List.dropWhile_cons_of_pos hblank]
    exact ih (unbroken_cons.mp htext).2 h
  | case7 place c cs hne hbreak hblank next text =>
    rename_i ih
    rcases List.mem_cons.mp h with rfl | h
    · refine ⟨rfl, fun hfresh => ⟨hfresh, ?_⟩⟩
      obtain ⟨n, hn⟩ := Nat.exists_eq_succ_of_ne_zero
        (Nat.pos_iff_ne_zero.mp (lexeme_pos place.before place.fresh (c :: cs)))
      rw [Text.trimStart, List.dropWhile_cons_of_neg hblank]
      simp [Place.token, text, next, hn]
    · obtain ⟨hline, hopens⟩ := ih (fun d hd => htext d (List.mem_of_mem_drop hd)) h
      exact ⟨hline, fun hfresh => by cases (hopens hfresh).1⟩

/-- The place at the start of a line that has another one above it. -/
def Place.atLine (offset line : Nat) : Place :=
  { offset, line, before := some '\n' }

/-- The lexer reads a line below another one as a row that may start with a comment. -/
theorem scan_row_atLine (offset line : Nat) (htext : Unbroken text) :
    Row line true offset text
      ((scan false (.atLine offset line) text).filter (·.kind != .comment)) :=
  scan_row (.atLine offset line) htext

/-- The tokens of lines below each other, of which the first starts at the offset. -/
def rows (offset line : Nat) : List (List Char) → List Token
  | [] => []
  | text :: ls =>
    scan false (.atLine offset line) text ++ rows (offset + byteLength text + 1) (line + 1) ls

/-- The lexer goes on at the start of the next line. -/
theorem scan_append_break (place : Place) (htext : Unbroken text) (rest : List Char) :
    scan false place (text ++ '\n' :: rest) = scan false place text ++
      scan false (.atLine (place.offset + byteLength text + 1) (place.line + 1)) rest := by
  have hbreak : scan false (place.past text) ('\n' :: rest) =
      scan false ((place.past text).afterBreak 1 '\n') rest := by
    rw [scan, if_pos (by decide), if_neg Bool.false_ne_true]
    rintro _ ⟨⟩
  have hplace : (place.past text).afterBreak 1 '\n' =
      .atLine (place.offset + byteLength text + 1) (place.line + 1) := by
    simp [Place.past, Place.afterBreak, Place.atLine, Text.lineBreaks_eq_zero_iff.mpr htext]
  rw [scan_append place (stopsLine_cons rfl rest)
    fun hlast => absurd hlast (getLast?_ne_of_unbroken htext), hbreak, hplace]

theorem scan_unlines {ls : List (List Char)} (hls : ∀ text ∈ ls, Unbroken text) (offset line : Nat)
    (rest : List Char) :
    scan false (.atLine offset line) (Text.unlines ls ++ rest) = rows offset line ls ++
      scan false (.atLine (offset + byteLength (Text.unlines ls)) (line + ls.length)) rest := by
  induction ls generalizing offset line with
  | nil => rfl
  | cons text ls ih =>
    obtain ⟨htext, hls⟩ := List.forall_mem_cons.mp hls
    have hoffset : offset + byteLength text + 1 + byteLength (Text.unlines ls) =
        offset + byteLength (Text.unlines (text :: ls)) := by
      rw [Text.unlines_cons, Source.byteLength_append, Source.byteLength_cons,
        show '\n'.utf8Size = 1 from rfl]
      omega
    have hline : line + 1 + ls.length = line + (text :: ls).length := by
      rw [List.length_cons]
      omega
    rw [Text.unlines_cons, List.append_assoc, List.cons_append, scan_append_break _ htext, rows,
      List.append_assoc, ← Text.unlines_cons, ← hoffset, ← hline]
    exact congrArg _ (ih hls _ _)

theorem of_mem_rows {ls : List (List Char)} (hls : ∀ text ∈ ls, Unbroken text)
    (h : token ∈ rows offset line ls) : line ≤ token.span.line ∧ ∃ text ∈ ls,
      (token.opensLine = true → token.text.toList.head? = (Text.trimStart text).head?) ∧
      (token.kind = .comment → ';' ∈ text) := by
  induction ls generalizing offset line with
  | nil => cases h
  | cons text ls ih =>
    obtain ⟨htext, hls⟩ := List.forall_mem_cons.mp hls
    rcases List.mem_append.mp h with h | h
    · obtain ⟨hline, hopens⟩ := of_mem_scan_line htext h
      exact ⟨Nat.le_of_eq hline.symm, text, List.mem_cons_self, fun hopen => (hopens hopen).2,
        (subset_of_mem_scan h).2⟩
    · obtain ⟨hline, text', htext', hread⟩ := ih hls h
      exact ⟨Nat.le_of_succ_le hline, text', List.mem_cons_of_mem _ htext', hread⟩

end HotkeyScript.Token
