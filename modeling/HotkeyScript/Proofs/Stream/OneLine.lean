import HotkeyScript.Proofs.Stream.ReadAnew
import HotkeyScript.Proofs.Stream.Spaced
import HotkeyScript.Proofs.Stream.Stacked

/-!
# Sources of one line

The pass has little to do on a source without a line break. A block comment can start it, and behind
it, or from the start, the tokens are read one after the other, with the line comment at the end
kept apart. No section fits on one line. So the first token of the stream starts a line and all
others carry it on; and a block comment that is left open takes everything with it.

## Main definitions

* `Stream.Behind` — the tokens of one line behind an offset.
-/

namespace HotkeyScript.Stream

open Source (IsBoundary byteLength)
open Text (lineBreaks)
open Token (Cut tokenize tokenizeLine)

variable {source : Source} {token first : Token} {tokens rest : List Token} {draft : Draft}

/-! ## Tokens of one line -/

/-- Tokens of one line behind an offset: those of the lexer, whose comments are kept apart, or those
of a line that is read anew. -/
structure Behind (source : Source) (offset : Nat) (apart : Bool) (tokens : List Token) : Prop where
  cut : ∀ token ∈ tokens, Cut source token
  line : ∀ token ∈ tokens, token.span.line = 0
  start : ∀ token ∈ tokens, offset ≤ token.span.start
  lexed : apart = true → tokens ⊆ tokenize source

section Tokens

variable (h : lineBreaks source = 0)
include h

theorem line_of_mem_tokenize (htoken : token ∈ tokenize source) : token.span.line = 0 := by
  have := Token.line_le_of_mem_tokenize htoken
  omega

/-- Only the first token opens the line. -/
theorem opensLine_of_mem_tail (htokens : tokenize source = first :: rest) (htoken : token ∈ rest) :
    token.opensLine = false := by
  have hfirst : first ∈ tokenize source := by rw [htokens]; exact List.mem_cons_self
  have hmem : token ∈ tokenize source := by rw [htokens]; exact List.mem_cons_of_mem _ htoken
  obtain ⟨hcut, hordered⟩ := Token.tokenize_ordered source
  rw [htokens] at hordered
  have hfollows := (List.pairwise_cons.mp hordered).1 token htoken
  have hlt := (hcut first hfirst).lt
  have hle := hfollows.1
  rw [Bool.eq_false_iff]
  intro hopens
  have hline : first.span.line = token.span.line := by
    rw [line_of_mem_tokenize h hfirst, line_of_mem_tokenize h hmem]
  have := ((Token.scan_opensLine _ _ token hmem).mp hopens).2 first hfirst hline
  omega

/-! ## The pass over one line -/

/-- A block comment at the start leaves tokens of the lexer, or those of the line that is read anew
if it ends inside a token. -/
theorem exists_behind_blockComment (htokens : tokenize source = first :: rest)
    (hopens : opensBlockComment first rest = true) :
    ∃ apart tokens, Behind source (commentEnd source first.span.start) apart tokens ∧
      (Draft.blockComment source {} first rest).2.foldl (Draft.sort true none)
          (Draft.blockComment source {} first rest).1 =
        tokens.foldl (Draft.sort apart none) (Draft.comment {} (blockToken source first)) := by
  have hline : ∀ token ∈ first :: rest, token.span.line = 0 :=
    fun token htoken => line_of_mem_tokenize h (htokens ▸ htoken)
  have hpending := pending_tokenize source
  rw [htokens] at hpending
  have hafter := hpending.behindComment
  have hsub := List.dropWhile_sublist (l := rest)
    (·.span.start < commentEnd source first.span.start)
  simp only [Draft.blockComment]
  generalize rest.dropWhile (·.span.start < commentEnd source first.span.start) = after at *
  have hlast : (rest.takeWhile (·.span.start < commentEnd source first.span.start)).getLastD first ∈
      first :: rest :=
    List.cons_subset_cons first (List.takeWhile_sublist _).subset List.getLastD_mem_cons
  generalize (rest.takeWhile (·.span.start < commentEnd source first.span.start)).getLastD first =
    last at *
  split
  · -- no token is left behind the line
    have hnil : after.dropWhile (·.span.line == last.span.line) = [] := by
      refine List.dropWhile_eq_nil_iff.mpr fun token htoken => ?_
      simp [hline token (List.mem_cons_of_mem _ (hsub.subset htoken)), hline last hlast]
    obtain ⟨hboundary, -, -⟩ := slice_commentEnd hpending hopens
    have hanew := (Token.tokenizeLine_ordered hboundary last.span.line
      (Source.lineBefore source (commentEnd source first.span.start)).length).1
    rw [hnil, List.foldl_nil]
    refine ⟨false, _, ⟨fun token htoken => (hanew token htoken).1, fun token htoken => ?_,
      fun token htoken => (hanew token htoken).2.1, fun hfalse => by cases hfalse⟩, rfl⟩
    exact (Token.line_of_mem_scan htoken).trans (hline last hlast)
  · refine ⟨true, after, ⟨fun token htoken => (hafter.1 token htoken).1, fun token htoken => ?_,
      fun token htoken => (hafter.1 token htoken).2, fun _ token htoken => ?_⟩, rfl⟩
    · exact hline token (List.mem_cons_of_mem _ (hsub.subset htoken))
    · rw [htokens]
      exact List.mem_cons_of_mem _ (hsub.subset htoken)

/-- The pass sorts the tokens, or it starts with a block comment and sorts what is behind it. -/
theorem read_of_oneLine :
    Draft.read source {} (tokenize source) =
        (tokenize source).foldl (Draft.sort true none) {} ∨
      ∃ slash rest apart tokens, tokenize source = slash :: rest ∧
        opensBlockComment slash rest = true ∧
        Behind source (commentEnd source slash.span.start) apart tokens ∧
        Draft.read source {} (tokenize source) =
          tokens.foldl (Draft.sort apart none) (Draft.comment {} (blockToken source slash)) := by
  cases htokens : tokenize source with
  | nil => exact .inl (by rw [Draft.read, List.foldl_nil])
  | cons first rest =>
    have hread : Draft.read source {} (first :: rest) =
        (Draft.next source {} first rest).2.foldl (Draft.sort true none)
          (Draft.next source {} first rest).1 := by
      rw [Draft.read_cons]
      exact read_of_not_opensLine fun token htoken => opensLine_of_mem_tail h htokens
        ((({} : Draft).next_sublist source first rest).subset htoken)
    rw [hread]
    unfold Draft.next
    split
    · next hblock =>
      have hopens := (Bool.and_eq_true_iff.mp hblock).2
      obtain ⟨apart, tokens, hbehind, hfold⟩ := exists_behind_blockComment h htokens hopens
      exact .inr ⟨first, rest, apart, tokens, rfl, hopens, hbehind, hfold⟩
    split
    · next hkind => exact .inl (by simp [Draft.sort, hkind])
    · next hkind =>
      have hline : ∀ token ∈ first :: rest, token.span.line = 0 :=
        fun token htoken => line_of_mem_tokenize h (htokens ▸ htoken)
      have hsection : Draft.continuation? source {} first rest = none := by
        refine continuation?_eq_none fun token htoken => ?_
        rw [hline token (List.mem_cons_of_mem _ htoken), hline first List.mem_cons_self]
      exact .inl (by simp [hsection, Draft.sort, hkind])

omit h in
/-- A block comment starts with a slash. -/
theorem opensBlockComment_of_ne (hne : first.text ≠ "/") (rest : List Token) :
    opensBlockComment first rest = false := by
  cases rest with
  | nil => rfl
  | cons next rest => simp [opensBlockComment, hne]

section NoBlockComment

variable (hslash : ∀ first rest, tokenize source = first :: rest →
  opensBlockComment first rest = false)
include hslash

/-- The pass sorts all tokens of a line that starts with no block comment. -/
theorem read_of_not_slash : Draft.read source {} (tokenize source) =
    (tokenize source).foldl (Draft.sort true none) {} := by
  rcases read_of_oneLine h with hread | ⟨slash, rest, _, _, htokens, hopens, -⟩
  · exact hread
  · cases (hslash slash rest htokens).symm.trans hopens

/-- The tokens of the stream are those of the lexer, without the comments. -/
theorem token?_of_oneLine (i : Nat) :
    (ofSource source).token? i = ((tokenize source).filter (·.kind != .comment))[i]? := by
  obtain ⟨newer, hitems, hnewer, -⟩ := @items_foldl_sort true none (tokenize source) {}
  have hkept : (tokenize source).filter (fun token => !(token.kind = .comment && true)) =
      (tokenize source).filter (·.kind != .comment) :=
    List.filter_congr fun token _ => by rw [Bool.and_true]; rfl
  rw [token?_ofSource, read_of_not_slash h hslash, hitems, List.append_nil, hnewer,
    List.reverse_reverse, hkept]

end NoBlockComment

/-! ## The items of one line -/

omit h in
/-- Tokens of one line are sorted into items of which only the first starts a line. -/
theorem startsLine_foldl_sort (apart : Bool) (hline : ∀ token ∈ tokens, token.span.line = 0)
    (hlast : draft.items ≠ [] → draft.lastLine = some 0)
    (hitems : ∀ item ∈ draft.items.dropLast, item.startsLine = false) :
    ∀ item ∈ (tokens.foldl (Draft.sort apart none) draft).items.dropLast,
      item.startsLine = false := by
  induction tokens generalizing draft with
  | nil => exact hitems
  | cons token tokens ih =>
    have htoken := hline token List.mem_cons_self
    rw [List.foldl_cons]
    refine ih (fun other hother => hline other (List.mem_cons_of_mem _ hother)) ?_ ?_
    · unfold Draft.sort
      split
      · exact hlast
      · exact fun _ => congrArg some htoken
    · unfold Draft.sort
      split
      · exact hitems
      · by_cases hnil : draft.items = []
        · simp [Draft.emit, hnil]
        · rw [Draft.emit, List.dropLast_cons_of_ne_nil hnil, List.forall_mem_cons]
          exact ⟨by simp [hlast hnil, htoken], hitems⟩

/-- All tokens of one line but the first carry the line on. -/
theorem startsLine_of_oneLine {i : Nat} (hpos : 0 < i) (hlt : i < (ofSource source).size) :
    (ofSource source).startsLine i = false := by
  have hitems : ∀ item ∈ (Draft.read source {} (tokenize source)).items.dropLast,
      item.startsLine = false := by
    rcases read_of_oneLine h with hread | ⟨slash, rest, apart, tokens, -, -, hbehind, hread⟩
    · rw [hread]
      exact startsLine_foldl_sort true (fun token htoken => line_of_mem_tokenize h htoken)
        (fun hne => absurd rfl hne) (List.forall_mem_nil _)
    · rw [hread]
      exact startsLine_foldl_sort apart hbehind.line (fun hne => absurd rfl hne)
        (List.forall_mem_nil _)
  obtain ⟨i, rfl⟩ := Nat.exists_eq_succ_of_ne_zero (Nat.pos_iff_ne_zero.mp hpos)
  obtain ⟨item, hitem⟩ : ∃ item, (ofSource source).items[i + 1]? = some item :=
    ⟨_, Array.getElem?_eq_getElem hlt⟩
  rw [startsLine, hitem]
  refine hitems item ?_
  rw [← List.mem_reverse, ← List.tail_reverse]
  refine List.mem_of_getElem? (i := i) ?_
  rw [List.getElem?_tail]
  simpa [ofSource, Draft.toStream] using hitem

theorem continues_of_oneLine {i : Nat} (hpos : 0 < i) (hlt : i < (ofSource source).size) :
    (ofSource source).continues i = true :=
  continues_of_not_startsLine (startsLine_of_oneLine h hpos hlt)

/-- A double colon anywhere on the line is ahead of its first token. -/
theorem doubleColonAhead_of_oneLine {colons : Nat}
    (hcolons : (ofSource source).isDoubleColon colons = true) :
    (ofSource source).doubleColonAhead 0 0 = true := by
  have honLine : ∀ i, i < (ofSource source).size → (ofSource source).onLine 0 i = true := by
    intro i hi
    obtain ⟨token, htoken⟩ := exists_token_of_lt hi
    have := (ofSource_placed htoken).line
    simp only [Stream.onLine, htoken, Option.any_some, beq_iff_eq]
    omega
  have hsize := add_one_lt_size_of_isDoubleColon hcolons
  simp only [doubleColonAhead]
  generalize hstop : (ofSource source).skip (fun i =>
    (ofSource source).onLine 0 i && !(ofSource source).isDoubleColon i) 0 = stop
  have hle : stop ≤ colons := by
    refine Nat.le_of_not_lt fun hlt => ?_
    rw [← hstop] at hlt
    have hholds := (ofSource source).holds_of_lt_skip (Nat.zero_le colons) hlt
    simp [hcolons] at hholds
  have hfails := (ofSource source).fails_at_skip (show (ofSource source).skip (fun i =>
    (ofSource source).onLine 0 i && !(ofSource source).isDoubleColon i) 0 <
      (ofSource source).size by omega)
  rw [hstop, honLine stop (by omega)] at hfails
  rw [honLine stop (by omega)]
  simpa using hfails

/-! ## Comments -/

omit h in
/-- A block comment has its end, or it goes to the end of the text. -/
theorem commentBody_cases (cs : List Char) :
    ['*', '/'] <:+ commentBody cs ∨ commentBody cs = cs := by
  fun_induction commentBody cs with
  | case1 cs => exact .inl (List.suffix_refl _)
  | case2 c cs hne ih =>
    rcases ih with hended | hself
    · exact .inl (hended.trans (List.suffix_cons _ _))
    · exact .inr (by rw [hself])
  | case3 => exact .inr rfl

omit h in
theorem commentEnd_of_open {slash : Token} (hpending : Pending source 0 (slash :: rest))
    (hopens : opensBlockComment slash rest = true)
    (hself : commentBody (Source.dropBytes (slash.span.start + 2) source) =
      Source.dropBytes (slash.span.start + 2) source) :
    commentEnd source slash.span.start = byteLength source := by
  obtain ⟨before, text, rfl, hstart, -⟩ := exists_of_opensBlockComment hpending hopens
  have hboundary : IsBoundary (before ++ '/' :: '*' :: text) (slash.span.start + 2) := by
    have := Source.isBoundary_append (before ++ ['/', '*']) text
    rwa [Source.byteLength_append, ← hstart, List.append_assoc] at this
  have hle := hboundary.le_byteLength
  rw [commentEnd, hself, hboundary.byteLength_dropBytes]
  omega

/-- A block comment that is left open takes the whole line, so there is none if a token is left. -/
theorem ended_of_oneLine (hsize : 0 < (ofSource source).size) :
    ∀ comment ∈ (ofSource source).comments, Ended comment := by
  have hlexed : ∀ comment ∈ tokenize source, comment.kind = .comment → Ended comment :=
    fun comment hcomment hkind hblock =>
      absurd hblock (not_isBlock_of_lexed (Token.tokenize_lexed hcomment) hkind)
  intro comment hcomment
  replace hcomment : comment ∈ (Draft.read source {} (tokenize source)).comments :=
    List.mem_reverse.mp hcomment
  rcases read_of_oneLine h with
    hread | ⟨slash, rest, apart, tokens, htokens, hopens, hbehind, hread⟩
  · rw [hread, comments_foldl_sort_eq, List.append_nil] at hcomment
    simp only [List.mem_reverse, List.mem_filter, Bool.and_true, decide_eq_true_eq] at hcomment
    exact hlexed comment hcomment.1 hcomment.2
  · rw [hread, comments_foldl_sort_eq] at hcomment
    rcases List.mem_append.mp hcomment with hcomment | hcomment
    · simp only [List.mem_reverse, List.mem_filter, Bool.and_eq_true, decide_eq_true_eq] at hcomment
      exact hlexed comment (hbehind.lexed hcomment.2.2 hcomment.1) hcomment.2.1
    · cases List.mem_singleton.mp hcomment
      have hpending := pending_tokenize source
      rw [htokens] at hpending
      obtain ⟨hboundary, -, hslice⟩ := slice_commentEnd hpending hopens
      rcases commentBody_cases (Source.dropBytes (slash.span.start + 2) source) with hended | hself
      · intro _
        simpa [blockToken, hslice] using hended
      · -- no token is left behind the comment
        have hend := commentEnd_of_open hpending hopens hself
        have hnil : tokens = [] := by
          refine List.eq_nil_iff_forall_not_mem.mpr fun token htoken => ?_
          have hlt := (hbehind.cut token htoken).lt
          have hstop := (hbehind.cut token htoken).stop.le_byteLength
          have hstart := hbehind.start token htoken
          omega
        simp [Stream.size, ofSource, Draft.toStream, hread, hnil, Draft.comment] at hsize

/-- A parenthesis that opens the line is the first token of the stream. -/
theorem reads_of_opensSection (htoken : token ∈ tokenize source)
    (hopens : opensSection token = true) : (ofSource source).reads 0 "(" = true := by
  obtain ⟨hopens, htext⟩ := Bool.and_eq_true_iff.mp hopens
  rw [beq_iff_eq] at htext
  obtain ⟨first, rest, htokens⟩ := List.exists_cons_of_ne_nil (List.ne_nil_of_mem htoken)
  have hfirst : token = first := by
    rcases List.mem_cons.mp (htokens ▸ htoken) with rfl | hrest
    · rfl
    · rw [opensLine_of_mem_tail h htokens hrest] at hopens
      cases hopens
  subst hfirst
  have hkind : token.kind ≠ .comment := by
    intro hkind
    have hhead := ((Token.tokenize_lexed htoken).of_comment hkind).2
    rw [htext] at hhead
    cases hhead
  have hslash : ∀ first more, tokenize source = first :: more →
      opensBlockComment first more = false := by
    intro first more hfirst
    cases htokens.symm.trans hfirst
    exact opensBlockComment_of_ne (by simp [htext]) rest
  rw [reads_iff]
  refine ⟨token, ?_, htext⟩
  rw [token?_of_oneLine h hslash, htokens, List.filter_cons_of_pos (by simpa using hkind)]
  rfl

end Tokens

/-! ## Two lines -/

/-- One line can stand below another that leaves a token and does not start with a parenthesis. -/
theorem stacked_of_oneLine {a b : Source} (ha : lineBreaks a = 0) (hb : lineBreaks b = 0)
    (hmark : b.head? ≠ some Source.byteOrderMark) (hsize : 0 < (ofSource a).size)
    (hparen : (ofSource a).reads 0 "(" = false) : Stacked a b where
  feed hlast := by
    have hbreak := Text.lineBreaks_eq_zero_iff.mp ha '\r' (List.mem_of_getLast? hlast)
    cases hbreak
  ended := ended_of_oneLine ha hsize
  mark := hmark
  apart opening hopening hopens := by
    cases (reads_of_opensSection ha hopening hopens).symm.trans hparen
  unclosed token htoken := by
    cases htokens : tokenize b with
    | nil => simp [htokens] at htoken
    | cons first rest =>
      rw [htokens] at htoken
      simp [closesSection, opensLine_of_mem_tail hb htokens htoken]

/-- A line with a double colon does not carry on the one above, whatever it starts with. -/
theorem Stacked.ends_of_isDoubleColon {a b : Source} (h : Stacked a b) (hb : lineBreaks b = 0)
    {colons : Nat} (hcolons : (ofSource b).isDoubleColon colons = true) :
    (ofSource (a ++ '\n' :: b)).continues (ofSource a).size = false := by
  have hsize := add_one_lt_size_of_isDoubleColon hcolons
  obtain ⟨first, hfirst⟩ := exists_token_of_lt (show 0 < (ofSource b).size by omega)
  have hline : first.span.line = 0 := by
    have := (ofSource_placed hfirst).line
    omega
  have hahead : (ofSource (a ++ '\n' :: b)).doubleColonAhead (lineBreaks a + 1)
      (ofSource a).size = true := by
    have hright := h.window_right.doubleColonAhead hfirst
    rwa [hline, Nat.zero_add, doubleColonAhead_of_oneLine hb hcolons] at hright
  obtain ⟨item, hitem, rfl⟩ := Option.map_eq_some_iff.mp hfirst
  have hright := h.item_right 0
  rw [Nat.add_zero, hitem, Option.map_some] at hright
  have hstarts := h.startsLine_right hitem
  have houtside := h.unmarked hitem
  simp [continues, hright, Item.shift, hstarts, houtside, hline, hahead]

end HotkeyScript.Stream
