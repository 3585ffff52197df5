import HotkeyScript.Proofs.Stream.ReadAnew

/-!
# Columns of the stream

Every token of the stream, and every comment, has the line of its start, and its column too, with
one exception: a line that is read anew behind a block comment counts its columns from the start of
the source, so on the first line they include a byte order mark. The lexer leaves the mark out.

## Main definitions

* `Stream.Positioned` — the line and the column of a token, as the stream has them.
-/

namespace HotkeyScript.Stream

open Source (IsBoundary byteLength byteOrderMark lineBefore mark)
open Token (Cut Located tokenize tokenizeLine)

variable {source : Source} {draft draft' : Draft} {token token' : Token}
  {pending pending' comments comments' : List Token}

/-- The token has the line and the column of its start; where its line is read anew behind a block
comment, the column counts a byte order mark. -/
def Positioned (source : Source) (comments : List Token) (token : Token) : Prop :=
  token.span.line = (Source.position source token.span.start).1 ∧
    token.span.column = (Source.position source token.span.start).2 +
      if source.head? = some byteOrderMark ∧ token.span.line = 0 ∧
        ReadAnew source comments token.span then 1 else 0

theorem positioned_congr
    (h : ReadAnew source comments token.span ↔ ReadAnew source comments' token.span) :
    Positioned source comments token ↔ Positioned source comments' token := by
  simp only [Positioned, h]

/-- A token of the lexer on a line that is not read anew. -/
theorem positioned_of_located (h : Located source token)
    (hanew : ¬ReadAnew source comments token.span) : Positioned source comments token := by
  obtain ⟨hline, hcolumn⟩ := Prod.mk.inj h.position
  refine ⟨hline, ?_⟩
  rw [if_neg fun hmark => hanew hmark.2.2]
  exact hcolumn

/-- The place of a token stays when it is read on. -/
theorem Positioned.to {stop : Nat} (h : Positioned source comments token)
    (hspan : token'.span = token.span.to stop) : Positioned source comments token' := by
  unfold Positioned at h ⊢
  rw [hspan]
  exact h

/-- A token of a line that is read anew has the column at which the line is taken up, and counts on
from there. -/
theorem positioned_tokenizeLine {offset line : Nat} (hoffset : IsBoundary source offset)
    (hbehind : byteLength (mark source) ≤ offset)
    (hline : (Source.position source offset).1 = line)
    (hanew : line = 0 → ReadAnew source comments token.span)
    (htoken : token ∈ tokenizeLine source offset line (lineBefore source offset).length) :
    Positioned source comments token := by
  obtain ⟨n, htokenLine, hcolumn, hposition, -, -⟩ :=
    Token.tokenizeLine_position hoffset hbehind htoken
  have hlength := Source.length_lineBefore hoffset hbehind
  refine ⟨by rw [hposition, htokenLine, hline], ?_⟩
  rw [hcolumn, hlength, hposition, htokenLine, hline, Nat.add_right_comm]
  congr 1
  exact if_congr (and_congr_right fun _ => (and_iff_left_of_imp hanew).symm) rfl rfl

/-! ## The pass -/

/-- All tokens and comments of the draft are positioned. -/
def Draft.Positions (draft : Draft) (source : Source) : Prop :=
  ∀ token, token ∈ draft.items.map (·.token) ∨ token ∈ draft.comments →
    Positioned source draft.comments token

/-- What the draft holds stays positioned when comments are added. -/
theorem Draft.Positions.old (h : draft.Positions source)
    (hstep : draft.Step source pending draft' pending') (htraced : draft.Traced source pending)
    (htoken : token ∈ draft.items.map (·.token) ∨ token ∈ draft.comments) :
    Positioned source draft'.comments token := by
  refine (positioned_congr (hstep.readAnew_iff htraced fun other hother => ?_)).mpr (h token htoken)
  have hlt := htraced.start_lt htoken
  have hle := htraced.stop_le htoken other hother
  omega

/-- The first of the tokens that are left is positioned. -/
theorem Draft.Step.positioned_head {rest : List Token}
    (hstep : draft.Step source (token :: rest) draft' pending')
    (htraced : draft.Traced source (token :: rest)) : Positioned source draft'.comments token := by
  refine (positioned_congr (hstep.readAnew_iff htraced htraced.head_le)).mpr ?_
  exact positioned_of_located (Token.tokenize_located (htraced.mem List.mem_cons_self))
    (htraced.fresh token List.mem_cons_self)

/-- The tokens of a draft and its comments, after a list of tokens is sorted in. -/
theorem Draft.Positions.foldl_sort {tokens : List Token} {apart : Bool} {inSection : Option Nat}
    (hcomments : ∀ token, token ∈ draft.items.map (·.token) ∨ token ∈ draft.comments →
      Positioned source comments token)
    (htokens : ∀ token ∈ tokens, Positioned source comments token) :
    ∀ token, token ∈ (tokens.foldl (Draft.sort apart inSection) draft).items.map (·.token) ∨
      token ∈ (tokens.foldl (Draft.sort apart inSection) draft).comments →
        Positioned source comments token := by
  rintro token (htoken | htoken)
  · obtain ⟨item, hitem, rfl⟩ := List.mem_map.mp htoken
    rcases mem_items_foldl_sort hitem with hitem | ⟨hmem, -, -⟩
    · exact hcomments item.token (.inl (List.mem_map_of_mem hitem))
    · exact htokens item.token hmem
  · rw [comments_foldl_sort_eq] at htoken
    rcases List.mem_append.mp htoken with htoken | htoken
    · exact htokens token (List.mem_filter.mp (List.mem_reverse.mp htoken)).1
    · exact hcomments token (.inr htoken)

/-- The closing parenthesis of a section is not on the first line. -/
theorem Draft.Traced.closing_line_ne_zero {opening : Token} {rest : List Token}
    {parts : SectionTokens} (h : draft.Traced source (opening :: rest))
    (hparts : sectionTokens? opening rest = some parts) : parts.closing.span.line ≠ 0 := by
  obtain ⟨bound, -, hpending⟩ := h.sound
  have hmem : parts.closing ∈ opening :: rest := by simp [sectionTokens?_eq_some hparts]
  have hlocated := Token.tokenize_located (h.mem hmem)
  have hne := (hpending.break_before_closing hparts).position_ne_zero (hpending.1 _ hmem).1.start
    hlocated.behind
  rwa [← hlocated.position] at hne

theorem Draft.Positions.step (h : draft.Positions source)
    (hstep : draft.Step source pending draft' pending') (htraced : draft.Traced source pending) :
    draft'.Positions source := by
  have hold : ∀ token, token ∈ draft.items.map (·.token) ∨ token ∈ draft.comments →
      Positioned source draft'.comments token := fun token htoken => h.old hstep htraced htoken
  -- tokens that the step takes over as they are, when it adds no block comment
  have hraw : AddsLexed draft.comments draft'.comments → ∀ token ∈ pending,
      Positioned source draft'.comments token := by
    intro hlexed token htoken
    refine positioned_of_located (Token.tokenize_located (htraced.mem htoken)) ?_
    rw [hlexed.readAnew_iff]
    exact htraced.fresh token htoken
  have hbehind : ∀ token ∈ pending, byteLength (mark source) ≤ token.span.start :=
    fun token htoken => (Token.tokenize_located (htraced.mem htoken)).behind
  cases hstep with
  | emit hkind =>
    rintro token (htoken | htoken)
    · rcases List.mem_cons.mp htoken with rfl | htoken
      · exact (Draft.Step.emit hkind).positioned_head htraced
      · exact hold token (.inl htoken)
    · exact hold token (.inr htoken)
  | comment hkind =>
    rintro token (htoken | htoken)
    · exact hold token (.inl htoken)
    · rcases List.mem_cons.mp htoken with rfl | htoken
      · exact (Draft.Step.comment hkind).positioned_head htraced
      · exact hold token (.inr htoken)
  | block hkind hblock hstop hhidden hends =>
    have hhead := (Draft.Step.block hkind hblock hstop hhidden hends).positioned_head htraced
    rintro token (htoken | htoken)
    · exact hold token (.inl htoken)
    · rcases List.mem_cons.mp htoken with rfl | htoken
      · exact hhead.to rfl
      · exact hold token (.inr htoken)
  | @blockInside slash last hidden line after hkind hblock hstop hboundary hhidden hlast hinside
      hline hafter =>
    have hhead := (Draft.Step.blockInside hkind hblock hstop hboundary hhidden hlast hinside hline
      hafter).positioned_head htraced
    have hcut := (Token.tokenize_ordered source).1 last hlast
    have hslash := hbehind slash List.mem_cons_self
    have hproper := ((Token.tokenize_ordered source).1 slash (htraced.mem List.mem_cons_self)).lt
    have hposition := (Token.tokenize_located hlast).line_of_le hcut hboundary
      (Nat.le_of_lt hinside.1) (Nat.le_of_lt hinside.2)
    refine Draft.Positions.foldl_sort ?_ fun token htoken =>
      positioned_tokenizeLine hboundary (by omega) hposition (fun _ => ?_) htoken
    · rintro token (htoken | htoken)
      · exact hold token (.inl htoken)
      · rcases List.mem_cons.mp htoken with rfl | htoken
        · exact hhead.to rfl
        · exact hold token (.inr htoken)
    · refine ⟨blockToken source slash, ?_, hblock, ?_, last, hlast, ?_, hinside⟩
      · rw [comments_foldl_sort_eq]
        exact List.mem_append_right _ List.mem_cons_self
      · exact ((Token.tokenizeLine_ordered hboundary _ _).1 token htoken).2.1
      · exact (Token.line_of_mem_scan htoken).symm
  | @lines opening rest parts options hkind hparts =>
    have hinner := hraw (htraced.addsLexed_lines hparts)
    refine Draft.Positions.foldl_sort (fun token htoken => hold token htoken) fun token htoken => ?_
    exact hinner token (by simp [sectionTokens?_eq_some hparts, htoken])
  | @string opening rest line after parts around joined item quote newer earlier stop hkind hparts
      hitems hnewer hquote hjoined hitem hsections haround hcomments hstop hboundary hposition
      hrest hline =>
    have hinner := hraw (htraced.addsLexed_string hparts hcomments hboundary _ _)
    have hsplit := sectionTokens?_eq_some hparts
    have hclosing := hbehind parts.closing (by simp [hsplit])
    have hproper := ((Token.tokenize_ordered source).1 parts.closing
      (htraced.mem (by simp [hsplit]))).lt
    have hne := htraced.closing_line_ne_zero hparts
    refine Draft.Positions.foldl_sort ?_ fun token htoken =>
      positioned_tokenizeLine hboundary (by omega) hposition (fun hzero => absurd hzero hne) htoken
    rintro token (htoken | htoken)
    · rw [hjoined] at htoken
      rcases List.mem_cons.mp htoken with rfl | htoken
      · exact (hold quote.token (.inl (by simp [hitems]))).to hitem.2.1
      · exact hold token (.inl (by simp [hitems, List.mem_map.mp htoken]))
    · rw [hcomments] at htoken
      rcases List.mem_append.mp htoken with htoken | htoken
      · refine hinner token ?_
        simp [hsplit, (List.mem_filter.mp (List.mem_reverse.mp htoken)).1]
      · exact hold token (.inr htoken)

/-! ## The stream of a source -/

theorem mem_tokens_ofSource :
    token ∈ (ofSource source).tokens ↔
      token ∈ (Draft.read source {} (tokenize source)).items.map (·.token) := by
  simp [tokens, ofSource, Draft.toStream]

theorem mem_comments_ofSource :
    token ∈ (ofSource source).comments ↔
      token ∈ (Draft.read source {} (tokenize source)).comments := by
  simp [ofSource, Draft.toStream]

theorem readAnew_ofSource {span : Span} :
    ReadAnew source (ofSource source).comments span ↔
      ReadAnew source (Draft.read source {} (tokenize source)).comments span :=
  ⟨fun h => h.mono fun _ => mem_comments_ofSource.mp, fun h => h.mono fun _ =>
    mem_comments_ofSource.mpr⟩

theorem ofSource_positions (source : Source) :
    (Draft.read source {} (tokenize source)).Positions source := by
  refine read_traced source (motive := fun draft _ => draft.Positions source)
    (fun draft pending draft' pending' hstep htraced _ h => h.step hstep htraced) ?_
  rintro token (htoken | htoken) <;> cases htoken

theorem positioned_ofSource
    (htoken : token ∈ (ofSource source).tokens ∨ token ∈ (ofSource source).comments) :
    Positioned source (ofSource source).comments token := by
  rw [mem_tokens_ofSource, mem_comments_ofSource] at htoken
  exact (positioned_congr readAnew_ofSource).mpr (ofSource_positions source token htoken)

/-- Every token of the stream and every comment has the line of its start, and its column too, but
for a byte order mark, which is counted exactly on a first line that is read anew behind a block
comment. A token that the lexer reads at the same offset has the same line, and the same column but
for the mark. -/
theorem ofSource_positioned (source : Source) (token : Token)
    (htoken : token ∈ (ofSource source).tokens ∨ token ∈ (ofSource source).comments) :
    Positioned source (ofSource source).comments token ∧
      ∀ raw ∈ tokenize source, raw.span.start = token.span.start →
        token.span.line = raw.span.line ∧ token.span.column = raw.span.column +
          if source.head? = some byteOrderMark ∧ token.span.line = 0 ∧
            ReadAnew source (ofSource source).comments token.span then 1 else 0 := by
  have hpositioned := positioned_ofSource htoken
  refine ⟨hpositioned, fun raw hraw hstart => ?_⟩
  obtain ⟨hline, hcolumn⟩ := Prod.mk.inj (Token.tokenize_located hraw).position
  rw [hstart] at hline hcolumn
  rw [hline, hcolumn]
  exact hpositioned

/-- The rest of a first line behind a byte order mark and a block comment. -/
theorem ofSource_positioned_mark :
    let source := "\uFEFF/*a*/= b".toList
    ∃ token ∈ (ofSource source).tokens, token.text = "b" ∧ token.span.column = 8 ∧
      ReadAnew source (ofSource source).comments token.span ∧
      token.span.column = (Source.position source token.span.start).2 + 1 := by
  intro source
  have hmem : ∃ token ∈ (ofSource source).tokens, token.text = "b" ∧ token.span.column = 8 ∧
      token.span.line = 0 ∧ ReadAnew source (ofSource source).comments token.span := by
    decide +kernel
  obtain ⟨token, htoken, htext, hcolumn, hline, hanew⟩ := hmem
  obtain ⟨⟨-, hposition⟩, -⟩ := ofSource_positioned source token (.inl htoken)
  rw [if_pos ⟨rfl, hline, hanew⟩] at hposition
  exact ⟨token, htoken, htext, hcolumn, hanew, hposition⟩

/-- The same token of the lexer leaves the mark out. -/
theorem ofSource_counts_mark :
    let source := "\uFEFF/*a*/= b".toList
    ∃ token ∈ (ofSource source).tokens, ∃ raw ∈ tokenize source,
      raw.text = token.text ∧ raw.span.start = token.span.start ∧
      Source.position source token.span.start = (raw.span.line, raw.span.column) ∧
      token.span.column = raw.span.column + 1 := by
  decide +kernel

end HotkeyScript.Stream
