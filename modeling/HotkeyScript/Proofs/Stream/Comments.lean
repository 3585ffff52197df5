import HotkeyScript.Proofs.Stream.Columns

/-!
# Comments of the stream

The pass keeps the comments of a source apart from its tokens. Each comment of the lexer has one of
these fates.

* It is kept, or it is a token of a section that does not leave comments out.
* It belongs to a block comment, or to a string that a section carries on.
* Its line is read anew, and its semicolon turns out to stand inside a string or another comment.
* It stands on the line of an opening parenthesis, and is dropped.
* Its line is read anew behind a block comment, and it stays among the tokens.

## Main definitions

* `Stream.LiesInSection` — a token is marked with a section of some kind.
* `Stream.Fate` — what becomes of a comment of the lexer.
-/

namespace HotkeyScript.Stream

open Source (IsBoundary byteLength lineBefore)
open Text (Unbroken)
open Token (Cut Located tokenize tokenizeLine)

variable {source : Source} {stream : Stream} {draft draft' : Draft} {token comment other : Token}
  {pending pending' rest : List Token} {item : Item} {p : Section → Prop}

/-! ## Drafts as streams -/

theorem mem_items_toStream : item ∈ (draft.toStream source).items ↔ item ∈ draft.items := by
  simp [Draft.toStream]

theorem mem_tokens_toStream :
    token ∈ (draft.toStream source).tokens ↔ ∃ item ∈ draft.items, item.token = token := by
  simp [Draft.toStream, tokens]

theorem mem_comments_toStream :
    token ∈ (draft.toStream source).comments ↔ token ∈ draft.comments := by
  simp [Draft.toStream]

theorem mem_sections_toStream {around : Section} :
    around ∈ (draft.toStream source).sections ↔ around ∈ draft.sections := by
  simp [Draft.toStream]

/-- The item is marked with a section that satisfies `p`. -/
def LiesInSection (stream : Stream) (item : Item) (p : Section → Prop) : Prop :=
  ∃ j around, item.inSection = some j ∧ stream.sections[j]? = some around ∧ p around

theorem liesInSection_toStream :
    (draft.toStream source).LiesInSection item p ↔
      ∃ j around, item.inSection = some j ∧ draft.sections.reverse[j]? = some around ∧
        p around := by
  simp [LiesInSection, Draft.toStream]

/-! ## What a step keeps -/

/-- A step keeps the comments. -/
theorem Draft.Step.subset_comments (hstep : draft.Step source pending draft' pending')
    (h : draft.Traced source pending) : draft.comments ⊆ draft'.comments := by
  rcases hstep.comments_cases h with ⟨added, hadded, -⟩ | ⟨slash, -, -, hcomments, -⟩
  · rw [hadded]
    exact List.subset_append_right _ _
  · rw [hcomments]
    exact List.subset_cons_self _ _

/-- A step keeps the sections and adds one at most. -/
theorem Draft.Step.sections_cases (hstep : draft.Step source pending draft' pending') :
    draft'.sections = draft.sections ∨ ∃ around, draft'.sections = around :: draft.sections := by
  cases hstep with
  | emit | comment | block => exact .inl rfl
  | blockInside => exact .inl (sections_foldl_sort _ _)
  | lines => exact .inr ⟨_, sections_foldl_sort _ _⟩
  | string hkind hparts hitems hnewer hquote hjoined hitem hsections =>
    exact .inr ⟨_, (sections_foldl_sort _ _).trans hsections⟩

theorem Draft.Step.subset_sections (hstep : draft.Step source pending draft' pending') :
    draft.sections ⊆ draft'.sections := by
  rcases hstep.sections_cases with hsections | ⟨around, hsections⟩
  · rw [hsections]
    exact fun _ => id
  · rw [hsections]
    exact List.subset_cons_self _ _

/-- A mark leads to the same section. -/
theorem Draft.Step.liesInSection (hstep : draft.Step source pending draft' pending')
    (h : (draft.toStream source).LiesInSection item p) :
    (draft'.toStream source).LiesInSection item p := by
  rw [liesInSection_toStream] at h ⊢
  obtain ⟨j, around, hj, haround, hp⟩ := h
  refine ⟨j, around, hj, ?_, hp⟩
  rcases hstep.sections_cases with hsections | ⟨new, hsections⟩
  · rwa [hsections]
  · rw [hsections]
    exact getElem?_reverse_cons haround

/-- The token lies inside a string that a section carries on. -/
def InContinued (stream : Stream) (token : Token) : Prop :=
  ∃ item ∈ stream.items, item.token.kind = .string ∧
    stream.LiesInSection item (·.literal.isSome = true) ∧
    item.token.span.start < token.span.start ∧ token.span.stop ≤ item.token.span.stop

/-- What lies inside the string of a section lies there still when the rest of the line is read. -/
theorem inContinued_foldl_sort {joined : Draft} {around : Section} (hitem : item ∈ joined.items)
    (hkind : item.token.kind = .string) (hsection : item.inSection = some draft.sections.length)
    (hsections : joined.sections = around :: draft.sections)
    (hliteral : around.literal.isSome = true)
    (hstart : item.token.span.start < token.span.start)
    (hstop : token.span.stop ≤ item.token.span.stop) (added : List Token) :
    InContinued ((added.foldl (Draft.sort true none) joined).toStream source) token := by
  refine ⟨item, mem_items_toStream.mpr (subset_items_foldl_sort _ _ _ _ hitem), hkind, ?_, hstart,
    hstop⟩
  rw [liesInSection_toStream, sections_foldl_sort, hsections]
  exact ⟨_, around, hsection, getElem?_reverse_cons_length, hliteral⟩

/-- A step keeps the items, but for those that become part of a string. -/
theorem Draft.Step.mem_items (hstep : draft.Step source pending draft' pending')
    (h : draft.Traced source pending) (hitem : item ∈ draft.items) :
    item ∈ draft'.items ∨ item.token.kind = .symbol ∨ item.inSection = none ∧
      ∀ token : Token, item.token.span.start ≤ token.span.start →
        (∀ opening ∈ pending, token.span.stop ≤ opening.span.start) →
          InContinued (draft'.toStream source) token := by
  cases hstep with
  | emit => exact .inl (List.mem_cons_of_mem _ hitem)
  | comment | block => exact .inl hitem
  | blockInside => exact .inl (subset_items_foldl_sort _ _ _ _ hitem)
  | lines => exact .inl (subset_items_foldl_sort _ _ _ _ hitem)
  | @string opening rest line after parts around joined new quote newer earlier stop hkind hparts
      hitems hnewer hquote hjoined hnew hsections haround hcomments hstop hboundary hposition hrest
      hline =>
    obtain ⟨hkind, hspan, hsection⟩ := hnew
    have hmem := hitem
    rw [hitems] at hmem
    rcases List.mem_append.mp hmem with hmem | hmem
    · refine .inr (.inr ⟨hnewer item (List.mem_cons_of_mem _ hmem), fun token hle hbefore => ?_⟩)
      obtain ⟨bound, hsound, hpending⟩ := h.sound
      have hordered := hsound.items.2
      rw [hitems, List.map_append, List.map_cons] at hordered
      have hbehind := (List.pairwise_append.mp hordered).2.2 item.token (List.mem_map_of_mem hmem)
        quote.token List.mem_cons_self
      have hlt := h.start_lt (.inl (List.mem_map_of_mem (by simp [hitems]) :
        quote.token ∈ draft.items.map (·.token)))
      have hclosing := hbefore parts.closing (by simp [sectionTokens?_eq_some hparts])
      have hlt' := ((Token.tokenize_ordered source).1 parts.closing
        (h.mem (by simp [sectionTokens?_eq_some hparts]))).lt
      refine inContinued_foldl_sort (by simp [hjoined]) hkind hsection hsections haround.2.2 ?_ ?_ _
      · rw [hspan, Span.to_start]
        omega
      · rw [hspan, Span.to_stop]
        omega
    · rcases List.mem_cons.mp hmem with rfl | hmem
      · simp only [isOpenQuote, Bool.and_eq_true, decide_eq_true_eq] at hquote
        exact .inr (.inl hquote.1)
      · refine .inl (subset_items_foldl_sort _ _ _ _ ?_)
        rw [hjoined]
        exact List.mem_cons_of_mem _ hmem

/-! ## Fates -/

/-- The line of the token is read anew behind a block comment or behind a continued string. -/
def LineReadAnew (stream : Stream) (token : Token) : Prop :=
  ReadAnew stream.source stream.comments token.span ∨
    ∃ around ∈ stream.sections, around.literal.isSome = true ∧
      token.span.line = around.closing.span.line ∧ around.closing.span.stop ≤ token.span.start

/-- The token stands behind an opening parenthesis, on its line. -/
def OnOpeningLine (stream : Stream) (token : Token) : Prop :=
  ∃ around ∈ stream.sections, around.literal = none ∧
    token.span.line = around.opening.span.line ∧ around.opening.span.stop ≤ token.span.start

/-- What becomes of a comment of the lexer. -/
inductive Fate (stream : Stream) (comment : Token) : Prop where
  /-- It is kept. -/
  | kept {other : Token} (hother : other ∈ stream.comments) (hmatches : comment.Matches other)
  /-- It is a token of a section that does not leave comments out. -/
  | listed {item : Item} (hitem : item ∈ stream.items) (htoken : item.token = comment)
    (hsection : stream.LiesInSection item (·.options.comments = false))
  /-- It belongs to a block comment. -/
  | hidden {block : Token} (hcomment : block ∈ stream.comments) (hblock : IsBlock block)
    (hswallows : block.Swallows comment.span.start)
  /-- It belongs to a string that a section carries on. -/
  | joined (hinside : InContinued stream comment)
  /-- It stands on the line of an opening parenthesis. -/
  | dropped (hline : OnOpeningLine stream comment)
  /-- It is a token on a line that is read anew behind a block comment. -/
  | left {item : Item} (hitem : item ∈ stream.items) (hsection : item.inSection = none)
    (hmatches : comment.Matches item.token)
    (hline : ReadAnew stream.source stream.comments comment.span)
  /-- On a line that is read anew it starts inside a string or another comment. -/
  | swallowed {other : Token} (hother : other ∈ stream.tokens ∨ other ∈ stream.comments)
    (hswallows : other.Swallows comment.span.start) (hline : LineReadAnew stream comment)

theorem LineReadAnew.step (h : LineReadAnew (draft.toStream source) token)
    (hstep : draft.Step source pending draft' pending') (htraced : draft.Traced source pending) :
    LineReadAnew (draft'.toStream source) token := by
  rcases h with hanew | ⟨around, haround, hanew⟩
  · refine .inl (hanew.mono fun comment hcomment => ?_)
    rw [mem_comments_toStream] at hcomment ⊢
    exact hstep.subset_comments htraced hcomment
  · refine .inr ⟨around, ?_, hanew⟩
    rw [mem_sections_toStream] at haround ⊢
    exact hstep.subset_sections haround

/-- A fate stays, or the comment becomes part of a string. -/
theorem Fate.step (h : Fate (draft.toStream source) comment)
    (hstep : draft.Step source pending draft' pending') (htraced : draft.Traced source pending)
    (hkind : comment.kind = .comment)
    (hbefore : ∀ token ∈ pending, comment.span.stop ≤ token.span.start) :
    Fate (draft'.toStream source) comment := by
  have hcomments : ∀ other ∈ (draft.toStream source).comments,
      other ∈ (draft'.toStream source).comments := by
    intro other hother
    rw [mem_comments_toStream] at hother ⊢
    exact hstep.subset_comments htraced hother
  -- a marked item that is no symbol stays
  have hmarked : ∀ item ∈ (draft.toStream source).items, item.token.kind ≠ .symbol → ∀ p,
      (draft.toStream source).LiesInSection item p → item ∈ (draft'.toStream source).items := by
    intro item hitem hsymbol p hp
    obtain ⟨j, around, hj, -⟩ := hp
    rw [mem_items_toStream] at hitem ⊢
    rcases hstep.mem_items htraced hitem with hmem | hmem | ⟨hnone, -⟩
    · exact hmem
    · exact absurd hmem hsymbol
    · cases hnone.symm.trans hj
  cases h with
  | kept hother hmatches => exact .kept (hcomments _ hother) hmatches
  | listed hitem htoken hsection =>
    refine .listed (hmarked _ hitem ?_ _ hsection) htoken (hstep.liesInSection hsection)
    rw [htoken, hkind]
    decide
  | hidden hcomment hblock hswallows => exact .hidden (hcomments _ hcomment) hblock hswallows
  | joined hinside =>
    obtain ⟨item, hitem, hstring, hsection, hspan⟩ := hinside
    refine .joined ⟨item, hmarked item hitem ?_ _ hsection, hstring, hstep.liesInSection hsection,
      hspan⟩
    rw [hstring]
    decide
  | dropped hline =>
    obtain ⟨around, haround, hline⟩ := hline
    refine .dropped ⟨around, ?_, hline⟩
    rw [mem_sections_toStream] at haround ⊢
    exact hstep.subset_sections haround
  | left hitem hsection hmatches hline =>
    rw [mem_items_toStream] at hitem
    rcases hstep.mem_items htraced hitem with hmem | hmem | ⟨-, hjoined⟩
    · exact .left (mem_items_toStream.mpr hmem) hsection hmatches (hline.mono hcomments)
    · rw [hmatches.kind_eq, hkind] at hmem
      cases hmem
    · exact .joined (hjoined comment (by rw [hmatches.start_eq]) hbefore)
  | swallowed hother hswallows hline =>
    have hline' := hline.step hstep htraced
    rcases hother with hother | hother
    · obtain ⟨item, hitem, rfl⟩ := mem_tokens_toStream.mp hother
      rcases hstep.mem_items htraced hitem with hmem | hmem | ⟨-, hjoined⟩
      · exact .swallowed (.inl (mem_tokens_toStream.mpr ⟨item, hmem, rfl⟩)) hswallows hline'
      · rcases hswallows.1 with hstring | hstring <;> cases hstring.symm.trans hmem
      · exact .joined (hjoined comment (Nat.le_of_lt hswallows.2.1) hbefore)
    · exact .swallowed (.inr (hcomments _ hother)) hswallows hline'

/-! ## The comments that a step takes -/

/-- What is left is behind its first token. -/
theorem Draft.Traced.head_lt (h : draft.Traced source (token :: rest)) (hother : other ∈ rest) :
    token.span.start < other.span.start :=
  Nat.lt_of_lt_of_le ((Token.tokenize_ordered source).1 token (h.mem List.mem_cons_self)).lt
    (h.tail_le other hother)

/-- A comment that starts inside a block comment. -/
theorem fate_hidden {slash : Token} (hblock : IsBlock (blockToken source slash))
    (hmem : blockToken source slash ∈ draft.comments)
    (hstart : slash.span.start < comment.span.start)
    (hstop : comment.span.start < (blockToken source slash).span.stop) :
    Fate (draft.toStream source) comment :=
  .hidden (mem_comments_toStream.mpr hmem) hblock
    ⟨.inr rfl, by rwa [blockToken_start], hstop⟩

/-- A block comment that ends between two tokens hides the comments before its end. -/
theorem fate_block {slash : Token} {hidden after : List Token}
    (h : draft.Traced source (slash :: (hidden ++ after)))
    (hblock : IsBlock (blockToken source slash))
    (hhidden : ∀ token ∈ hidden, token.span.start < (blockToken source slash).span.stop)
    (hcomment : comment ∈ hidden ++ after) :
    comment ∈ after ∨ Fate ((draft.comment (blockToken source slash)).toStream source) comment := by
  rcases List.mem_append.mp hcomment with hmem | hmem
  · exact .inr (fate_hidden hblock List.mem_cons_self (h.head_lt hcomment) (hhidden comment hmem))
  · exact .inl hmem

/-- A comment on a line that is read anew behind a block comment. -/
theorem fate_anew {slash last : Token} (hcomment : comment ∈ tokenize source)
    (hkind : comment.kind = .comment) (hblock : IsBlock (blockToken source slash))
    (hboundary : IsBoundary source (blockToken source slash).span.stop)
    (hlast : last ∈ tokenize source) (hinside : last.Encloses (blockToken source slash).span.stop)
    (hline : comment.span.line = last.span.line)
    (hle : (blockToken source slash).span.stop ≤ comment.span.start) (column : Nat) :
    Fate (((tokenizeLine source (blockToken source slash).span.stop last.span.line column).foldl
      (Draft.sort false none) (draft.comment (blockToken source slash))).toStream source)
      comment := by
  have hanew : ReadAnew source (((tokenizeLine source (blockToken source slash).span.stop
      last.span.line column).foldl (Draft.sort false none)
        (draft.comment (blockToken source slash))).toStream source).comments comment.span := by
    refine ⟨_, mem_comments_toStream.mpr ?_, hblock, hle, last, hlast, hline.symm, hinside⟩
    rw [comments_foldl_sort_eq]
    exact List.mem_append_right _ List.mem_cons_self
  obtain ⟨other, hother, hread⟩ := Token.exists_mem_tokenizeLine_of_line column hboundary hlast
    hcomment hkind hline hinside.1 hle
  obtain ⟨item, hitem, rfl, hsection⟩ := exists_mem_items_foldl_sort none
    (draft.comment (blockToken source slash)) hother fun _ => rfl
  rcases hread with hmatches | hswallows
  · exact .left (mem_items_toStream.mpr hitem) hsection hmatches hanew
  · exact .swallowed (.inl (mem_tokens_toStream.mpr ⟨item, hitem, rfl⟩)) hswallows (.inl hanew)

/-- A block comment that ends inside a token hides the comments before its end, and those behind it
are read anew. -/
theorem fate_blockInside {slash last : Token} {hidden line after : List Token}
    (h : draft.Traced source (slash :: (hidden ++ (line ++ after))))
    (hblock : IsBlock (blockToken source slash))
    (hboundary : IsBoundary source (blockToken source slash).span.stop)
    (hhidden : ∀ token ∈ hidden, token.span.start < (blockToken source slash).span.stop)
    (hlast : last ∈ tokenize source) (hinside : last.Encloses (blockToken source slash).span.stop)
    (hline : ∀ token ∈ line, token.span.line = last.span.line ∧
      (blockToken source slash).span.stop ≤ token.span.start)
    (hcomment : comment ∈ hidden ++ (line ++ after)) (hkind : comment.kind = .comment)
    (column : Nat) :
    comment ∈ after ∨
      Fate (((tokenizeLine source (blockToken source slash).span.stop last.span.line column).foldl
        (Draft.sort false none) (draft.comment (blockToken source slash))).toStream source)
        comment := by
  have hraw := h.mem (List.mem_cons_of_mem _ hcomment)
  rcases List.mem_append.mp hcomment with hmem | hbehind
  · refine .inr (fate_hidden hblock ?_ (h.head_lt hcomment) (hhidden comment hmem))
    rw [comments_foldl_sort_eq]
    exact List.mem_append_right _ List.mem_cons_self
  rcases List.mem_append.mp hbehind with hmem | hmem
  · obtain ⟨hsame, hle⟩ := hline comment hmem
    exact .inr (fate_anew hraw hkind hblock hboundary hlast hinside hsame hle column)
  · exact .inl hmem

/-- A comment behind an opening parenthesis is on its line, inside the section or behind it: the
closing parenthesis is no comment. -/
theorem Draft.Traced.mem_section {opening : Token} {parts : SectionTokens}
    (h : draft.Traced source (opening :: rest))
    (hparts : sectionTokens? opening rest = some parts) (hcomment : comment ∈ rest)
    (hkind : comment.kind = .comment) :
    comment ∈ parts.header ∨ comment ∈ parts.inner ∨ comment ∈ parts.after := by
  have hraw := h.mem (List.mem_cons_of_mem _ hcomment)
  rw [sectionTokens?_eq_some hparts] at hcomment
  rcases List.mem_append.mp hcomment with hmem | hcomment
  · exact .inl hmem
  rcases List.mem_append.mp hcomment with hmem | hcomment
  · exact .inr (.inl hmem)
  rcases List.mem_cons.mp hcomment with rfl | hmem
  · exact absurd hkind
      ((Token.tokenize_lexed hraw).kind_ne_comment (.inr (sectionTokens?_lines hparts).2))
  · exact .inr (.inr hmem)

/-- A comment between the parentheses of a section is left out or is one of its tokens, as the
options say. -/
theorem fate_inner {opening : Token} {parts : SectionTokens} (options : Section.Options)
    (hmem : comment ∈ parts.inner) (hkind : comment.kind = .comment) :
    Fate ((draft.joinedLines options opening parts).1.toStream source) comment := by
  cases hoptions : options.comments with
  | true =>
    refine .kept (mem_comments_toStream.mpr ?_) (.refl comment)
    simp [Draft.joinedLines, comments_foldl_sort_eq, hmem, hkind, hoptions]
  | false =>
    obtain ⟨item, hitem, htoken, hsection⟩ := exists_mem_items_foldl_sort
      (some draft.sections.length)
      { draft with
        sections := { options, opening, closing := parts.closing } :: draft.sections }
      hmem fun _ => hoptions
    refine .listed (mem_items_toStream.mpr hitem) htoken ?_
    rw [liesInSection_toStream]
    refine ⟨_, { options, opening, closing := parts.closing }, hsection, ?_, hoptions⟩
    simp [Draft.joinedLines, sections_foldl_sort]

/-- A section drops the comments on the line of its opening parenthesis, and sorts those between
its parentheses. -/
theorem fate_lines {opening : Token} {parts : SectionTokens} (options : Section.Options)
    (h : draft.Traced source (opening :: rest))
    (hparts : sectionTokens? opening rest = some parts) (hcomment : comment ∈ rest)
    (hkind : comment.kind = .comment) :
    comment ∈ parts.after ∨
      Fate ((draft.joinedLines options opening parts).1.toStream source) comment := by
  rcases h.mem_section hparts hcomment hkind with hmem | hmem | hmem
  · refine .inr (.dropped ⟨{ options, opening, closing := parts.closing },
      mem_sections_toStream.mpr ?_, rfl, (sectionTokens?_lines hparts).1 comment hmem,
      h.tail_le comment hcomment⟩)
    simp [Draft.joinedLines, sections_foldl_sort]
  · exact .inr (fate_inner options hmem hkind)
  · exact .inl hmem

/-- A comment behind a section that carries on a string, on the line of the closing parenthesis. -/
theorem fate_behind {joined : Draft} {new : Item} {closing : Token} {around : Section} {stop : Nat}
    (hcomment : comment ∈ tokenize source) (hkind : comment.kind = .comment)
    (hclosing : closing ∈ tokenize source) (hstop : closing.span.stop < stop)
    (hboundary : IsBoundary source stop) (hnew : new ∈ joined.items)
    (hstring : new.token.kind = .string) (hstart : new.token.span.start < closing.span.stop)
    (hend : new.token.span.stop = stop) (haround : around ∈ joined.sections)
    (hliteral : around.literal.isSome = true) (heq : around.closing = closing)
    (hline : comment.span.line = closing.span.line)
    (hle : closing.span.stop ≤ comment.span.start) (column : Nat) :
    Fate (((tokenizeLine source stop closing.span.line column).foldl (Draft.sort true none)
      joined).toStream source) comment := by
  have hanew : LineReadAnew (((tokenizeLine source stop closing.span.line column).foldl
      (Draft.sort true none) joined).toStream source) comment := by
    refine .inr ⟨around, mem_sections_toStream.mpr ?_, hliteral, by rw [heq, hline], by rwa [heq]⟩
    rwa [sections_foldl_sort]
  rcases Nat.lt_or_ge comment.span.start stop with hlt | hge
  · -- the string reaches over the semicolon
    have hmem := subset_items_foldl_sort true none
      (tokenizeLine source stop closing.span.line column) joined hnew
    exact .swallowed (.inl (mem_tokens_toStream.mpr ⟨new, hmem, rfl⟩))
      ⟨.inl hstring, by omega, by omega⟩ hanew
  · have hproper := ((Token.tokenize_ordered source).1 closing hclosing).lt
    obtain ⟨other, hother, hread⟩ := Token.exists_mem_tokenizeLine_of_line column hboundary
      hclosing hcomment hkind hline (by omega) hge
    have hapart : other.kind = .comment → other ∈ (((tokenizeLine source stop closing.span.line
        column).foldl (Draft.sort true none) joined).toStream source).comments := by
      intro hother'
      rw [mem_comments_toStream, comments_foldl_sort_eq]
      exact List.mem_append_left _ (by simp [hother, hother'])
    rcases hread with hmatches | hswallows
    · exact .kept (hapart (hmatches.kind_eq.trans hkind)) hmatches
    · rcases hswallows.1 with hother' | hother'
      · have hnone : other.kind = .comment → true = false := by simp [hother']
        obtain ⟨item, hitem, rfl, -⟩ := exists_mem_items_foldl_sort none joined hother hnone
        exact .swallowed (.inl (mem_tokens_toStream.mpr ⟨item, hitem, rfl⟩)) hswallows hanew
      · exact .swallowed (.inr (hapart hother')) hswallows hanew

/-- A string that a section carries on takes in the comments of the section, and those behind it on
the closing line are read anew. -/
theorem fate_string {opening : Token} {line after : List Token} {parts : SectionTokens}
    {around : Section} {joined : Draft} {quote : Item} {newer earlier : List Item} {stop : Nat}
    (h : draft.Traced source (opening :: rest))
    (hparts : sectionTokens? opening rest = some parts)
    (hitems : draft.items = newer ++ quote :: earlier) (hjoined : joined.items = item :: earlier)
    (hitem : item.token.kind = .string ∧ item.token.span = quote.token.span.to stop ∧
      item.inSection = some draft.sections.length)
    (hsections : joined.sections = around :: draft.sections)
    (haround : around.opening = opening ∧ around.closing = parts.closing ∧
      around.literal.isSome = true)
    (hstop : parts.closing.span.stop < stop) (hboundary : IsBoundary source stop)
    (hafter : parts.after = line ++ after)
    (hline : ∀ token ∈ line, token.span.line = parts.closing.span.line)
    (hcomment : comment ∈ rest) (hkind : comment.kind = .comment) (column : Nat) :
    comment ∈ after ∨
      Fate (((tokenizeLine source stop parts.closing.span.line column).foldl
        (Draft.sort true none) joined).toStream source) comment := by
  obtain ⟨hstring, hspan, hsection⟩ := hitem
  obtain ⟨bound, -, hpending⟩ := h.sound
  have hsplit := sectionTokens?_eq_some hparts
  have hclosing : parts.closing ∈ opening :: rest := by simp [hsplit]
  have hquote : quote.token ∈ draft.items.map (·.token) := List.mem_map_of_mem (by simp [hitems])
  have hstart : ∀ token ∈ opening :: rest, item.token.span.start < token.span.start := by
    intro token htoken
    rw [hspan, Span.to_start]
    exact Nat.lt_of_lt_of_le (h.start_lt (.inl hquote)) (h.stop_le (.inl hquote) token htoken)
  -- the string starts at the quote, above the section, and ends behind its parenthesis
  have hinside : comment.span.stop ≤ parts.closing.span.start → InContinued
      (((tokenizeLine source stop parts.closing.span.line column).foldl
        (Draft.sort true none) joined).toStream source) comment := by
    intro hle
    have hlt := ((Token.tokenize_ordered source).1 parts.closing (h.mem hclosing)).lt
    refine inContinued_foldl_sort (by simp [hjoined]) hstring hsection hsections haround.2.2
      (hstart comment (List.mem_cons_of_mem _ hcomment)) ?_ _
    rw [hspan, Span.to_stop]
    omega
  have hordered := hpending.2
  rw [hsplit, ← List.append_assoc] at hordered
  obtain ⟨-, -, hbefore⟩ := List.pairwise_append.mp (List.pairwise_cons.mp hordered).2
  rcases h.mem_section hparts hcomment hkind with hmem | hmem | hmem
  · exact .inr (.joined (hinside
      (hbefore comment (List.mem_append_left _ hmem) _ List.mem_cons_self).1))
  · exact .inr (.joined (hinside
      (hbefore comment (List.mem_append_right _ hmem) _ List.mem_cons_self).1))
  · have hle := (hpending.section_bounds hparts).2.2.1 comment hmem
    rw [hafter] at hmem
    rcases List.mem_append.mp hmem with hmem | hmem
    · have hlt := hstart parts.closing hclosing
      have hproper := ((Token.tokenize_ordered source).1 parts.closing (h.mem hclosing)).lt
      exact .inr (fate_behind (h.mem (List.mem_cons_of_mem _ hcomment)) hkind (h.mem hclosing)
        hstop hboundary (by simp [hjoined]) hstring (by omega) (by rw [hspan, Span.to_stop])
        (by simp [hsections]) haround.2.2 haround.2.1 (hline comment hmem) hle column)
    · exact .inl hmem

/-- The comments among the tokens that a step takes have a fate. -/
theorem Draft.Step.fate (hstep : draft.Step source pending draft' pending')
    (h : draft.Traced source pending) (hcomment : comment ∈ pending)
    (hkind : comment.kind = .comment) :
    comment ∈ pending' ∨ Fate (draft'.toStream source) comment := by
  -- only the step for a comment starts at one
  have htail : ∀ {token rest}, token.kind ≠ .comment → comment ∈ token :: rest → comment ∈ rest :=
    fun hne => List.mem_of_ne_of_mem (by rintro rfl; exact hne hkind)
  cases hstep with
  | emit hne => exact .inl (htail hne hcomment)
  | comment =>
    rcases List.mem_cons.mp hcomment with rfl | hcomment
    · exact .inr (.kept (mem_comments_toStream.mpr List.mem_cons_self) (.refl comment))
    · exact .inl hcomment
  | block hne hblock hstop hhidden => exact fate_block h hblock hhidden (htail hne hcomment)
  | blockInside hne hblock hstop hboundary hhidden hlast hinside hline =>
    exact fate_blockInside h hblock hboundary hhidden hlast hinside hline (htail hne hcomment) hkind
      _
  | lines hne hparts => exact fate_lines _ h hparts (htail hne hcomment) hkind
  | string hne hparts hitems _ _ hjoined hitem hsections haround _ hstop hboundary _ hafter hline =>
    exact fate_string h hparts hitems hjoined hitem hsections haround hstop hboundary hafter hline
      (htail hne hcomment) hkind _

theorem ofSource_fate {source : Source} (h : comment ∈ tokenize source)
    (hkind : comment.kind = .comment) : Fate (ofSource source) comment := by
  have hfates := read_traced source (motive := fun draft pending =>
    ∀ comment ∈ tokenize source, comment.kind = .comment →
      comment ∈ pending ∨ Fate (draft.toStream source) comment) ?_ fun comment hcomment _ =>
        .inl hcomment
  · exact (hfates comment h hkind).resolve_left List.not_mem_nil
  · intro draft pending draft' pending' hstep htraced _ hfates comment hcomment hkind
    by_cases hmem : comment ∈ pending
    · exact hstep.fate htraced hmem hkind
    · refine .inr (((hfates comment hcomment hkind).resolve_left hmem).step hstep htraced hkind ?_)
      exact fun token htoken => (htraced.follows hcomment hmem token htoken).1

/-! ## Comments among the tokens -/

/-- The comments among the items lie in sections that do not leave comments out, or on lines that
are read anew behind a block comment. -/
def Draft.Sorts (draft : Draft) (source : Source) : Prop :=
  ∀ item ∈ draft.items, item.token.kind = .comment →
    (draft.toStream source).LiesInSection item (·.options.comments = false) ∧
        ¬ReadAnew source draft.comments item.token.span ∨
      item.inSection = none ∧ ReadAnew source draft.comments item.token.span

theorem Draft.Sorts.step (h : draft.Sorts source)
    (hstep : draft.Step source pending draft' pending') (htraced : draft.Traced source pending) :
    draft'.Sorts source := by
  intro item hitem hkind
  have hold : item ∈ draft.items → (draft'.toStream source).LiesInSection item
      (·.options.comments = false) ∧ ¬ReadAnew source draft'.comments item.token.span ∨
      item.inSection = none ∧ ReadAnew source draft'.comments item.token.span := by
    intro hitem
    have hmem : item.token ∈ draft.items.map (·.token) := List.mem_map_of_mem hitem
    have hiff := hstep.readAnew_iff htraced fun token htoken =>
      Nat.le_trans (Nat.le_of_lt (htraced.start_lt (.inl hmem)))
        (htraced.stop_le (.inl hmem) token htoken)
    rw [hiff]
    exact (h item hitem hkind).imp_left fun hlies => ⟨hstep.liesInSection hlies.1, hlies.2⟩
  cases hstep with
  | emit hne =>
    rcases List.mem_cons.mp hitem with rfl | hitem
    · exact absurd hkind hne
    · exact hold hitem
  | comment | block => exact hold hitem
  | @blockInside slash last hidden line after hne hblock hstop hboundary hhidden hlast hinside
      hline hafter =>
    rcases mem_items_foldl_sort hitem with hitem | ⟨hmem, hsection, -⟩
    · exact hold hitem
    · refine .inr ⟨hsection, blockToken source slash, ?_, hblock,
        ((Token.tokenizeLine_ordered hboundary _ _).1 _ hmem).2.1, last, hlast,
        (Token.line_of_mem_scan hmem).symm, hinside⟩
      rw [comments_foldl_sort_eq]
      exact List.mem_append_right _ List.mem_cons_self
  | @lines opening rest parts options hne hparts =>
    rcases mem_items_foldl_sort hitem with hitem | ⟨hmem, hsection, hoptions⟩
    · exact hold hitem
    · refine .inl ⟨?_, ?_⟩
      · rw [liesInSection_toStream]
        refine ⟨_, { options, opening, closing := parts.closing }, hsection, ?_, hoptions hkind⟩
        simp [Draft.joinedLines, sections_foldl_sort]
      · rw [(htraced.addsLexed_lines hparts).readAnew_iff]
        exact htraced.fresh _ (by simp [sectionTokens?_eq_some hparts, hmem])
  | @string opening rest line after parts around joined new quote newer earlier stop hne hparts
      hitems hnewer hquote hjoined hnew =>
    rcases mem_items_foldl_sort hitem with hitem | ⟨-, -, hfalse⟩
    · rw [hjoined] at hitem
      rcases List.mem_cons.mp hitem with rfl | hitem
      · cases hkind.symm.trans hnew.1
      · exact hold (by simp [hitems, hitem])
    · cases hfalse hkind

theorem ofSource_sorts (source : Source) :
    (Draft.read source {} (tokenize source)).Sorts source :=
  read_traced source (motive := fun draft _ => draft.Sorts source)
    (fun draft pending draft' pending' hstep htraced _ h => h.step hstep htraced)
    fun item hitem => by cases hitem

/-! ## The stream of a source -/

/-- A comment among the tokens lies in a section that does not leave comments out, unless its line
is read anew behind a block comment. Every comment of the lexer is kept or lies in such a section,
or its semicolon stands inside a string or another comment, but for two cases: it is on the line of
an opening parenthesis, or among the tokens of a line that is read anew. -/
theorem ofSource_comments_apart (source : Source) :
    (∀ item ∈ (ofSource source).items, item.token.kind = .comment →
      (ofSource source).LiesInSection item (·.options.comments = false) ∧
          ¬ReadAnew source (ofSource source).comments item.token.span ∨
        item.inSection = none ∧ ReadAnew source (ofSource source).comments item.token.span) ∧
    ∀ comment ∈ tokenize source, comment.kind = .comment →
      (∃ other ∈ (ofSource source).comments, comment.Matches other) ∨
      (∃ item ∈ (ofSource source).items, item.token = comment ∧
        (ofSource source).LiesInSection item (·.options.comments = false)) ∨
      (∃ other, (other ∈ (ofSource source).tokens ∨ other ∈ (ofSource source).comments) ∧
        other.Swallows comment.span.start) ∨
      OnOpeningLine (ofSource source) comment ∨
      ∃ item ∈ (ofSource source).items, item.inSection = none ∧ comment.Matches item.token ∧
        ReadAnew source (ofSource source).comments comment.span := by
  refine ⟨fun item hitem hkind => ?_, fun comment hcomment hkind => ?_⟩
  · rw [readAnew_ofSource]
    exact ofSource_sorts source item (mem_items_toStream.mp hitem) hkind
  · cases ofSource_fate hcomment hkind with
    | kept hother hmatches => exact .inl ⟨_, hother, hmatches⟩
    | listed hitem htoken hsection => exact .inr (.inl ⟨_, hitem, htoken, hsection⟩)
    | hidden hmem hblock hswallows => exact .inr (.inr (.inl ⟨_, .inr hmem, hswallows⟩))
    | joined hinside =>
      obtain ⟨item, hitem, hstring, -, hstart, hstop⟩ := hinside
      have hlt := ((Token.tokenize_ordered source).1 comment hcomment).lt
      refine .inr (.inr (.inl ⟨item.token, .inl ?_, .inl hstring, hstart, by omega⟩))
      exact mem_tokens_toStream.mpr ⟨item, mem_items_toStream.mp hitem, rfl⟩
    | dropped hline => exact .inr (.inr (.inr (.inl hline)))
    | left hitem hsection hmatches hline =>
      exact .inr (.inr (.inr (.inr ⟨_, hitem, hsection, hmatches, hline⟩)))
    | swallowed hother hswallows hline => exact .inr (.inr (.inl ⟨_, hother, hswallows⟩))

/-- A comment in a section that does not leave comments out, and one that is kept. -/
theorem ofSource_comments_apart_section :
    let source := "x =\n(\na ;b\n) ;c".toList
    ∃ item ∈ (ofSource source).items, item.token.kind = .comment ∧ item.token.text = ";b" ∧
      (ofSource source).LiesInSection item (·.options.comments = false) := by
  intro source
  have hmem : ∃ item ∈ (ofSource source).items, item.token.kind = .comment ∧
      item.token.text = ";b" ∧ ¬ReadAnew source (ofSource source).comments item.token.span := by
    decide +kernel
  obtain ⟨item, hitem, hkind, htext, hanew⟩ := hmem
  have hcases := (ofSource_comments_apart source).1 item hitem hkind
  exact ⟨item, hitem, hkind, htext, (hcases.resolve_right fun h => hanew h.2).1⟩

/-- A comment on a line that is read anew reaches the grammar, and one on the line of an opening
parenthesis is lost. -/
theorem ofSource_comments_misplaced :
    (∃ item ∈ (ofSource "/*a*/= ;c".toList).items, item.token.kind = .comment ∧
      item.inSection = none) ∧
    ∃ comment ∈ tokenize "x =\n( ;c\na\n)".toList, comment.kind = .comment ∧
      comment ∉ (ofSource "x =\n( ;c\na\n)".toList).tokens ∧
      comment ∉ (ofSource "x =\n( ;c\na\n)".toList).comments := by
  decide +kernel

/-- No comment is lost. A comment of the lexer that overlaps no block comment, and is not on the
line of an opening parenthesis, is among the tokens or the comments of the stream, or it lies inside
a string that a section carries on; or its line is read anew, and there its semicolon stands inside
a string or inside another comment. -/
theorem ofSource_accounts (source : Source) (comment : Token) (h : comment ∈ tokenize source)
    (hkind : comment.kind = .comment)
    (hblock : ∀ block ∈ (ofSource source).comments, IsBlock block →
      ¬(block.span.start < comment.span.stop ∧ comment.span.start < block.span.stop))
    (hopening : ¬OnOpeningLine (ofSource source) comment) :
    (∃ other, (other ∈ (ofSource source).tokens ∨ other ∈ (ofSource source).comments) ∧
      comment.Matches other) ∨
    InContinued (ofSource source) comment ∨
    LineReadAnew (ofSource source) comment ∧
      ∃ other, (other ∈ (ofSource source).tokens ∨ other ∈ (ofSource source).comments) ∧
        other.Swallows comment.span.start := by
  have hmem : ∀ {item : Item}, item ∈ (ofSource source).items →
      item.token ∈ (ofSource source).tokens := fun hitem =>
    mem_tokens_toStream.mpr ⟨_, mem_items_toStream.mp hitem, rfl⟩
  cases ofSource_fate h hkind with
  | kept hother hmatches => exact .inl ⟨_, .inr hother, hmatches⟩
  | listed hitem htoken hsection =>
    exact .inl ⟨_, .inl (hmem hitem), by rw [htoken]; exact .refl comment⟩
  | hidden hcomment hisBlock hswallows =>
    have hlt := ((Token.tokenize_ordered source).1 comment h).lt
    obtain ⟨-, hstart, hstop⟩ := hswallows
    exact absurd ⟨by omega, hstop⟩ (hblock _ hcomment hisBlock)
  | joined hinside => exact .inr (.inl hinside)
  | dropped hline => exact absurd hline hopening
  | left hitem hsection hmatches hline => exact .inl ⟨_, .inl (hmem hitem), hmatches⟩
  | swallowed hother hswallows hline => exact .inr (.inr ⟨hline, _, hother, hswallows⟩)

/-- A string that is closed inside a comment, with a comment of the section before it. -/
theorem ofSource_accounts_string :
    let source := "x := \"a\n(\nb ;c\n) ;d\" e".toList
    ∃ comment ∈ tokenize source, comment.text = ";d\" e" ∧
      ((∃ other, (other ∈ (ofSource source).tokens ∨ other ∈ (ofSource source).comments) ∧
        comment.Matches other) ∨
      InContinued (ofSource source) comment ∨
      LineReadAnew (ofSource source) comment ∧
        ∃ other, (other ∈ (ofSource source).tokens ∨ other ∈ (ofSource source).comments) ∧
          other.Swallows comment.span.start) := by
  intro source
  have hmem : ∃ comment ∈ tokenize source, comment.text = ";d\" e" ∧ comment.kind = .comment ∧
      (∀ block ∈ (ofSource source).comments, IsBlock block →
        ¬(block.span.start < comment.span.stop ∧ comment.span.start < block.span.stop)) ∧
      ∀ around ∈ (ofSource source).sections.toList, around.literal.isSome = true := by
    decide +kernel
  obtain ⟨comment, hcomment, htext, hkind, hblock, hsections⟩ := hmem
  refine ⟨comment, hcomment, htext, ofSource_accounts source comment hcomment hkind hblock ?_⟩
  rintro ⟨around, haround, hnone, -⟩
  have hsome := hsections around haround.val
  rw [hnone] at hsome
  cases hsome

/-- The comment behind the section is neither among the tokens nor among the comments, and it lies
inside no token: the string that is closed inside of it ends before it does. -/
theorem ofSource_splits_comment :
    let source := "x := \"a\n(\nb\n) ;c\" d".toList
    ∃ comment ∈ tokenize source, comment.kind = .comment ∧
      (∀ block ∈ (ofSource source).comments, ¬IsBlock block) ∧
      (∀ other ∈ (ofSource source).comments, other.span.start ≠ comment.span.start) ∧
      ∀ other ∈ (ofSource source).tokens, other.span.start ≠ comment.span.start ∧
        ¬(other.span.start ≤ comment.span.start ∧ comment.span.stop ≤ other.span.stop) := by
  decide +kernel

end HotkeyScript.Stream
