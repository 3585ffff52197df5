import HotkeyScript.Proofs.Stream.Comments

/-!
# Where tokens come from

Whatever the pass over the tokens does, it only hands on what the lexer reads, from a source or from
the rest of a line. There are two exceptions, and both may run over several lines: a string that a
section carries on, and a block comment. No block comment ends inside of a token on one line.

## Main definitions

* `Stream.FromLexer` — an item is a token of the lexer, or a string that a section carries on.
* `Stream.Draft.Contributes` — what an item behind a step of the pass can be.
* `Stream.Draft.Clears` — the tokens of a draft keep clear of its block comments.
-/

namespace HotkeyScript.Stream

open Source (BreakBetween IsBoundary byteLength mark)
open Text (Unbroken)
open Token (Cut Lexed)

variable {source : Source} {draft draft' : Draft} {pending pending' : List Token} {item : Item}
  {comment token : Token}

/-- The item is a token of the lexer, or a string that a section carries on. -/
def FromLexer (stream : Stream) (item : Item) : Prop :=
  Lexed stream.source item.token ∨
    item.token.kind = .string ∧ stream.LiesInSection item (·.literal.isSome = true)

/-- An item keeps its origin in a step. -/
theorem FromLexer.step (h : FromLexer (draft.toStream source) item)
    (hstep : draft.Step source pending draft' pending') :
    FromLexer (draft'.toStream source) item :=
  h.imp_right fun ⟨hkind, hsection⟩ => ⟨hkind, hstep.liesInSection hsection⟩

/-- What an item behind a step can be. -/
inductive Draft.Contributes (draft draft' : Draft) (source : Source) (item : Item) : Prop where
  /-- It is an item of the draft before the step. -/
  | kept (hitem : item ∈ draft.items)
  /-- It is a token of the lexer behind the mark and behind all block comments. -/
  | lexed (hlexed : Lexed source item.token)
    (hmark : byteLength (mark source) ≤ item.token.span.start)
    (hblocks : ∀ comment ∈ draft'.comments, IsBlock comment →
      comment.span.stop ≤ item.token.span.start)
  /-- It is a string that a section carries on, and starts where an item of the draft did. -/
  | continued (hkind : item.token.kind = .string)
    (hsection : (draft'.toStream source).LiesInSection item (·.literal.isSome = true))
    {quote : Item} (hquote : quote ∈ draft.items)
    (hstart : item.token.span.start = quote.token.span.start)

theorem Draft.Step.contributes (hstep : draft.Step source pending draft' pending')
    (h : draft.Traced source pending) (hitem : item ∈ draft'.items) :
    draft.Contributes draft' source item := by
  have hmark : ∀ token ∈ pending, byteLength (mark source) ≤ token.span.start :=
    fun token htoken => (Token.tokenize_located (h.mem htoken)).behind
  have hlexed : ∀ token ∈ pending, Lexed source token :=
    fun token htoken => Token.tokenize_lexed (h.mem htoken)
  -- all block comments lie before the tokens that are left, unless the step adds one
  have hblocks : AddsLexed draft.comments draft'.comments → ∀ token ∈ pending,
      ∀ comment ∈ draft'.comments, IsBlock comment → comment.span.stop ≤ token.span.start := by
    rintro ⟨added, hadded, hnone⟩ token htoken comment hcomment hblock
    rw [hadded] at hcomment
    rcases List.mem_append.mp hcomment with hcomment | hcomment
    · exact absurd hblock (hnone comment hcomment)
    · exact h.stop_le (.inr hcomment) token htoken
  cases hstep with
  | @emit token rest hkind =>
    rcases List.mem_cons.mp hitem with rfl | hitem
    · exact .lexed (hlexed token List.mem_cons_self) (hmark token List.mem_cons_self)
        (hblocks ⟨[], rfl, List.forall_mem_nil _⟩ token List.mem_cons_self)
    · exact .kept hitem
  | comment | block => exact .kept hitem
  | @blockInside slash last hidden line after hkind hblock hstop hboundary =>
    rcases mem_items_foldl_sort hitem with hitem | ⟨htoken, -⟩
    · exact .kept hitem
    have hle := ((Token.tokenizeLine_ordered hboundary _ _).1 _ htoken).2.1
    have hslash := ((Token.tokenize_ordered source).1 slash (h.mem List.mem_cons_self)).lt
    have hfirst := hmark slash List.mem_cons_self
    refine .lexed (Token.tokenizeLine_lexed hboundary htoken) (by omega) ?_
    intro comment hcomment _
    rw [comments_foldl_sort_eq] at hcomment
    rcases List.mem_append.mp hcomment with hcomment | hcomment
    · simp at hcomment
    rcases List.mem_cons.mp hcomment with rfl | hcomment
    · exact hle
    · have := h.stop_le (.inr hcomment) slash List.mem_cons_self
      omega
  | @lines opening rest parts options hkind hparts =>
    rcases mem_items_foldl_sort hitem with hitem | ⟨htoken, -⟩
    · exact .kept hitem
    have hmem : item.token ∈ opening :: rest := by simp [sectionTokens?_eq_some hparts, htoken]
    exact .lexed (hlexed _ hmem) (hmark _ hmem) (hblocks (h.addsLexed_lines hparts) _ hmem)
  | @string opening rest line after parts around joined new quote newer earlier stop hkind hparts
      hsplit hnewer hquote hjoined hnew hsections haround hcomments hstop hboundary =>
    have hadds := hblocks (h.addsLexed_string hparts hcomments hboundary _ _)
    rcases mem_items_foldl_sort hitem with hitem | ⟨htoken, -⟩
    · rw [hjoined] at hitem
      rcases List.mem_cons.mp hitem with rfl | hitem
      · refine .continued hnew.1 ?_ (show quote ∈ draft.items by simp [hsplit]) ?_
        · rw [liesInSection_toStream, sections_foldl_sort, hsections]
          exact ⟨_, around, hnew.2.2, getElem?_reverse_cons_length, haround.2.2⟩
        · rw [hnew.2.1, Span.to_start]
      · exact .kept (by simp [hsplit, hitem])
    · have hclosing : parts.closing ∈ opening :: rest := by simp [sectionTokens?_eq_some hparts]
      have hlt := ((Token.tokenize_ordered source).1 parts.closing (h.mem hclosing)).lt
      have hle := ((Token.tokenizeLine_ordered hboundary _ _).1 _ htoken).2.1
      have hfirst := hmark parts.closing hclosing
      refine .lexed (Token.tokenizeLine_lexed hboundary htoken) (by omega)
        fun comment hcomment hblock => ?_
      have := hadds parts.closing hclosing comment hcomment hblock
      omega

/-- The items of a step are those before it, tokens of the lexer, and a string that a section
carries on. -/
theorem Draft.Step.fromLexer (hstep : draft.Step source pending draft' pending')
    (h : draft.Traced source pending)
    (hitems : ∀ item ∈ draft.items, FromLexer (draft.toStream source) item) :
    ∀ item ∈ draft'.items, FromLexer (draft'.toStream source) item := by
  intro item hitem
  cases hstep.contributes h hitem with
  | kept hitem => exact (hitems item hitem).step hstep
  | lexed hlexed => exact .inl hlexed
  | continued hkind hsection => exact .inr ⟨hkind, hsection⟩

/-- The comments of a step are those before it, comments of the lexer, and block comments. -/
theorem Draft.Step.comments_fromLexer (hstep : draft.Step source pending draft' pending')
    (h : draft.Traced source pending)
    (hcomments : ∀ comment ∈ draft.comments, Lexed source comment ∨ IsBlock comment) :
    ∀ comment ∈ draft'.comments, Lexed source comment ∨ IsBlock comment := by
  have hlexed : ∀ token ∈ pending, Lexed source token :=
    fun token htoken => Token.tokenize_lexed (h.mem htoken)
  cases hstep with
  | emit hkind => exact hcomments
  | comment hkind =>
    exact List.forall_mem_cons.mpr ⟨.inl (hlexed _ List.mem_cons_self), hcomments⟩
  | block hkind hblock => exact List.forall_mem_cons.mpr ⟨.inr hblock, hcomments⟩
  | blockInside hkind hblock =>
    rw [comments_foldl_sort_eq]
    simpa [Draft.comment, hblock] using hcomments
  | lines hkind hparts =>
    intro comment hcomment
    simp only [Draft.joinedLines, comments_foldl_sort_eq, List.mem_append, List.mem_reverse,
      List.mem_filter] at hcomment
    rcases hcomment with ⟨hinner, -⟩ | hcomment
    · exact .inl (hlexed _ (by simp [sectionTokens?_eq_some hparts, hinner]))
    · exact hcomments comment hcomment
  | string hkind hparts hsplit hnewer hquote hjoined hnew hsections haround hkept hstop hboundary =>
    intro comment hcomment
    simp only [comments_foldl_sort_eq, hkept, List.mem_append, List.mem_reverse,
      List.mem_filter] at hcomment
    rcases hcomment with ⟨hline, -⟩ | ⟨hinner, -⟩ | hcomment
    · exact .inl (Token.tokenizeLine_lexed hboundary hline)
    · exact .inl (hlexed _ (by simp [sectionTokens?_eq_some hparts, hinner]))
    · exact hcomments comment hcomment

/-- The tokens of a stream come from the lexer, but for strings that sections carry on. -/
theorem ofSource_fromLexer (source : Source) :
    ∀ item ∈ (ofSource source).items, FromLexer (ofSource source) item := by
  intro item hitem
  refine read_traced source (motive := fun draft _ => ∀ item ∈ draft.items,
    FromLexer (draft.toStream source) item) ?_ (List.forall_mem_nil _) item
    (mem_items_toStream.mp hitem)
  intro draft pending draft' pending' hstep htraced _ hitems
  exact hstep.fromLexer htraced hitems

/-! ## Strings that sections carry on -/

/-- There is a line break between the parentheses of a section. -/
theorem Draft.Step.breaks (hstep : draft.Step source pending draft' pending')
    (h : draft.Traced source pending)
    (hbreaks : ∀ around ∈ draft.sections,
      BreakBetween source around.opening.span.start around.closing.span.stop) :
    ∀ around ∈ draft'.sections,
      BreakBetween source around.opening.span.start around.closing.span.stop := by
  obtain ⟨bound, -, hpending⟩ := h.sound
  have hnew : ∀ {opening rest parts}, pending = opening :: rest →
      sectionTokens? opening rest = some parts →
        BreakBetween source opening.span.start parts.closing.span.stop := by
    rintro opening rest parts rfl hparts
    have hclosing := (hpending.sectionTokens hparts).2.2.cut
    exact (hpending.break_before_closing hparts).mono (Nat.le_of_lt hpending.cut.lt)
      (Nat.le_of_lt hclosing.lt)
  cases hstep with
  | emit | comment | block => exact hbreaks
  | blockInside =>
    rw [sections_foldl_sort]
    exact hbreaks
  | lines hkind hparts =>
    rw [Draft.joinedLines, sections_foldl_sort]
    exact List.forall_mem_cons.mpr ⟨hnew rfl hparts, hbreaks⟩
  | string hkind hparts hitems hnewer hquote hjoined hitem hsections haround =>
    rw [sections_foldl_sort, hsections]
    refine List.forall_mem_cons.mpr ⟨?_, hbreaks⟩
    rw [haround.1, haround.2.1]
    exact hnew rfl hparts

theorem ofSource_breaks (source : Source) : ∀ around ∈ (ofSource source).sections,
    BreakBetween source around.opening.span.start around.closing.span.stop := by
  intro around haround
  refine read_traced source (motive := fun draft _ => ∀ around ∈ draft.sections,
    BreakBetween source around.opening.span.start around.closing.span.stop) ?_
    (List.forall_mem_nil _) around (mem_sections_toStream.mp haround)
  intro draft pending draft' pending' hstep htraced _ hbreaks
  exact hstep.breaks htraced hbreaks

theorem ofSource_cut_of_mem (hitem : item ∈ (ofSource source).items) : Cut source item.token := by
  obtain ⟨p, hp⟩ := Array.mem_iff_getElem?.mp hitem
  have htoken : (ofSource source).token? p = some item.token := by simp [token?, hp]
  exact ofSource_cut htoken

theorem ofSource_cut_of_mem_comments (hcomment : comment ∈ (ofSource source).comments) :
    Cut source comment := by
  obtain ⟨bound, -, hcomments⟩ := ofSource_sound source
  exact (hcomments.1 comment (mem_comments_ofSource.mp hcomment)).1

/-- The tokens of a stream lie on one line each, but for strings that sections carry on. -/
theorem ofSource_unbroken_iff (hitem : item ∈ (ofSource source).items) :
    Unbroken item.token.text.toList ↔
      ¬(ofSource source).LiesInSection item (·.literal.isSome = true) := by
  constructor
  · rintro hunbroken ⟨j, around, hmark, haround, hliteral⟩
    obtain ⟨other, hother, hlies⟩ := ofSource_lies hitem hmark
    cases haround.symm.trans hother
    obtain ⟨literal, hliteral⟩ := Option.isSome_iff_exists.mp hliteral
    simp only [Item.LiesIn, hliteral] at hlies
    have hbreak := (ofSource_breaks source around (Array.mem_of_getElem? haround)).mono
      (Nat.le_of_lt hlies.2.1) (Nat.le_of_lt hlies.2.2)
    have hcut := ofSource_cut_of_mem hitem
    obtain ⟨before, text, after, hsource, hstart, hstop, hslice⟩ :=
      hcut.start.split hcut.stop (Nat.le_of_lt hcut.lt)
    refine hbreak.not_unbroken hsource (Nat.le_of_eq hstart.symm) (Nat.le_of_eq hstop) ?_
    rwa [hcut.text, hslice, String.toList_ofList] at hunbroken
  · intro hcontinued
    rcases ofSource_fromLexer source item hitem with hlexed | ⟨-, hsection⟩
    · exact hlexed.unbroken
    · exact absurd hsection hcontinued

/-! ## Block comments beside tokens -/

/-- The tokens of the draft lie behind the mark. A block comment that ends before a token does ends
before the token starts, unless the token is a string that a section carries on. -/
structure Draft.Clears (draft : Draft) (source : Source) : Prop where
  behind : ∀ item ∈ draft.items, byteLength (mark source) ≤ item.token.span.start
  clear : ∀ item ∈ draft.items,
    (draft.toStream source).LiesInSection item (·.literal.isSome = true) ∨
      ∀ comment ∈ draft.comments, IsBlock comment →
        comment.span.stop ≤ item.token.span.start ∨ item.token.span.stop < comment.span.stop

theorem Draft.Clears.step (h : draft.Clears source)
    (hstep : draft.Step source pending draft' pending') (htraced : draft.Traced source pending) :
    draft'.Clears source := by
  refine ⟨fun item hitem => ?_, fun item hitem => ?_⟩
  · cases hstep.contributes htraced hitem with
    | kept hitem => exact h.behind item hitem
    | lexed hlexed hmark hblocks => exact hmark
    | continued hkind hsection hquote hstart => exact hstart ▸ h.behind _ hquote
  · cases hstep.contributes htraced hitem with
    | kept hitem =>
      refine (h.clear item hitem).imp hstep.liesInSection fun hclear comment hcomment hblock => ?_
      rcases hstep.comments_cases htraced with
        ⟨added, hadded, hnone⟩ | ⟨slash, hslash, hlt, hadded, -⟩
      · rw [hadded] at hcomment
        rcases List.mem_append.mp hcomment with hcomment | hcomment
        · exact absurd hblock (hnone comment hcomment)
        · exact hclear comment hcomment hblock
      · rw [hadded] at hcomment
        rcases List.mem_cons.mp hcomment with rfl | hcomment
        · have hle := htraced.stop_le (.inl (List.mem_map_of_mem hitem)) slash hslash
          exact .inr (Nat.lt_of_le_of_lt hle hlt)
        · exact hclear comment hcomment hblock
    | lexed hlexed hmark hblocks =>
      exact .inr fun comment hcomment hblock => .inl (hblocks comment hcomment hblock)
    | continued hkind hsection => exact .inl hsection

theorem ofSource_clears (source : Source) :
    (Draft.read source {} (Token.tokenize source)).Clears source :=
  read_traced source (motive := fun draft _ => draft.Clears source)
    (fun _ _ _ _ hstep htraced _ h => h.step hstep htraced)
    ⟨List.forall_mem_nil _, List.forall_mem_nil _⟩

/-- The tokens of a stream lie behind the mark. -/
theorem ofSource_behind (hitem : item ∈ (ofSource source).items) :
    byteLength (mark source) ≤ item.token.span.start :=
  (ofSource_clears source).behind item (mem_items_toStream.mp hitem)

/-- Right behind a token on one line the line is read anew exactly if it is at the token. -/
theorem readAnew_stop_iff {span : Span} (hitem : item ∈ (ofSource source).items)
    (hunbroken : Unbroken item.token.text.toList) (hline : span.line = item.token.span.line)
    (hstart : span.start = item.token.span.stop) :
    ReadAnew source (ofSource source).comments span ↔
      ReadAnew source (ofSource source).comments item.token.span := by
  have hclear := (ofSource_clears source).clear item (mem_items_toStream.mp hitem)
  have hlt := (ofSource_cut_of_mem hitem).lt
  constructor
  · rintro ⟨comment, hcomment, hblock, hle, hanew⟩
    have hapart := hclear.resolve_left ((ofSource_unbroken_iff hitem).mp hunbroken) comment
      (mem_comments_toStream.mp hcomment) hblock
    exact ⟨comment, hcomment, hblock, by omega, by rwa [← hline]⟩
  · rintro ⟨comment, hcomment, hblock, hle, hanew⟩
    exact ⟨comment, hcomment, hblock, by omega, by rwa [hline]⟩

/-- The comments of a stream come from the lexer, but for block comments. -/
theorem ofSource_comments_fromLexer (source : Source) :
    ∀ comment ∈ (ofSource source).comments, Lexed source comment ∨ IsBlock comment := by
  intro comment hcomment
  refine read_traced source (motive := fun draft _ => ∀ comment ∈ draft.comments,
    Lexed source comment ∨ IsBlock comment) ?_ (List.forall_mem_nil _) comment
    (mem_comments_toStream.mp hcomment)
  intro draft pending draft' pending' hstep htraced _ hcomments
  exact hstep.comments_fromLexer htraced hcomments

/-- A token of the stream that is no string comes from the lexer. -/
theorem lexed_of_token? {p : Nat} (h : (ofSource source).token? p = some token)
    (hkind : token.kind ≠ .string) : Lexed source token := by
  obtain ⟨item, hitem, rfl⟩ := Option.map_eq_some_iff.mp h
  rcases ofSource_fromLexer source item (Array.mem_of_getElem? hitem) with hlexed | ⟨hstring, -⟩
  · exact hlexed
  · exact absurd hstring hkind

end HotkeyScript.Stream
