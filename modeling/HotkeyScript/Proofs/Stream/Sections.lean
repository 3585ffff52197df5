import HotkeyScript.Proofs.Stream.Order

/-!
# Sections and their tokens

A token of the stream may be marked with a continuation section, by the index of the section. The
sections come in the order of the source and do not overlap, and a mark says how the token lies to
its section: between the parentheses, or over both of them if it is a string that the section
carries on. There is exactly one such string.

A later section may take tokens back out of the stream to join them to a string. It stops at the
first token that is marked, so a mark stays where it is once it is set.

## Main definitions

* `Stream.Item.LiesIn` — how a token lies to the section that it is marked with.
* `Stream.Past` — sections one behind the other, before the tokens that are left.
* `Stream.Marked` — the marks of tokens belong to the sections.
-/

namespace HotkeyScript.Stream

open Source (BreakBetween)
open Token (Cut)

/-- The tokens of a stream in order, without their marks. -/
def tokens (stream : Stream) : List Token :=
  stream.items.toList.map (·.token)

/-- The marks of the tokens of a stream: whether they start a line, and the index of their
section. -/
def marks (stream : Stream) : List (Bool × Option Nat) :=
  stream.items.toList.map fun item => (item.startsLine, item.inSection)

/-- Each token has its marks. This is so by construction, since an item holds a token together with
its marks. -/
@[simp] theorem length_marks (stream : Stream) : stream.marks.length = stream.tokens.length := by
  simp [marks, tokens]

variable {source : Source} {bound j : Nat} {draft : Draft} {token : Token}
  {tokens after : List Token} {around other : Section} {sections : List Section}
  {item : Item} {items newer : List Item}

/-- How a token lies to the section that it is marked with. In a section whose lines are tokens of
their own it stands between the parentheses and starts no line. A string that the section carries on
reaches over both parentheses. -/
def Item.LiesIn (item : Item) (around : Section) : Prop :=
  match around.literal with
  | none =>
    item.startsLine = false ∧ around.opening.span.stop ≤ item.token.span.start ∧
      item.token.span.stop ≤ around.closing.span.start
  | some _ =>
    item.token.kind = .string ∧ item.token.span.start < around.opening.span.start ∧
      around.closing.span.stop < item.token.span.stop

/-! ## The order of sections -/

/-- The sections, latest first, lie one behind the other, and before the tokens that are left. -/
structure Past (sections : List Section) (tokens : List Token) : Prop where
  proper : ∀ around ∈ sections, around.opening.span.stop ≤ around.closing.span.start
  ordered : sections.Pairwise fun later earlier =>
    earlier.closing.span.stop ≤ later.opening.span.start
  ahead : ∀ around ∈ sections, ∀ token ∈ tokens, around.closing.span.stop ≤ token.span.start

theorem past_nil : Past [] tokens :=
  ⟨List.forall_mem_nil _, .nil, List.forall_mem_nil _⟩

theorem Past.sublist (h : Past sections tokens) (hsub : after.Sublist tokens) :
    Past sections after := by
  refine ⟨h.proper, h.ordered, ?_⟩
  intro around haround token htoken
  exact h.ahead around haround token (hsub.subset htoken)

/-- A section that starts with the next token is past for the tokens behind it. -/
theorem Past.cons (h : Past sections (around.opening :: tokens)) (hafter : after.Sublist tokens)
    (hproper : around.opening.span.stop ≤ around.closing.span.start)
    (hahead : ∀ token ∈ after, around.closing.span.stop ≤ token.span.start) :
    Past (around :: sections) after := by
  have hrest := h.sublist (hafter.trans (List.sublist_cons_self _ _))
  refine ⟨List.forall_mem_cons.mpr ⟨hproper, h.proper⟩, ?_,
    List.forall_mem_cons.mpr ⟨hahead, hrest.ahead⟩⟩
  refine List.pairwise_cons.mpr ⟨?_, h.ordered⟩
  intro other hother
  exact h.ahead other hother _ List.mem_cons_self

/-! ## Marks -/

/-- How many tokens are marked with the section of an index. -/
def marksOf (items : List Item) (j : Nat) : Nat :=
  items.countP (·.inSection == some j)

/-- Each mark leads to a section in which its token lies, and each string that a section carries on
is there once. The sections come latest first, so an index counts from the end. -/
structure Marked (items : List Item) (sections : List Section) : Prop where
  lies : ∀ item ∈ items, ∀ j, item.inSection = some j →
    ∃ around, sections.reverse[j]? = some around ∧ item.LiesIn around
  single : ∀ j around, sections.reverse[j]? = some around → around.literal.isSome = true →
    marksOf items j = 1

theorem marked_nil : Marked [] [] :=
  ⟨List.forall_mem_nil _, by simp⟩

theorem marksOf_cons (item : Item) (items : List Item) (j : Nat) :
    marksOf (item :: items) j =
      marksOf items j + if item.inSection = some j then 1 else 0 := by
  simp [marksOf, List.countP_cons]

/-- Tokens without a mark do not count. -/
theorem marksOf_append (hnewer : ∀ item ∈ newer, item.inSection = none) (j : Nat) :
    marksOf (newer ++ items) j = marksOf items j := by
  have hzero : newer.countP (·.inSection == some j) = 0 := by
    refine List.countP_eq_zero.mpr ?_
    intro item hitem
    simp [hnewer item hitem]
  simp [marksOf, hzero]

theorem getElem?_reverse_cons (h : sections.reverse[j]? = some around) :
    (other :: sections).reverse[j]? = some around := by
  obtain ⟨hlt, -⟩ := List.getElem?_eq_some_iff.mp h
  rw [List.reverse_cons, List.getElem?_append_left hlt, h]

theorem getElem?_reverse_cons_length :
    (around :: sections).reverse[sections.length]? = some around := by
  simp

/-- An index of the sections is an old one or that of the latest section. -/
theorem getElem?_reverse_cons_eq_some (h : (other :: sections).reverse[j]? = some around) :
    sections.reverse[j]? = some around ∨ j = sections.length ∧ around = other := by
  rw [List.reverse_cons, List.getElem?_append] at h
  split at h
  · exact .inl h
  · next hlength =>
    rw [List.getElem?_singleton] at h
    split at h
    · next hzero =>
      cases h
      rw [List.length_reverse] at hlength hzero
      exact .inr ⟨by omega, rfl⟩
    · cases h

theorem lt_length_of_getElem?_reverse (h : sections.reverse[j]? = some around) :
    j < sections.length := by
  simpa using (List.getElem?_eq_some_iff.mp h).1

theorem Marked.marksOf_eq_zero (h : Marked items sections) :
    marksOf items sections.length = 0 := by
  refine List.countP_eq_zero.mpr ?_
  intro item hitem hmark
  obtain ⟨around, haround, -⟩ := h.lies item hitem _ (beq_iff_eq.mp hmark)
  exact absurd (lt_length_of_getElem?_reverse haround) (Nat.lt_irrefl _)

/-- A token without a mark may be added. -/
theorem Marked.cons (h : Marked items sections) (hitem : item.inSection = none) :
    Marked (item :: items) sections := by
  refine ⟨List.forall_mem_cons.mpr ⟨?_, h.lies⟩, ?_⟩
  · intro j hj
    cases hitem.symm.trans hj
  · intro j around haround hliteral
    rw [marksOf_cons, h.single j around haround hliteral, hitem]
    rfl

/-- Tokens without a mark may be taken back. -/
theorem Marked.of_append (h : Marked (newer ++ items) sections)
    (hnewer : ∀ item ∈ newer, item.inSection = none) : Marked items sections := by
  refine ⟨fun item hitem => h.lies item (List.mem_append_right _ hitem), ?_⟩
  intro j around haround hliteral
  rw [← marksOf_append hnewer]
  exact h.single j around haround hliteral

/-- A section may be entered whose lines are tokens of their own. -/
theorem Marked.enter (h : Marked items sections) (hliteral : around.literal = none) :
    Marked items (around :: sections) := by
  refine ⟨?_, ?_⟩
  · intro item hitem j hj
    obtain ⟨other, hother, hlies⟩ := h.lies item hitem j hj
    exact ⟨other, getElem?_reverse_cons hother, hlies⟩
  · intro j other hother hsome
    rcases getElem?_reverse_cons_eq_some hother with hother | ⟨-, rfl⟩
    · exact h.single j other hother hsome
    · rw [hliteral] at hsome
      cases hsome

/-- A token that lies between the parentheses of a section may be added with its mark. -/
theorem Marked.cons_some (h : Marked items sections)
    (haround : sections.reverse[j]? = some around) (hliteral : around.literal = none)
    (hitem : item.inSection = some j) (hlies : item.LiesIn around) :
    Marked (item :: items) sections := by
  refine ⟨List.forall_mem_cons.mpr ⟨?_, h.lies⟩, ?_⟩
  · intro k hk
    cases hitem.symm.trans hk
    exact ⟨around, haround, hlies⟩
  · intro k other hother hsome
    have hne : ¬ item.inSection = some k := by
      intro hk
      cases hitem.symm.trans hk
      cases haround.symm.trans hother
      rw [hliteral] at hsome
      cases hsome
    rw [marksOf_cons, h.single k other hother hsome, if_neg hne]

/-- A string may be added together with the section that carries it on. -/
theorem Marked.join (h : Marked items sections) (hitem : item.inSection = some sections.length)
    (hlies : item.LiesIn around) : Marked (item :: items) (around :: sections) := by
  refine ⟨List.forall_mem_cons.mpr ⟨?_, ?_⟩, ?_⟩
  · intro j hj
    cases hitem.symm.trans hj
    exact ⟨around, getElem?_reverse_cons_length, hlies⟩
  · intro other hother j hj
    obtain ⟨section', hsection, hlies⟩ := h.lies other hother j hj
    exact ⟨section', getElem?_reverse_cons hsection, hlies⟩
  · intro j other hother hsome
    rcases getElem?_reverse_cons_eq_some hother with hother | ⟨rfl, rfl⟩
    · have hne : ¬ item.inSection = some j := by
        have := lt_length_of_getElem?_reverse hother
        rw [hitem, Option.some.injEq]
        omega
      rw [marksOf_cons, h.single j other hother hsome, if_neg hne]
    · rw [marksOf_cons, h.marksOf_eq_zero, if_pos hitem]

/-! ## Drafts -/

/-- The draft's sections are past and its tokens are marked with them. -/
structure Draft.Sectioned (draft : Draft) (tokens : List Token) : Prop where
  past : Past draft.sections tokens
  marked : Marked draft.items draft.sections

namespace Draft.Sectioned

theorem comment (h : draft.Sectioned tokens) (token : Token) :
    (draft.comment token).Sectioned tokens :=
  ⟨h.past, h.marked⟩

theorem sort (h : draft.Sectioned tokens) (apart : Bool) (token : Token) :
    (draft.sort apart none token).Sectioned tokens := by
  unfold Draft.sort
  split
  · exact h.comment token
  · exact ⟨h.past, h.marked.cons rfl⟩

theorem foldl_sort {added : List Token} (h : draft.Sectioned tokens) (apart : Bool) :
    (added.foldl (Draft.sort apart none) draft).Sectioned tokens := by
  induction added generalizing draft with
  | nil => exact h
  | cons token added ih => exact ih (h.sort apart token)

/-- Tokens between the parentheses of a section are added with its mark. -/
theorem foldl_sort_some {inner : List Token} (h : draft.Sectioned tokens)
    (haround : draft.sections.reverse[j]? = some around) (hliteral : around.literal = none)
    (hopening : ∀ token ∈ inner, around.opening.span.stop ≤ token.span.start)
    (hclosing : ∀ token ∈ inner, token.span.stop ≤ around.closing.span.start) (apart : Bool) :
    (inner.foldl (Draft.sort apart (some j)) draft).Sectioned tokens := by
  induction inner generalizing draft with
  | nil => exact h
  | cons token inner ih =>
    obtain ⟨hopening, hopening'⟩ := List.forall_mem_cons.mp hopening
    obtain ⟨hclosing, hclosing'⟩ := List.forall_mem_cons.mp hclosing
    rw [List.foldl_cons, Draft.sort]
    split
    · exact ih (h.comment token) haround hopening' hclosing'
    · have hlies : Item.LiesIn { token, startsLine := false, inSection := some j } around := by
        simp only [Item.LiesIn, hliteral]
        exact ⟨trivial, hopening, hclosing⟩
      have hemit : (draft.emit (some j) token).Sectioned tokens :=
        ⟨h.past, h.marked.cons_some haround hliteral rfl hlies⟩
      exact ih hemit haround hopening' hclosing'

theorem blockComment {slash : Token} {rest : List Token} (h : draft.Sectioned (slash :: rest)) :
    (draft.blockComment source slash rest).1.Sectioned
      (draft.blockComment source slash rest).2 := by
  have hdrop : ∀ p : Token → Bool, (rest.dropWhile p).Sublist (slash :: rest) :=
    fun p => (List.dropWhile_sublist p).trans (List.sublist_cons_self _ _)
  simp only [Draft.blockComment]
  split
  · refine foldl_sort (Draft.Sectioned.comment ⟨h.past.sublist ?_, h.marked⟩ _) false
    exact (List.dropWhile_sublist _).trans (hdrop _)
  · exact ⟨h.past.sublist (hdrop _), h.marked⟩

end Draft.Sectioned

/-- The parentheses of a section lie around its inner tokens and before the tokens behind it. -/
theorem Pending.section_bounds {opening : Token} {rest : List Token} {parts : SectionTokens}
    (h : Pending source bound (opening :: rest))
    (hparts : sectionTokens? opening rest = some parts) :
    opening.span.stop ≤ parts.closing.span.start ∧
      (∀ token ∈ parts.inner, opening.span.stop ≤ token.span.start) ∧
      (∀ token ∈ parts.after, parts.closing.span.stop ≤ token.span.start) ∧
      parts.after.Sublist rest := by
  have hrest := sectionTokens?_eq_some hparts
  obtain ⟨-, -, hclosing⟩ := h.sectionTokens hparts
  have hopening := (List.pairwise_cons.mp h.2).1
  rw [hrest] at hopening ⊢
  refine ⟨(hopening _ (by simp)).1,
    fun token htoken => (hopening token (by simp [htoken])).1, ?_, ?_⟩
  · intro token htoken
    exact ((List.pairwise_cons.mp hclosing.2).1 token htoken).1
  · exact ((List.sublist_cons_self _ _).trans (List.sublist_append_right _ _)).trans
      (List.sublist_append_right _ _)

/-- The closing parenthesis of a section is on a line below the opening one. -/
theorem Pending.break_before_closing {opening : Token} {rest : List Token} {parts : SectionTokens}
    (h : Pending source bound (opening :: rest))
    (hparts : sectionTokens? opening rest = some parts) :
    BreakBetween source opening.span.stop parts.closing.span.start := by
  simp only [sectionTokens?] at hparts
  split at hparts
  · cases hparts
  split at hparts
  · cases hparts
  · next closing after hclosing =>
    cases hparts
    have hsub := List.dropWhile_sublist (l := rest) (·.span.line == opening.span.line)
    have hmem : closing ∈ rest.dropWhile (·.span.line == opening.span.line) :=
      (List.dropWhile_sublist _).subset (hclosing ▸ List.mem_cons_self)
    have hordered := h.tail.2.sublist hsub
    have hopening := (List.pairwise_cons.mp h.2).1
    have hline := List.head?_dropWhile_not (·.span.line == opening.span.line) rest
    cases hbody : rest.dropWhile (·.span.line == opening.span.line) with
    | nil =>
      rw [hbody] at hmem
      cases hmem
    | cons first body =>
      rw [hbody] at hmem hline hordered hsub
      have hbreak := (hopening first (hsub.subset List.mem_cons_self)).2 (by simpa using hline)
      refine hbreak.mono (Nat.le_refl _) ?_
      rcases List.mem_cons.mp hmem with rfl | hmem
      · exact Nat.le_refl _
      · have hlt := (h.1 first (List.mem_cons_of_mem _ (hsub.subset List.mem_cons_self))).1.lt
        have hle := ((List.pairwise_cons.mp hordered).1 closing hmem).1
        exact Nat.le_trans (Nat.le_of_lt hlt) hle

theorem Draft.Sectioned.joinedLines {options : Section.Options} {opening : Token}
    {rest : List Token} {parts : SectionTokens} (h : draft.Sectioned (opening :: rest))
    (hpending : Pending source bound (opening :: rest))
    (hparts : sectionTokens? opening rest = some parts) :
    (draft.joinedLines options opening parts).1.Sectioned
      (draft.joinedLines options opening parts).2 := by
  obtain ⟨-, hclosing, -⟩ := hpending.sectionTokens hparts
  obtain ⟨hproper, hopening, hahead, hafter⟩ := hpending.section_bounds hparts
  have hentered : Draft.Sectioned
      { draft with
        sections := { options, opening, closing := parts.closing } :: draft.sections }
      parts.after :=
    ⟨h.past.cons hafter hproper hahead, h.marked.enter rfl⟩
  have hread := hentered.foldl_sort_some getElem?_reverse_cons_length rfl hopening
    hclosing options.comments
  exact ⟨hread.past, hread.marked⟩

/-- The search for an open quote passes over tokens without a mark only. -/
theorem inSection_of_openQuote? {line : Nat} {earlier : List Item} {quote : Item}
    (h : openQuote? line items = some (quote, earlier)) :
    ∃ newer, items = newer ++ earlier ∧ quote ∈ newer ∧ ∀ item ∈ newer, item.inSection = none := by
  fun_induction openQuote? line items with
  | case1 => cases h
  | case2 item items hline => cases h
  | case3 item items hline found hfound ih =>
    cases h
    obtain ⟨newer, hitems, hquote, hnewer⟩ := ih hfound
    refine ⟨item :: newer, by rw [hitems, List.cons_append], List.mem_cons_of_mem _ hquote, ?_⟩
    exact List.forall_mem_cons.mpr ⟨by simp_all, hnewer⟩
  | case4 item items hline hnone hquote ih =>
    cases h
    refine ⟨[quote], rfl, List.mem_singleton_self _, ?_⟩
    simp_all
  | case5 item items hline hnone hquote ih => cases h

/-- The text up to the quote that closes a string is not empty. -/
theorem byteLength_take_closingQuote_pos {cs : List Char} {n : Nat}
    (h : Token.closingQuote cs = some n) : 0 < Source.byteLength (cs.take n) := by
  have hpos : 0 < n := by
    fun_cases Token.closingQuote cs <;> grind [Token.closingQuote, Option.map_eq_some_iff]
  have hle := Token.closingQuote_le h
  have hlength := Source.length_le_byteLength (cs.take n)
  rw [List.length_take] at hlength
  omega

theorem Draft.Sectioned.continuedString? {options : Section.Options} {opening : Token}
    {rest : List Token} {parts : SectionTokens} {result : Draft × List Token}
    (h : draft.Sectioned (opening :: rest)) (hsound : draft.Sound source bound)
    (hpending : Pending source bound (opening :: rest))
    (hparts : sectionTokens? opening rest = some parts)
    (hresult : draft.continuedString? source options opening parts = some result) :
    result.1.Sectioned result.2 := by
  simp only [Draft.continuedString?, Option.bind_eq_bind, Option.bind_eq_some_iff, Option.pure_def,
    Option.some.injEq] at hresult
  obtain ⟨last, -, ⟨quote, earlier⟩, hquote, length, hlength, rfl⟩ := hresult
  obtain ⟨newer, hitems, hmem, hnewer⟩ := inSection_of_openQuote? hquote
  obtain ⟨hproper, -, hahead, hafter⟩ := hpending.section_bounds hparts
  have hmarked := h.marked
  rw [hitems] at hmarked
  obtain ⟨hcut, hstop⟩ := hsound.items.1 quote.token
    (List.mem_map_of_mem (by rw [hitems]; exact List.mem_append_left _ hmem))
  have hlt := hcut.lt
  have hle := hpending.le
  have htail := byteLength_take_closingQuote_pos hlength
  have hdrop : (parts.after.dropWhile (·.span.line == parts.closing.span.line)).Sublist
      parts.after := List.dropWhile_sublist _
  refine foldl_sort ⟨h.past.cons (hdrop.trans hafter) hproper ?_, ?_⟩ true
  · intro token htoken
    exact hahead token (hdrop.subset htoken)
  · refine (hmarked.of_append hnewer).join rfl ⟨rfl, ?_, ?_⟩
    · simp only [Span.to_start]
      omega
    · simp only [Span.to_stop]
      omega

theorem Draft.Sectioned.continuation? {opening : Token} {rest : List Token}
    {result : Draft × List Token} (h : draft.Sectioned (opening :: rest))
    (hsound : draft.Sound source bound) (hpending : Pending source bound (opening :: rest))
    (hresult : draft.continuation? source opening rest = some result) :
    result.1.Sectioned result.2 := by
  obtain ⟨parts, options, hparts, hstring | rfl⟩ := Draft.continuation?_cases hresult
  · exact h.continuedString? hsound hpending hparts hstring
  · exact h.joinedLines hpending hparts

/-! ## The whole pass -/

theorem Draft.Sectioned.next {rest : List Token} (h : draft.Sectioned (token :: rest))
    (hsound : draft.Sound source bound) (hpending : Pending source bound (token :: rest)) :
    (draft.next source token rest).1.Sectioned (draft.next source token rest).2 := by
  have hpast := h.past.sublist (List.sublist_cons_self token rest)
  rcases draft.next_cases source token rest with ⟨-, hnext⟩ | hnext | hnext | hnext
  · rw [hnext]
    exact h.blockComment
  · rw [hnext]
    exact ⟨hpast, h.marked⟩
  · exact h.continuation? hsound hpending hnext
  · rw [hnext]
    exact ⟨hpast, h.marked.cons rfl⟩

theorem ofSource_sectioned (source : Source) :
    (Draft.read source {} (Token.tokenize source)).Sectioned [] := by
  have hempty : Draft.Sectioned {} (Token.tokenize source) := ⟨past_nil, marked_nil⟩
  refine (Draft.read_invariant (motive := fun draft tokens => draft.Sectioned tokens ∧
    ∃ bound, draft.Sound source bound ∧ Pending source bound tokens) ?_
    ⟨hempty, 0, sound_empty source, pending_tokenize source⟩).1
  rintro draft token rest ⟨h, bound, hsound, hpending⟩
  exact ⟨h.next hsound hpending, hsound.next hpending⟩

/-- A mark leads to a section in which the token lies. -/
theorem ofSource_lies (hitem : item ∈ (ofSource source).items) (hmark : item.inSection = some j) :
    ∃ around, (ofSource source).sections[j]? = some around ∧ item.LiesIn around := by
  obtain ⟨-, hmarked⟩ := ofSource_sectioned source
  simp only [ofSource, Draft.toStream, List.mem_toArray, List.mem_reverse] at hitem
  simpa [ofSource, Draft.toStream] using hmarked.lies item hitem j hmark

/-- The tokens and the comments of a stream are pieces of the source, one behind the other, and so
are its sections. Each mark leads to a section in which its token lies, and each string that a
section carries on is there once. -/
theorem ofSource_consistent (source : Source) :
    (ofSource source).marks.length = (ofSource source).tokens.length ∧
    ((∀ token ∈ (ofSource source).tokens, Cut source token) ∧
      (ofSource source).tokens.Pairwise fun token next => token.span.stop ≤ next.span.start) ∧
    ((∀ comment ∈ (ofSource source).comments, Cut source comment) ∧
      (ofSource source).comments.Pairwise fun comment next =>
        comment.span.stop ≤ next.span.start) ∧
    ((∀ around ∈ (ofSource source).sections.toList,
        around.opening.span.stop ≤ around.closing.span.start) ∧
      (ofSource source).sections.toList.Pairwise fun around next =>
        around.closing.span.stop ≤ next.opening.span.start) ∧
    (∀ item ∈ (ofSource source).items, ∀ j, item.inSection = some j →
      ∃ around, (ofSource source).sections[j]? = some around ∧ item.LiesIn around) ∧
    ∀ j around, (ofSource source).sections[j]? = some around → around.literal.isSome = true →
      (ofSource source).marks.countP (·.2 == some j) = 1 := by
  obtain ⟨bound, hitems, hcomments⟩ := ofSource_sound source
  obtain ⟨hpast, hmarked⟩ := ofSource_sectioned source
  refine ⟨length_marks _, ?_⟩
  simp only [ofSource, Draft.toStream, tokens, marks, List.toList_toArray, List.map_reverse,
    List.getElem?_toArray, List.mem_toArray, List.mem_reverse, List.pairwise_reverse,
    List.countP_reverse, List.countP_map]
  refine ⟨⟨?_, hitems.2⟩, ⟨?_, hcomments.2⟩, ⟨hpast.proper, hpast.ordered⟩, hmarked.lies,
    hmarked.single⟩
  · exact fun token htoken => (hitems.1 token htoken).1
  · exact fun comment hcomment => (hcomments.1 comment hcomment).1

/-- A string that a section carries on, with an expression behind it on the closing line. -/
theorem ofSource_consistent_string :
    let stream := ofSource "x := \"a\n(\nb\n)\" . y".toList
    stream.tokens.length = 5 ∧
      ∃ around, stream.sections[0]? = some around ∧ around.literal = some "ab" ∧
        stream.marks.countP (·.2 == some 0) = 1 := by
  intro stream
  have hlength : stream.tokens.length = 5 := by decide +kernel
  have hliteral : stream.sections[0]?.bind (·.literal) = some "ab" := by decide +kernel
  obtain ⟨around, haround, hliteral⟩ := Option.bind_eq_some_iff.mp hliteral
  obtain ⟨-, -, -, -, -, hsingle⟩ := ofSource_consistent "x := \"a\n(\nb\n)\" . y".toList
  exact ⟨hlength, around, haround, hliteral, hsingle 0 around haround (by simp [hliteral])⟩

end HotkeyScript.Stream
