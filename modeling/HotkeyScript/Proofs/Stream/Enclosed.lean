import HotkeyScript.Proofs.Source.LineEndings
import HotkeyScript.Proofs.Stream.Comments
import HotkeyScript.Proofs.Stream.Positions

/-!
# Tokens between parentheses

A section whose lines are tokens of their own keeps all tokens between its parentheses, but for
comments and for the line of the opening parenthesis, and marks them. A token without its mark does
not end or start between the parentheses. So the first token of a section has only blanks in front
of it on its line, and there is a line break between the last one and the closing parenthesis.

## Main definitions

* `Stream.Apart` — neither end of a span lies between the parentheses of a section.
* `Stream.Filled` — the marked items are the tokens between the parentheses of a section.
-/

namespace HotkeyScript.Stream

open Source (BreakBetween byteLength lineBefore)
open Token (Follows tokenize)

variable {source : Source} {draft draft' : Draft} {token opening : Token}
  {pending pending' rest : List Token} {around : Section} {item : Item} {items items' : List Item}
  {span : Span} {parts : SectionTokens} {j : Nat}

/-! ## The tokens of a section -/

/-- The closing parenthesis of a section is the first token of its line. -/
theorem opensLine_of_sectionTokens? (h : sectionTokens? opening rest = some parts) :
    parts.closing.opensLine = true := by
  simp only [sectionTokens?] at h
  split at h
  · cases h
  split at h
  · cases h
  · next closing after hclosing =>
    cases h
    have hhead := List.head?_dropWhile_not (!closesSection ·)
      (rest.dropWhile (·.span.line == opening.span.line))
    rw [hclosing] at hhead
    simp only [List.head?_cons, closesSection] at hhead
    grind

/-- The tokens of a section behind its header are on other lines than the opening parenthesis. -/
theorem Draft.Traced.inner_line_ne (h : draft.Traced source (opening :: rest))
    (hparts : sectionTokens? opening rest = some parts) :
    ∀ token ∈ parts.inner, token.span.line ≠ opening.span.line := by
  obtain ⟨bound, -, hpending⟩ := h.sound
  have hbehind := line_ne_of_mem_dropWhile (h.mem List.mem_cons_self) (fun token htoken =>
    ⟨h.mem (List.mem_cons_of_mem _ htoken), h.head_le token (List.mem_cons_of_mem _ htoken)⟩)
    (List.pairwise_cons.mp hpending.2).2
  intro token htoken
  refine hbehind token ?_
  simp only [sectionTokens?] at hparts
  split at hparts
  · cases hparts
  split at hparts
  · cases hparts
  · cases hparts
    exact (List.takeWhile_sublist _).subset htoken

/-- Neither end of the span lies between the parentheses of the section. -/
def Apart (around : Section) (span : Span) : Prop :=
  (span.stop ≤ around.closing.span.start → span.stop ≤ around.opening.span.start) ∧
    (around.opening.span.stop ≤ span.start → around.closing.span.stop ≤ span.start)

/-- The items with the mark `j` are the tokens between the parentheses of a section, but for
comments and for the line of the opening parenthesis; no other item ends or starts there. -/
structure Filled (source : Source) (items : List Item) (j : Nat) (around : Section) : Prop where
  opening : around.opening ∈ tokenize source
  closing : around.closing ∈ tokenize source
  opensLine : around.closing.opensLine = true
  inner : ∀ item ∈ items, item.inSection = some j →
    item.token ∈ tokenize source ∧ around.opening.span.stop ≤ item.token.span.start ∧
      item.token.span.stop ≤ around.closing.span.start ∧
      item.token.span.line ≠ around.opening.span.line
  apart : ∀ item ∈ items, item.inSection ≠ some j → Apart around item.token.span
  filled : ∀ token ∈ tokenize source, token.kind ≠ .comment →
    around.opening.span.stop ≤ token.span.start → token.span.stop ≤ around.closing.span.start →
    token.span.line ≠ around.opening.span.line →
      ∃ item ∈ items, item.inSection = some j ∧ item.token = token

namespace Filled

/-- Marked items stay, and new ones are apart from the section. -/
theorem change (h : Filled source items j around)
    (hkept : ∀ item ∈ items, item.inSection = some j → item ∈ items')
    (hnew : ∀ item ∈ items', item ∈ items ∨
      item.inSection ≠ some j ∧ Apart around item.token.span) :
    Filled source items' j around where
  opening := h.opening
  closing := h.closing
  opensLine := h.opensLine
  inner item hitem hmark := by
    rcases hnew item hitem with hitem | ⟨hne, -⟩
    · exact h.inner item hitem hmark
    · exact absurd hmark hne
  apart item hitem hmark := by
    rcases hnew item hitem with hitem | ⟨-, hapart⟩
    · exact h.apart item hitem hmark
    · exact hapart
  filled token htoken hkind hopening hclosing hline := by
    obtain ⟨item, hitem, hmark, heq⟩ := h.filled token htoken hkind hopening hclosing hline
    exact ⟨item, hkept item hitem hmark, hmark, heq⟩

/-- What comes behind the section is apart from it. -/
theorem behind (h : Filled source items j around) (hlt : span.start < span.stop)
    (hle : around.closing.span.stop ≤ span.start) : Apart around span := by
  have := ((Token.tokenize_ordered source).1 _ h.closing).lt
  exact ⟨fun hstop => by omega, fun _ => hle⟩

end Filled

/-! ## Steps of the pass -/

/-- The sections of the draft are filled, and lie before the tokens that are left. -/
structure Draft.Fills (draft : Draft) (source : Source) (pending : List Token) : Prop where
  marks : ∀ item ∈ draft.items, ∀ j, item.inSection = some j → j < draft.sections.length
  ahead : ∀ around ∈ draft.sections, ∀ token ∈ pending,
    around.closing.span.stop ≤ token.span.start
  filled : ∀ j around, draft.sections.reverse[j]? = some around → around.literal = none →
    Filled source draft.items j around

namespace Draft.Fills

/-- Tokens without a mark come behind the sections. -/
theorem add (h : draft.Fills source pending) (hsections : draft'.sections = draft.sections)
    (hsub : pending' ⊆ pending) (hkept : draft.items ⊆ draft'.items)
    (hnew : ∀ item ∈ draft'.items, item ∈ draft.items ∨ item.inSection = none ∧
      item.token.span.start < item.token.span.stop ∧
        ∃ token ∈ pending, token.span.start ≤ item.token.span.start) :
    draft'.Fills source pending' where
  marks item hitem j hj := by
    rw [hsections]
    rcases hnew item hitem with hitem | ⟨hnone, -⟩
    · exact h.marks item hitem j hj
    · cases hnone.symm.trans hj
  ahead := by
    rw [hsections]
    exact fun around haround token htoken => h.ahead around haround token (hsub htoken)
  filled j around haround hliteral := by
    rw [hsections] at haround
    have hfilled := h.filled j around haround hliteral
    refine hfilled.change (fun item hitem _ => hkept hitem) fun item hitem => ?_
    refine (hnew item hitem).imp_right ?_
    rintro ⟨hnone, hlt, token, htoken, hle⟩
    have hmem := List.mem_reverse.mp (List.mem_of_getElem? haround)
    have := h.ahead around hmem token htoken
    exact ⟨by simp [hnone], hfilled.behind hlt (by omega)⟩

/-- A section whose lines are tokens of their own is filled. -/
theorem joinedLines {options : Section.Options} (h : draft.Fills source (opening :: rest))
    (htraced : draft.Traced source (opening :: rest))
    (hparts : sectionTokens? opening rest = some parts) :
    (draft.joinedLines options opening parts).1.Fills source parts.after := by
  obtain ⟨bound, -, hpending⟩ := htraced.sound
  obtain ⟨hproper, hopening, hafter, -⟩ := hpending.section_bounds hparts
  obtain ⟨-, hclosing, -⟩ := hpending.sectionTokens hparts
  have hsplit := sectionTokens?_eq_some hparts
  have hcut := (Token.tokenize_ordered source).1
  have hinner : ∀ token ∈ parts.inner, token ∈ tokenize source := fun token htoken =>
    htraced.mem (by simp [hsplit, htoken])
  have hsections : (draft.joinedLines options opening parts).1.sections =
      { options, opening, closing := parts.closing } :: draft.sections := sections_foldl_sort _ _
  have hkept : draft.items ⊆ (draft.joinedLines options opening parts).1.items :=
    fun item hitem => subset_items_foldl_sort _ _ _ _ hitem
  have hnew : ∀ item ∈ (draft.joinedLines options opening parts).1.items,
      item ∈ draft.items ∨ item.token ∈ parts.inner ∧
        item.inSection = some draft.sections.length := fun item hitem =>
    (mem_items_foldl_sort hitem).imp_right fun hitem => ⟨hitem.1, hitem.2.1⟩
  refine ⟨fun item hitem j hj => ?_, ?_, fun j around haround hliteral => ?_⟩
  · rw [hsections, List.length_cons]
    rcases hnew item hitem with hitem | ⟨-, hmark⟩
    · exact Nat.lt_succ_of_lt (h.marks item hitem j hj)
    · cases hmark.symm.trans hj
      exact Nat.lt_succ_self _
  · rw [hsections]
    refine List.forall_mem_cons.mpr ⟨hafter, fun around haround token htoken => ?_⟩
    exact h.ahead around haround token (by simp [hsplit, htoken])
  · rw [hsections] at haround
    rcases getElem?_reverse_cons_eq_some haround with haround | ⟨rfl, rfl⟩
    · have hfilled := h.filled j around haround hliteral
      have hmem := List.mem_reverse.mp (List.mem_of_getElem? haround)
      have hlt := lt_length_of_getElem?_reverse haround
      refine hfilled.change (fun item hitem _ => hkept hitem) fun item hitem => ?_
      refine (hnew item hitem).imp_right fun ⟨htoken, hmark⟩ => ⟨?_, ?_⟩
      · rw [hmark, ne_eq, Option.some.injEq]
        omega
      · have := h.ahead around hmem item.token (by simp [hsplit, htoken])
        exact hfilled.behind (hcut _ (hinner _ htoken)).lt this
    · -- the tokens of the new section are the ones that it marks
      refine ⟨htraced.mem List.mem_cons_self, htraced.mem (by simp [hsplit]),
        opensLine_of_sectionTokens? hparts, fun item hitem hmark => ?_, fun item hitem hmark => ?_,
        fun token htoken hkind hstart hstop hline => ?_⟩
      · rcases hnew item hitem with hitem | ⟨htoken, -⟩
        · exact absurd (h.marks item hitem _ hmark) (Nat.lt_irrefl _)
        · exact ⟨hinner _ htoken, hopening _ htoken, hclosing _ htoken,
            htraced.inner_line_ne hparts _ htoken⟩
      · rcases hnew item hitem with hitem | ⟨-, hmark'⟩
        · have hbefore := htraced.stop_le (.inl (List.mem_map_of_mem hitem)) opening
            List.mem_cons_self
          have hlt := htraced.start_lt (.inl (List.mem_map_of_mem hitem))
          have hlt' := (hcut _ (htraced.mem List.mem_cons_self)).lt
          exact ⟨fun _ => hbefore, fun hle => by simp only at hle; omega⟩
        · exact absurd hmark' hmark
      · simp only at hstart hstop hline
        have hleft : token ∈ opening :: rest := by
          by_contra hnot
          have hfollows := (htraced.follows htoken hnot opening List.mem_cons_self).1
          have := (hcut _ htoken).lt
          have := (hcut _ (htraced.mem List.mem_cons_self)).lt
          omega
        have hmem : token ∈ parts.inner := by
          rw [hsplit, List.mem_cons, List.mem_append, List.mem_append, List.mem_cons] at hleft
          have := (hcut _ htoken).lt
          have := (hcut parts.closing (htraced.mem (by simp [hsplit]))).lt
          rcases hleft with rfl | hmem | hmem | rfl | hmem
          · exact absurd rfl hline
          · exact absurd ((sectionTokens?_lines hparts).1 token hmem) hline
          · exact hmem
          · omega
          · have := hafter token hmem
            omega
        obtain ⟨item, hitem, heq, hmark⟩ := exists_mem_items_foldl_sort
          (some draft.sections.length)
          { draft with
            sections := { options, opening, closing := parts.closing } :: draft.sections }
          hmem (fun hcomment => absurd hcomment hkind)
        exact ⟨item, hitem, hmark, heq⟩

/-- A string that a section carries on reaches over all that lies between its ends. -/
theorem joinedString {joined : Draft} {new quote : Item} {newer earlier : List Item} {stop : Nat}
    {added : List Token} (h : draft.Fills source (opening :: rest))
    (htraced : draft.Traced source (opening :: rest))
    (hparts : sectionTokens? opening rest = some parts)
    (hitems : draft.items = newer ++ quote :: earlier)
    (hnewer : ∀ item ∈ quote :: newer, item.inSection = none)
    (hjoined : joined.items = new :: earlier)
    (hspan : new.token.span = quote.token.span.to stop)
    (hmark : new.inSection = some draft.sections.length)
    (hsections : joined.sections = around :: draft.sections)
    (hclosing : around.closing = parts.closing) (hliteral : around.literal.isSome = true)
    (hstop : parts.closing.span.stop < stop)
    (hadded : ∀ token ∈ added, stop ≤ token.span.start ∧ token.span.start < token.span.stop)
    (hsub : pending' ⊆ parts.after) :
    (added.foldl (Draft.sort true none) joined).Fills source pending' := by
  obtain ⟨bound, -, hpending⟩ := htraced.sound
  obtain ⟨-, -, hafter, -⟩ := hpending.section_bounds hparts
  have hsplit := sectionTokens?_eq_some hparts
  have hmem : parts.closing ∈ opening :: rest := by simp [hsplit]
  have hquote : quote ∈ draft.items := by simp [hitems]
  have hnew : ∀ item ∈ (added.foldl (Draft.sort true none) joined).items, item = new ∨
      item ∈ draft.items ∨ item.token ∈ added ∧ item.inSection = none := by
    intro item hitem
    rcases mem_items_foldl_sort hitem with hitem | ⟨htoken, hnone, -⟩
    · rw [hjoined] at hitem
      refine (List.mem_cons.mp hitem).imp_right fun hitem => .inl ?_
      simp [hitems, hitem]
    · exact .inr (.inr ⟨htoken, hnone⟩)
  refine ⟨fun item hitem j hj => ?_, ?_, fun j other hother hnone => ?_⟩
  · rw [sections_foldl_sort, hsections, List.length_cons]
    rcases hnew item hitem with rfl | hitem | ⟨-, hnone⟩
    · cases hmark.symm.trans hj
      exact Nat.lt_succ_self _
    · exact Nat.lt_succ_of_lt (h.marks item hitem j hj)
    · cases hnone.symm.trans hj
  · rw [sections_foldl_sort, hsections]
    refine List.forall_mem_cons.mpr ⟨fun token htoken => ?_, fun other hother token htoken => ?_⟩
    · rw [hclosing]
      exact hafter token (hsub htoken)
    · exact h.ahead other hother token (by simp [hsplit, hsub htoken])
  · rw [sections_foldl_sort, hsections] at hother
    rcases getElem?_reverse_cons_eq_some hother with hother | ⟨rfl, rfl⟩
    · have hfilled := h.filled j other hother hnone
      have hbefore := h.ahead other (List.mem_reverse.mp (List.mem_of_getElem? hother)) _ hmem
      have hlt := ((Token.tokenize_ordered source).1 _ (htraced.mem hmem)).lt
      have hlt' := ((Token.tokenize_ordered source).1 _ hfilled.closing).lt
      refine hfilled.change (fun item hitem hj => ?_) fun item hitem => ?_
      · -- what becomes part of the string has no mark
        have hearlier : item ∈ earlier := by
          rw [hitems, List.mem_append, List.mem_cons] at hitem
          rcases hitem with hitem | rfl | hitem
          · cases (hnewer item (List.mem_cons_of_mem _ hitem)).symm.trans hj
          · cases (hnewer item List.mem_cons_self).symm.trans hj
          · exact hitem
        refine subset_items_foldl_sort _ _ _ _ ?_
        rw [hjoined]
        exact List.mem_cons_of_mem _ hearlier
      · rcases hnew item hitem with rfl | hitem | ⟨htoken, hunmarked⟩
        · have hapart := hfilled.apart quote hquote (by simp [hnewer quote List.mem_cons_self])
          refine .inr ⟨?_, ?_, ?_⟩
          · have := lt_length_of_getElem?_reverse hother
            rw [hmark, ne_eq, Option.some.injEq]
            omega
          · rw [hspan, Span.to_stop]
            intro hle
            omega
          · rw [hspan, Span.to_start]
            exact hapart.2
        · exact .inl hitem
        · obtain ⟨hle, hproper⟩ := hadded _ htoken
          exact .inr ⟨by simp [hunmarked], hfilled.behind hproper (by omega)⟩
    · rw [hnone] at hliteral
      cases hliteral

theorem step (h : draft.Fills source pending)
    (hstep : draft.Step source pending draft' pending') (htraced : draft.Traced source pending) :
    draft'.Fills source pending' := by
  have hproper : ∀ token ∈ pending, token.span.start < token.span.stop := fun token htoken =>
    ((Token.tokenize_ordered source).1 token (htraced.mem htoken)).lt
  have hsub := hstep.suffix.subset
  cases hstep with
  | emit hkind =>
    refine h.add rfl hsub (List.subset_cons_self _ _) fun item hitem => ?_
    rcases List.mem_cons.mp hitem with rfl | hitem
    · exact .inr ⟨rfl, hproper _ List.mem_cons_self, _, List.mem_cons_self, Nat.le_refl _⟩
    · exact .inl hitem
  | comment | block => exact h.add rfl hsub (fun _ => id) fun item hitem => .inl hitem
  | @blockInside slash last hidden line after hkind hblock hstop hboundary =>
    refine h.add (sections_foldl_sort _ _) hsub
      (fun item hitem => subset_items_foldl_sort _ _ _ _ hitem) fun item hitem => ?_
    refine (mem_items_foldl_sort hitem).imp_right fun ⟨htoken, hnone, _⟩ => ?_
    obtain ⟨hcut, hle, -⟩ := (Token.tokenizeLine_ordered hboundary _ _).1 _ htoken
    have := hproper slash List.mem_cons_self
    exact ⟨hnone, hcut.lt, slash, List.mem_cons_self, by omega⟩
  | lines hkind hparts => exact h.joinedLines htraced hparts
  | @string opening rest line after parts around joined new quote newer earlier stop hkind hparts
      hitems hnewer hquote hjoined hnew hsections haround hcomments hstop hboundary hposition hrest
      hline =>
    refine h.joinedString htraced hparts hitems hnewer hjoined hnew.2.1 hnew.2.2 hsections
      haround.2.1 haround.2.2 hstop (fun token htoken => ?_) ?_
    · obtain ⟨hcut, hle, -⟩ := (Token.tokenizeLine_ordered hboundary _ _).1 token htoken
      exact ⟨hle, hcut.lt⟩
    · rw [hrest]
      exact List.subset_append_right _ _

end Draft.Fills

theorem ofSource_fills (source : Source) :
    (Draft.read source {} (tokenize source)).Fills source [] :=
  read_traced source (motive := fun draft pending => draft.Fills source pending)
    (fun draft pending draft' pending' hstep htraced _ h => h.step hstep htraced)
    ⟨List.forall_mem_nil _, List.forall_mem_nil _, by simp⟩

/-! ## Positions in sections -/

theorem section?_eq_some_iff {stream : Stream} {p : Nat} :
    stream.section? p = some around ↔ ∃ item j, stream.items[p]? = some item ∧
      item.inSection = some j ∧ stream.sections[j]? = some around := by
  simp [section?, Option.bind_eq_some_iff]

variable {p q : Nat} {next : Token}

/-- A position in a section whose lines are tokens of their own. -/
structure InLines (source : Source) (p j : Nat) (token : Token) (around : Section) : Prop where
  item : ∃ item, (ofSource source).items[p]? = some item ∧ item.token = token ∧
    item.inSection = some j
  filled : Filled source (ofSource source).items.toList j around

theorem exists_inLines (h : (ofSource source).section? p = some around)
    (hliteral : around.literal = none) (htoken : (ofSource source).token? p = some token) :
    ∃ j, InLines source p j token around := by
  obtain ⟨item, j, hitem, hmark, hsection⟩ := section?_eq_some_iff.mp h
  have heq : item.token = token := by simpa [token?, hitem] using htoken
  refine ⟨j, ⟨item, hitem, heq, hmark⟩, ?_⟩
  have hfilled := (ofSource_fills source).filled j around
    (by simpa [ofSource, Draft.toStream] using hsection) hliteral
  exact hfilled.change (fun item hitem _ => by simpa [ofSource, Draft.toStream] using hitem)
    fun item hitem => .inl (by simpa [ofSource, Draft.toStream] using hitem)

/-- A string that a section carries on starts above the section. -/
theorem start_lt_opening (h : (ofSource source).section? p = some around)
    (hliteral : around.literal.isSome = true)
    (htoken : (ofSource source).token? p = some token) :
    token.span.start < around.opening.span.start := by
  obtain ⟨item, j, hitem, hmark, hsection⟩ := section?_eq_some_iff.mp h
  have heq : item.token = token := by simpa [token?, hitem] using htoken
  obtain ⟨other, hother, hlies⟩ := ofSource_lies (Array.mem_of_getElem? hitem) hmark
  cases hsection.symm.trans hother
  obtain ⟨literal, hliteral⟩ := Option.isSome_iff_exists.mp hliteral
  simp only [Item.LiesIn, hliteral, heq] at hlies
  exact hlies.2.1

namespace InLines

theorem token? (h : InLines source p j token around) :
    (ofSource source).token? p = some token := by
  obtain ⟨item, hitem, rfl, -⟩ := h.item
  rw [Stream.token?, hitem]
  rfl

theorem inner (h : InLines source p j token around) :
    token ∈ tokenize source ∧ around.opening.span.stop ≤ token.span.start ∧
      token.span.stop ≤ around.closing.span.start ∧
      token.span.line ≠ around.opening.span.line := by
  obtain ⟨item, hitem, rfl, hmark⟩ := h.item
  exact h.filled.inner item (List.mem_of_getElem? (by simpa using hitem)) hmark

/-- There is a line break between a token of the section and the closing parenthesis. -/
theorem break_before_closing (h : InLines source p j token around) :
    BreakBetween source token.span.stop around.closing.span.start := by
  obtain ⟨htoken, -, hle, -⟩ := h.inner
  have hlt := ((Token.tokenize_ordered source).1 _ htoken).lt
  have hlt' := ((Token.tokenize_ordered source).1 _ h.filled.closing).lt
  have hfirst := (Token.tokenize_opensLine h.filled.closing).mp h.filled.opensLine token htoken
  rcases eq_or_follows htoken h.filled.closing with rfl | hfollows | hfollows
  · omega
  · refine hfollows.2 fun hline => ?_
    have := hfirst hline.symm
    omega
  · have := hfollows.1
    omega

/-- A token before another one of the section that ends behind the opening parenthesis is in the
section too. -/
theorem of_lt (h : InLines source q j next around) (hlt : p < q)
    (htoken : (ofSource source).token? p = some token)
    (hle : around.opening.span.start < token.span.stop) : InLines source p j token around := by
  obtain ⟨item, hitem, rfl⟩ := Option.map_eq_some_iff.mp htoken
  by_cases hmark : item.inSection = some j
  · exact ⟨⟨item, hitem, rfl, hmark⟩, h.filled⟩
  · have hapart := h.filled.apart item (List.mem_of_getElem? (by simpa using hitem)) hmark
    have hbefore := ofSource_ordered htoken h.token? hlt
    have hlt' := ((Token.tokenize_ordered source).1 _ h.inner.1).lt
    have := h.inner.2.2.1
    have := hapart.1 (by omega)
    omega

/-- Between two tokens of a section on different lines there is a line break. -/
theorem break_between (h : InLines source p j token around) (h' : InLines source q j next around)
    (hle : token.span.stop ≤ next.span.start) (hline : token.span.line ≠ next.span.line) :
    BreakBetween source token.span.stop next.span.start := by
  have hlt := ((Token.tokenize_ordered source).1 _ h.inner.1).lt
  have hlt' := ((Token.tokenize_ordered source).1 _ h'.inner.1).lt
  rcases eq_or_follows h.inner.1 h'.inner.1 with rfl | hfollows | hfollows
  · omega
  · exact hfollows.2 hline.symm
  · have := hfollows.1
    omega

/-- A token without a section that comes behind one of the section stands behind the closing
parenthesis. -/
theorem closing_le (h : InLines source p j token around) (hlt : p < q)
    (hnext : (ofSource source).token? q = some next)
    (hnone : (ofSource source).section? q = none) :
    around.closing.span.stop ≤ next.span.start := by
  obtain ⟨item, hitem, rfl⟩ := Option.map_eq_some_iff.mp hnext
  have hmark : item.inSection ≠ some j := by
    intro hmark
    obtain ⟨other, hother, -⟩ := ofSource_lies (Array.mem_of_getElem? hitem) hmark
    cases (section?_eq_some_iff.mpr ⟨item, j, hitem, hmark, hother⟩).symm.trans hnone
  have hle := ofSource_ordered h.token? hnext hlt
  have hlt' := ((Token.tokenize_ordered source).1 _ h.inner.1).lt
  have hopening := h.inner.2.1
  exact (h.filled.apart item (List.mem_of_getElem? (by simpa using hitem)) hmark).2 (by omega)

/-- A token of the lexer in front of a token of the section, on its line and no comment, is in the
section as well. -/
theorem exists_of_line (h : InLines source q j next around) (htoken : token ∈ tokenize source)
    (hkind : token.kind ≠ .comment) (hfollows : Follows source token next)
    (hline : next.span.line = token.span.line) :
    ∃ p < q, InLines source p j token around := by
  obtain ⟨hnext, hopening, hclosing, hne⟩ := h.inner
  have hcut := (Token.tokenize_ordered source).1
  have hlt := (hcut _ htoken).lt
  have hlt' := (hcut _ hnext).lt
  have hlt'' := (hcut _ h.filled.opening).lt
  have hbehind : around.opening.span.stop ≤ token.span.start := by
    rcases eq_or_follows h.filled.opening htoken with rfl | hbehind | hbefore
    · exact absurd hline hne
    · exact hbehind.1
    · have hle := line_le_of_start_le htoken h.filled.opening (by have := hbefore.1; omega)
      have hle' := line_le_of_start_le h.filled.opening hnext (by omega)
      omega
  have hbefore := hfollows.1
  obtain ⟨item, hitem, hmark, rfl⟩ := h.filled.filled token htoken hkind hbehind (by omega)
    (by rwa [← hline])
  obtain ⟨p, hp⟩ := List.mem_iff_getElem?.mp hitem
  have hp : InLines source p j item.token around :=
    ⟨⟨item, by simpa using hp, rfl, hmark⟩, h.filled⟩
  refine ⟨p, ?_, hp⟩
  by_contra hge
  rcases Nat.eq_or_lt_of_le (Nat.le_of_not_lt hge) with rfl | hgt
  · have heq := Option.some.inj (hp.token?.symm.trans h.token?)
    rw [heq] at hbefore
    omega
  · have := ofSource_ordered h.token? hp.token? hgt
    omega

/-- In front of the first token of a section there are only blanks on its line. -/
theorem blank_lineBefore (h : InLines source q j next around)
    (hfirst : ((ofSource source).previous? q).all (·.span.stop ≤ around.opening.span.start) = true) :
    ∀ c ∈ lineBefore source next.span.start, Text.isBlank c = true := by
  have hcut := (Token.tokenize_ordered source).1
  have hnext := h.inner.1
  have hunbroken := Source.unbroken_lineBefore source next.span.start
  obtain ⟨before, rest, hsource, -, hstart⟩ := InBounds.exists_lineStart (hcut _ hnext).start
  generalize lineBefore source next.span.start = line at *
  have hnobreak : ∀ offset, byteLength before ≤ offset →
      ¬BreakBetween source offset next.span.start := fun offset hle hbreak =>
    hbreak.not_unbroken hsource hle (Nat.le_of_eq hstart) hunbroken
  intro c hc
  obtain ⟨front, back, rfl⟩ := List.append_of_mem hc
  by_contra hblank
  have hcovers := Token.tokenize_covers
    (show source = (before ++ front) ++ c :: (back ++ rest) by simpa using hsource)
  have hopening := h.inner.2.1
  rcases hcovers with hblank' | ⟨hnil, -⟩ | ⟨token, htoken, hle, hlt⟩
  · exact hblank hblank'
  · -- the line of the opening parenthesis is another one, so this is not the first line
    have hbreak : BreakBetween source around.opening.span.stop next.span.start := by
      have hlt := (hcut _ h.filled.opening).lt
      rcases eq_or_follows h.filled.opening hnext with heq | hfollows | hfollows
      · exact absurd (congrArg (·.span.line) heq.symm) h.inner.2.2.2
      · exact hfollows.2 h.inner.2.2.2
      · have := hfollows.1
        have := (hcut _ hnext).lt
        omega
    refine hnobreak _ ?_ hbreak
    rw [(List.append_eq_nil_iff.mp hnil).1]
    exact Nat.zero_le _
  · simp only [Source.byteLength_append, Source.byteLength_cons] at hle hlt hstart
    have hsize := c.utf8Size_pos
    have hfollows : Follows source token next := by
      rcases eq_or_follows htoken hnext with rfl | hfollows | hfollows
      · omega
      · exact hfollows
      · have := hfollows.1
        have := (hcut _ hnext).lt
        omega
    have hsame : next.span.line = token.span.line := by
      by_contra hne
      exact hnobreak _ (by omega) (hfollows.2 hne)
    by_cases hkind : token.kind = .comment
    · exact hnobreak _ (by omega) ((Token.tokenize_lexed htoken).break_behind_comment
        (hcut _ htoken) hkind (Token.tokenize_lexed hnext) (hcut _ hnext) hfollows.1)
    · -- a token in front would be the one before, or stand before that one
      obtain ⟨p, hp, hlines⟩ := h.exists_of_line htoken hkind hfollows hsame
      obtain ⟨last, hlast⟩ := exists_token_of_lt
        (Nat.lt_of_le_of_lt (Nat.sub_le q 1) (lt_size_of_token? h.token?))
      rw [previous?_eq (by omega), hlast] at hfirst
      have hlt' := (ofSource_cut hlast).lt
      have hopening' := hlines.inner.2.1
      have hproper := (hcut _ h.filled.opening).lt
      simp only [Option.all_some, decide_eq_true_eq] at hfirst
      rcases Nat.eq_or_lt_of_le (show p ≤ q - 1 by omega) with rfl | hlt''
      · cases hlast.symm.trans hlines.token?
        omega
      · have := ofSource_ordered hlines.token? hlast hlt''
        omega

end InLines

end HotkeyScript.Stream
