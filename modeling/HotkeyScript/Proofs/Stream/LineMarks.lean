import HotkeyScript.Proofs.Stream.ReadAnew

/-!
# Line marks

A token outside the continuation sections starts a logical line if nothing that stays in the stream
stands before it on its physical line: no other token, and no parenthesis that closes a section. The
pass decides this from one number, the line of what it read last. The number is enough since it is
always the greatest line of all that the draft holds. This is so behind a block comment that ends
inside a line, behind a section, and also where the items from an open quote on have given way to
one string.

## Main definitions

* `Stream.Shares` — a token is not the first one on its physical line.
* `Stream.Draft.lines` — the lines of the tokens and of the closing parentheses of a draft.
* `Stream.Draft.Ruled` — the marks of a draft are right, and its last line is the greatest one.
-/

namespace HotkeyScript.Stream

open Source (IsBoundary)
open Token (Cut Follows tokenize tokenizeLine)

variable {source : Source} {bound : Nat} {draft joined : Draft} {token slash opening : Token}
  {tokens tokens' rest : List Token} {item : Item} {earlier : List Item} {around : Section}

/-- Something stands before the token on its physical line: an earlier item, or the parenthesis that
closes a section. -/
def Shares (earlier : List Item) (sections : List Section) (token : Token) : Prop :=
  (∃ other ∈ earlier, other.token.span.line = token.span.line) ∨
    ∃ around ∈ sections, around.closing.span.stop ≤ token.span.start ∧
      around.closing.span.line = token.span.line

/-- A section that is closed behind the token does not matter to it. -/
theorem shares_cons (h : token.span.start < around.closing.span.stop) {sections : List Section} :
    Shares earlier (around :: sections) token ↔ Shares earlier sections token := by
  have hbehind : ¬around.closing.span.stop ≤ token.span.start := Nat.not_le_of_lt h
  simp [Shares, hbehind]

/-- The physical lines of the items and of the closing parentheses. -/
def Draft.lines (draft : Draft) : List Nat :=
  draft.items.map (·.token.span.line) ++ draft.sections.map (·.closing.span.line)

/-- The items outside the sections are marked as their lines ask for, and the last line is the
greatest one. The tokens to come stand on no earlier line and behind all sections. -/
structure Draft.Ruled (draft : Draft) (tokens : List Token) : Prop where
  marked : ∀ item earlier, item :: earlier <:+ draft.items → item.inSection = none →
    (item.startsLine = false ↔ Shares earlier draft.sections item.token)
  lastLine : draft.lastLine = draft.lines.max?
  below : ∀ token ∈ tokens, ∀ line ∈ draft.lines, line ≤ token.span.line
  behind : ∀ token ∈ tokens, ∀ around ∈ draft.sections,
    around.closing.span.stop ≤ token.span.start
  ordered : tokens.Pairwise fun token next => token.span.line ≤ next.span.line

/-- Sections do not matter to the tokens that are added. -/
theorem foldl_sort_sections (apart : Bool) (inSection : Option Nat) (tokens : List Token)
    (draft : Draft) (sections : List Section) :
    tokens.foldl (Draft.sort apart inSection) { draft with sections } =
      { tokens.foldl (Draft.sort apart inSection) draft with sections } := by
  induction tokens generalizing draft with
  | nil => rfl
  | cons token tokens ih =>
    have hsort : Draft.sort apart inSection { draft with sections } token =
        { draft.sort apart inSection token with sections } := by
      unfold Draft.sort
      split <;> rfl
    rw [List.foldl_cons, List.foldl_cons, hsort, ih]

namespace Draft.Ruled

theorem sublist (h : draft.Ruled tokens) (hsub : tokens'.Sublist tokens) : draft.Ruled tokens' :=
  ⟨h.marked, h.lastLine, fun token htoken => h.below token (hsub.subset htoken),
    fun token htoken => h.behind token (hsub.subset htoken), h.ordered.sublist hsub⟩

theorem comment (h : draft.Ruled tokens) (token : Token) : (draft.comment token).Ruled tokens :=
  ⟨h.marked, h.lastLine, h.below, h.behind, h.ordered⟩

/-- What bounds the last line bounds all lines. -/
theorem lines_le {line : Nat} (h : draft.Ruled tokens)
    (hlast : ∀ last, draft.lastLine = some last → last ≤ line) :
    ∀ other ∈ draft.lines, other ≤ line := by
  intro other hother
  cases hmax : draft.lines.max? with
  | none => simp [List.max?_eq_none_iff.mp hmax] at hother
  | some last =>
    have hle := (List.max?_eq_some_iff.mp hmax).2 other hother
    exact Nat.le_trans hle (hlast last (h.lastLine.trans hmax))

/-- The next token stands on the last line just if something on its line stands before it. -/
theorem lastLine_eq_iff (h : draft.Ruled (token :: rest)) :
    draft.lastLine = some token.span.line ↔ Shares draft.items draft.sections token := by
  have hbelow := h.below token List.mem_cons_self
  have hbehind := h.behind token List.mem_cons_self
  rw [h.lastLine, List.max?_eq_some_iff, and_iff_left hbelow, Draft.lines, List.mem_append,
    List.mem_map, List.mem_map]
  refine or_congr_right (exists_congr fun around => and_congr_right fun haround => ?_)
  exact (and_iff_right (hbehind around haround)).symm

theorem emit (h : draft.Ruled (token :: rest)) (inSection : Option Nat) :
    (draft.emit inSection token).Ruled rest := by
  obtain ⟨hfirst, hordered⟩ := List.pairwise_cons.mp h.ordered
  have hbelow := h.below token List.mem_cons_self
  refine ⟨fun item earlier hsuffix hnone => ?_, ?_, fun next hnext => ?_, fun next hnext => ?_,
    hordered⟩
  · rcases List.suffix_cons_iff.mp hsuffix with heq | hsuffix
    · obtain ⟨rfl, rfl⟩ := List.cons.inj heq
      obtain rfl : inSection = none := hnone
      simpa [Draft.emit] using h.lastLine_eq_iff
    · exact h.marked item earlier hsuffix hnone
  · exact (List.max?_eq_some_iff.mpr
      ⟨List.mem_cons_self, List.forall_mem_cons.mpr ⟨Nat.le_refl _, hbelow⟩⟩).symm
  · exact List.forall_mem_cons.mpr
      ⟨hfirst next hnext, h.below next (List.mem_cons_of_mem _ hnext)⟩
  · exact h.behind next (List.mem_cons_of_mem _ hnext)

theorem foldl_sort (h : draft.Ruled (tokens ++ rest)) (apart : Bool) (inSection : Option Nat) :
    (tokens.foldl (Draft.sort apart inSection) draft).Ruled rest := by
  induction tokens generalizing draft with
  | nil => exact h
  | cons token tokens ih =>
    apply ih
    unfold Draft.sort
    split
    · exact (h.comment token).sublist (List.sublist_cons_self _ _)
    · exact h.emit inSection

/-- The rest of a line is read anew, and the tokens that are left stand on no earlier line. -/
theorem reread {offset line : Nat} (h : draft.Ruled rest) (column : Nat)
    (hoffset : IsBoundary source offset) (hlast : ∀ last, draft.lastLine = some last → last ≤ line)
    (hrest : ∀ token ∈ rest, line ≤ token.span.line)
    (hbehind : ∀ around ∈ draft.sections, around.closing.span.stop ≤ offset) :
    draft.Ruled (tokenizeLine source offset line column ++ rest) := by
  obtain ⟨htokens, hordered⟩ := Token.tokenizeLine_ordered hoffset line column
  have hline : ∀ token ∈ tokenizeLine source offset line column, token.span.line = line :=
    fun token htoken => Token.line_of_mem_scan htoken
  refine ⟨h.marked, h.lastLine, List.forall_mem_append.mpr ⟨fun token htoken => ?_, h.below⟩,
    List.forall_mem_append.mpr ⟨fun token htoken around haround => ?_, h.behind⟩,
    List.pairwise_append.mpr ⟨?_, h.ordered, fun token htoken next hnext => ?_⟩⟩
  · rw [hline token htoken]
    exact h.lines_le hlast
  · exact Nat.le_trans (hbehind around haround) (htokens token htoken).2.1
  · refine hordered.imp_of_mem fun htoken hnext _ => ?_
    rw [hline _ htoken, hline _ hnext]
  · rw [hline token htoken]
    exact hrest next hnext

theorem blockComment (h : draft.Ruled (slash :: rest))
    (hpending : Pending source bound (slash :: rest))
    (hopens : opensBlockComment slash rest = true) :
    (draft.blockComment source slash rest).1.Ruled (draft.blockComment source slash rest).2 := by
  obtain ⟨hboundary, hlt, -⟩ := slice_commentEnd hpending hopens
  have hstart := hpending.cut.lt
  have hleft := (h.sublist ((draft.blockComment_sublist source slash rest).cons slash)).comment
    (blockToken source slash)
  simp only [Draft.blockComment] at hleft ⊢
  split at hleft
  · next hlast =>
    rw [if_pos hlast]
    refine foldl_sort (hleft.reread _ hboundary ?_ ?_ fun around haround => ?_) false none
    · intro other hother
      refine h.below _ (List.cons_subset_cons slash
        (List.takeWhile_sublist (·.span.start < commentEnd source slash.span.start)).subset
        List.getLastD_mem_cons) other ?_
      exact (List.max?_eq_some_iff.mp (h.lastLine.symm.trans hother)).1
    · -- the last token inside the comment stands before all that is left
      intro token htoken
      have hordered := h.ordered
      rw [← List.takeWhile_append_dropWhile
        (p := (·.span.start < commentEnd source slash.span.start)) (l := rest),
        ← List.cons_append] at hordered
      exact (List.pairwise_append.mp hordered).2.2 _ List.getLastD_mem_cons token
        ((List.dropWhile_sublist _).subset htoken)
    · have hle := h.behind slash List.mem_cons_self around haround
      omega
  · next hlast =>
    rw [if_neg hlast]
    exact hleft

/-- A section is closed. Of the items outside the sections none is new. -/
theorem close (around : Section) (h : draft.Ruled (around.closing :: rest))
    (hsound : draft.Sound source bound)
    (hpending : Pending source bound (around.closing :: rest))
    (hlines : ∀ item ∈ joined.items, item.token.span.line ∈ draft.lines)
    (hkept : ∀ item earlier, item :: earlier <:+ joined.items → item.inSection = none →
      item :: earlier <:+ draft.items)
    (hsections : joined.sections = around :: draft.sections)
    (hlast : joined.lastLine = some around.closing.span.line) : joined.Ruled rest := by
  obtain ⟨hfirst, hordered⟩ := List.pairwise_cons.mp h.ordered
  have hjoined : ∀ line ∈ joined.lines, line = around.closing.span.line ∨ line ∈ draft.lines := by
    intro line hline
    rcases List.mem_append.mp hline with hline | hline
    · obtain ⟨item, hitem, rfl⟩ := List.mem_map.mp hline
      exact .inr (hlines item hitem)
    · rw [hsections, List.map_cons, List.mem_cons] at hline
      exact hline.imp_right (List.mem_append_right _)
  refine ⟨fun item earlier hsuffix hnone => ?_, ?_, fun token htoken line hline => ?_, ?_, hordered⟩
  · -- the parenthesis stands behind all items
    have hsuffix := hkept item earlier hsuffix hnone
    obtain ⟨hcut, hstop⟩ :=
      hsound.items.1 _ (List.mem_map_of_mem (hsuffix.subset List.mem_cons_self))
    have hlt := hcut.lt
    have hlt' := hpending.cut.lt
    have hle := hpending.le
    rw [hsections, shares_cons (by omega)]
    exact h.marked item earlier hsuffix hnone
  · rw [hlast]
    refine (List.max?_eq_some_iff.mpr ⟨?_, fun line hline => ?_⟩).symm
    · simp [Draft.lines, hsections]
    · rcases hjoined line hline with rfl | hline
      · exact Nat.le_refl _
      · exact h.below _ List.mem_cons_self line hline
  · rcases hjoined line hline with rfl | hline
    · exact hfirst token htoken
    · exact h.below token (List.mem_cons_of_mem _ htoken) line hline
  · rw [hsections]
    refine fun token htoken => List.forall_mem_cons.mpr ⟨(hpending.tail.1 token htoken).2, ?_⟩
    exact h.behind token (List.mem_cons_of_mem _ htoken)

/-- A section is closed, and a string that it carries on takes the place of all the items from its
quote on. -/
theorem joinedString {new quote : Item} {newer : List Item} (around : Section)
    (h : draft.Ruled (around.closing :: rest)) (hsound : draft.Sound source bound)
    (hpending : Pending source bound (around.closing :: rest))
    (hitems : draft.items = newer ++ quote :: earlier) (hjoined : joined.items = new :: earlier)
    (hline : new.token.span.line = quote.token.span.line) (hmark : new.inSection.isSome = true)
    (hsections : joined.sections = around :: draft.sections)
    (hlast : joined.lastLine = some around.closing.span.line) : joined.Ruled rest := by
  have hearlier : quote :: earlier <:+ draft.items := ⟨newer, hitems.symm⟩
  refine h.close around hsound hpending ?_ (fun item items hsuffix hnone => ?_) hsections hlast
  · rw [hjoined]
    refine List.forall_mem_cons.mpr ⟨?_, fun item hitem => ?_⟩
    · rw [hline]
      exact List.mem_append_left _ (List.mem_map_of_mem (hearlier.subset List.mem_cons_self))
    · exact List.mem_append_left _
        (List.mem_map_of_mem (hearlier.subset (List.mem_cons_of_mem _ hitem)))
  · rw [hjoined] at hsuffix
    rcases List.suffix_cons_iff.mp hsuffix with heq | hsuffix
    · obtain ⟨rfl, -⟩ := List.cons.inj heq
      simp [hnone] at hmark
    · exact hsuffix.trans ((List.suffix_cons quote earlier).trans hearlier)

variable {options : Section.Options} {parts : SectionTokens} {result : Draft × List Token}

theorem joinedLines (h : draft.Ruled (opening :: rest)) (hsound : draft.Sound source bound)
    (hpending : Pending source bound (opening :: rest))
    (hparts : sectionTokens? opening rest = some parts) :
    (draft.joinedLines options opening parts).1.Ruled
      (draft.joinedLines options opening parts).2 := by
  obtain ⟨hinner, hstop, hclosing⟩ := hpending.sectionTokens hparts
  have hsub : (parts.inner ++ parts.closing :: parts.after).Sublist (opening :: rest) := by
    rw [sectionTokens?_eq_some hparts]
    exact (List.sublist_append_right _ _).cons opening
  have hread := (h.sublist hsub).foldl_sort options.comments (some draft.sections.length)
  have hread' := hsound.foldl_sort hinner hclosing.le hstop options.comments
    (some draft.sections.length)
  have hclosing' : Pending source parts.closing.span.start (parts.closing :: parts.after) :=
    hclosing.raise (by rintro token ⟨⟩; exact Nat.le_refl _)
  simp only [Draft.joinedLines, foldl_sort_sections]
  refine hread.close { options, opening, closing := parts.closing } hread' hclosing'
    (fun item hitem => ?_) (fun item earlier hsuffix _ => hsuffix) ?_ rfl
  · exact List.mem_append_left _ (List.mem_map_of_mem hitem)
  · exact congrArg _ (sections_foldl_sort _ _).symm

theorem continuedString? (h : draft.Ruled (opening :: rest)) (hsound : draft.Sound source bound)
    (hpending : Pending source bound (opening :: rest))
    (hparts : sectionTokens? opening rest = some parts)
    (hresult : draft.continuedString? source options opening parts = some result) :
    result.1.Ruled result.2 := by
  simp only [Draft.continuedString?, Option.bind_eq_bind, Option.bind_eq_some_iff, Option.pure_def,
    Option.some.injEq] at hresult
  obtain ⟨last, -, ⟨quote, earlier⟩, hquote, length, -, rfl⟩ := hresult
  obtain ⟨newer, hitems⟩ := openQuote?_eq_some hquote
  obtain ⟨-, -, hclosing⟩ := hpending.sectionTokens hparts
  have hsub : (parts.closing :: parts.after).Sublist (opening :: rest) := by
    rw [sectionTokens?_eq_some hparts]
    exact ((List.sublist_append_right _ _).trans (List.sublist_append_right _ _)).cons opening
  have hleft := h.sublist hsub
  have hlt := hclosing.cut.lt
  have hdrop := (List.take_append_drop length
    (Source.dropBytes parts.closing.span.stop source)).symm
  refine foldl_sort (reread (sublist ?_ (List.dropWhile_sublist _)) _ (hclosing.cut.stop.add hdrop)
    ?_ (fun token htoken => ?_) ?_) true none
  · exact hleft.joinedString { options, opening, closing := parts.closing, literal := some _ } hsound
      hclosing hitems rfl rfl rfl rfl rfl
  · rintro last ⟨⟩
    exact Nat.le_refl _
  · exact (List.pairwise_cons.mp hleft.ordered).1 token ((List.dropWhile_sublist _).subset htoken)
  · refine List.forall_mem_cons.mpr ⟨Nat.le_add_right _ _, fun around haround => ?_⟩
    have hle := hleft.behind parts.closing List.mem_cons_self around haround
    omega

theorem continuation? (h : draft.Ruled (opening :: rest)) (hsound : draft.Sound source bound)
    (hpending : Pending source bound (opening :: rest))
    (hresult : draft.continuation? source opening rest = some result) :
    result.1.Ruled result.2 := by
  obtain ⟨parts, options, hparts, hstring | rfl⟩ := Draft.continuation?_cases hresult
  · exact h.continuedString? hsound hpending hparts hstring
  · exact h.joinedLines hsound hpending hparts

theorem next (h : draft.Ruled (token :: rest)) (hsound : draft.Sound source bound)
    (hpending : Pending source bound (token :: rest)) :
    (draft.next source token rest).1.Ruled (draft.next source token rest).2 := by
  rcases draft.next_cases source token rest with ⟨hopens, hnext⟩ | hnext | hnext | hnext
  · rw [hnext]
    exact h.blockComment hpending hopens
  · rw [hnext]
    exact (h.sublist (List.sublist_cons_self _ _)).comment token
  · exact h.continuation? hsound hpending hnext
  · rw [hnext]
    exact h.emit none

end Draft.Ruled

theorem ofSource_ruled (source : Source) :
    (Draft.read source {} (tokenize source)).Ruled [] := by
  have hempty : Draft.Ruled {} (tokenize source) := by
    refine ⟨fun item earlier hsuffix => ?_, rfl, by simp [Draft.lines], by simp, ?_⟩
    · cases List.suffix_nil.mp hsuffix
    · obtain ⟨hcut, hordered⟩ := Token.tokenize_ordered source
      refine hordered.imp_of_mem fun htoken hnext hfollows => ?_
      have hlt := (hcut _ htoken).lt
      exact line_le_of_start_le htoken hnext (Nat.le_trans (Nat.le_of_lt hlt) hfollows.1)
  refine (Draft.read_invariant (motive := fun draft tokens => draft.Ruled tokens ∧
    ∃ bound, draft.Sound source bound ∧ Pending source bound tokens) ?_
    ⟨hempty, 0, sound_empty source, pending_tokenize source⟩).1
  rintro draft token rest ⟨h, bound, hsound, hpending⟩
  exact ⟨h.next hsound hpending, hsound.next hpending⟩

/-- In a list that comes latest first, the elements before a place are those behind it. -/
theorem exists_suffix_of_getElem?_reverse {α : Type} {l : List α} {i : Nat} {a : α}
    (h : l.reverse[i]? = some a) :
    ∃ earlier, a :: earlier <:+ l ∧ ∀ b, b ∈ earlier ↔ ∃ j < i, l.reverse[j]? = some b := by
  obtain ⟨hlt, rfl⟩ := List.getElem?_eq_some_iff.mp h
  refine ⟨(l.reverse.take i).reverse, ⟨(l.reverse.drop (i + 1)).reverse, ?_⟩, fun b => ?_⟩
  · rw [← List.reverse_inj, List.reverse_append, List.reverse_cons, List.reverse_reverse,
      List.reverse_reverse, List.append_assoc, List.singleton_append, ← List.drop_eq_getElem_cons,
      List.take_append_drop]
  · rw [List.mem_reverse, List.mem_iff_getElem?]
    simp only [List.getElem?_take, Option.ite_none_right_eq_some]

/-- A token outside the continuation sections starts no logical line just if an earlier token, or
the parenthesis that closes a section before it, stands on its physical line. -/
theorem startsLine_eq_false_iff {i : Nat} (hitem : (ofSource source).items[i]? = some item)
    (hnone : item.inSection = none) :
    item.startsLine = false ↔
      (∃ j < i, ∃ other, (ofSource source).items[j]? = some other ∧
        other.token.span.line = item.token.span.line) ∨
      ∃ around ∈ (ofSource source).sections, around.closing.span.stop ≤ item.token.span.start ∧
        around.closing.span.line = item.token.span.line := by
  simp only [ofSource, Draft.toStream, List.getElem?_toArray] at hitem ⊢
  obtain ⟨earlier, hsuffix, hearlier⟩ := exists_suffix_of_getElem?_reverse hitem
  rw [(ofSource_ruled source).marked item earlier hsuffix hnone, Shares]
  refine or_congr ?_ (by simp)
  grind

/-- A minus behind the closing parenthesis of a section carries on the line. -/
theorem startsLine_eq_false_iff_section :
    ∃ item, (ofSource "x =\n(\na\n) - 2".toList).items[3]? = some item ∧
      item.inSection = none ∧ item.token.text = "-" ∧ item.startsLine = false := by
  have hitem : (ofSource "x =\n(\na\n) - 2".toList).items[3]? =
      some ⟨⟨.symbol, "-", ⟨10, 11, 3, 2⟩, false⟩, false, none⟩ := by decide +kernel
  have hmem : (⟨{}, ⟨.symbol, "(", ⟨4, 5, 1, 0⟩, true⟩, ⟨.symbol, ")", ⟨8, 9, 3, 0⟩, true⟩, none⟩ :
      Section) ∈ (ofSource "x =\n(\na\n) - 2".toList).sections := by decide +kernel
  exact ⟨_, hitem, rfl, rfl,
    (startsLine_eq_false_iff hitem rfl).mpr (.inr ⟨_, hmem, by decide, rfl⟩)⟩

end HotkeyScript.Stream
