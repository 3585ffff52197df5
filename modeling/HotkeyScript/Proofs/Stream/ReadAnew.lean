import HotkeyScript.Proofs.Stream.Fits
import HotkeyScript.Proofs.Stream.Sections
import HotkeyScript.Proofs.Token.Lexed
import Mathlib.Data.List.Pairwise

/-!
# Lines that are read anew

The pass takes its tokens from the lexer, one after the other. Twice it goes back to the text: when
a block comment ends inside a token, and when a continued string is closed behind its section, the
rest of the line is read anew. This module says once what a step of the pass can do, with all that
it knows about the tokens it takes, and which lines are read anew behind a block comment.

## Main definitions

* `Stream.ReadAnew` — a span on a line that is read anew behind a block comment.
* `Stream.Draft.Step` — what a step of the pass can do.
* `Stream.Draft.Traced` — the tokens that are left are the last ones of the source, and none of them
  is read anew.
-/

namespace HotkeyScript.Stream

open Source (IsBoundary byteLength lineBefore)
open Text (Unbroken)
open Token (Cut Follows Located tokenize tokenizeLine)

variable {source : Source} {bound : Nat} {draft draft' : Draft} {token slash last comment : Token}
  {tokens rest pending pending' comments comments' added : List Token} {span : Span} {item : Item}
  {apart : Bool} {inSection : Option Nat}

/-! ## Sorted tokens -/

/-- The comments that are kept apart come on top of those of the draft. -/
theorem comments_foldl_sort_eq (apart : Bool) (inSection : Option Nat) (tokens : List Token)
    (draft : Draft) :
    (tokens.foldl (Draft.sort apart inSection) draft).comments =
      (tokens.filter fun token => token.kind = .comment && apart).reverse ++ draft.comments := by
  induction tokens generalizing draft with
  | nil => rfl
  | cons token tokens ih => grind [Draft.sort, Draft.comment, Draft.emit]

/-- The other tokens come on top of the items, in the section that is given. -/
theorem items_foldl_sort (tokens : List Token) (draft : Draft) :
    ∃ newer, (tokens.foldl (Draft.sort apart inSection) draft).items = newer ++ draft.items ∧
      newer.map (·.token) =
        (tokens.filter fun token => !(token.kind = .comment && apart)).reverse ∧
      ∀ item ∈ newer, item.inSection = inSection := by
  induction tokens generalizing draft with
  | nil => exact ⟨[], rfl, rfl, List.forall_mem_nil _⟩
  | cons token tokens ih =>
    obtain ⟨newer, hitems, htokens, hsection⟩ := ih (draft.sort apart inSection token)
    rw [List.foldl_cons, hitems]
    by_cases hapart : (token.kind = .comment && apart) = true
    · refine ⟨newer, ?_, ?_, hsection⟩
      · rw [Draft.sort, if_pos hapart]
        rfl
      · rw [htokens, List.filter_cons_of_neg (by simp [hapart])]
    · refine ⟨newer ++ [⟨token, inSection.isNone && draft.lastLine != some token.span.line,
        inSection⟩], ?_, ?_, ?_⟩
      · rw [Draft.sort, if_neg hapart, List.append_assoc]
        rfl
      · rw [List.map_append, htokens, List.filter_cons_of_pos (by simp [hapart]),
          List.reverse_cons]
        rfl
      · exact List.forall_mem_append.mpr ⟨hsection, List.forall_mem_singleton.mpr rfl⟩

theorem sections_foldl_sort (tokens : List Token) (draft : Draft) :
    (tokens.foldl (Draft.sort apart inSection) draft).sections = draft.sections := by
  induction tokens generalizing draft with
  | nil => rfl
  | cons token tokens ih => grind [Draft.sort, Draft.comment, Draft.emit]

theorem mem_items_foldl_sort (h : item ∈ (tokens.foldl (Draft.sort apart inSection) draft).items) :
    item ∈ draft.items ∨ item.token ∈ tokens ∧ item.inSection = inSection ∧
      (item.token.kind = .comment → apart = false) := by
  obtain ⟨newer, hitems, htokens, hsection⟩ := items_foldl_sort tokens draft
  rw [hitems] at h
  rcases List.mem_append.mp h with h | h
  · have hmem := List.mem_map_of_mem (f := (·.token)) h
    simp only [htokens, List.mem_reverse, List.mem_filter] at hmem
    exact .inr ⟨hmem.1, hsection item h, by simpa [imp_iff_not_or] using hmem.2⟩
  · exact .inl h

theorem exists_mem_items_foldl_sort (inSection : Option Nat) (draft : Draft) (h : token ∈ tokens)
    (hapart : token.kind = .comment → apart = false) :
    ∃ item ∈ (tokens.foldl (Draft.sort apart inSection) draft).items,
      item.token = token ∧ item.inSection = inSection := by
  obtain ⟨newer, hitems, htokens, hsection⟩ :=
    @items_foldl_sort apart inSection tokens draft
  have hmem : token ∈ newer.map (·.token) := by
    rw [htokens, List.mem_reverse, List.mem_filter]
    exact ⟨h, by simpa [imp_iff_not_or] using hapart⟩
  obtain ⟨item, hitem, rfl⟩ := List.mem_map.mp hmem
  exact ⟨item, hitems ▸ List.mem_append_left _ hitem, rfl, hsection item hitem⟩

theorem subset_items_foldl_sort (apart : Bool) (inSection : Option Nat) (tokens : List Token)
    (draft : Draft) :
    draft.items ⊆ (tokens.foldl (Draft.sort apart inSection) draft).items := by
  obtain ⟨newer, hitems, -, -⟩ := items_foldl_sort tokens draft
  rw [hitems]
  exact List.subset_append_right _ _

/-! ## Block comments -/

/-- The token is a block comment. -/
def IsBlock (token : Token) : Prop :=
  "/*".toList <+: token.text.toList

instance (token : Token) : Decidable (IsBlock token) :=
  inferInstanceAs (Decidable (_ <+: _))

/-- The block comment that the token `slash` starts. -/
def blockToken (source : Source) (slash : Token) : Token :=
  { kind := .comment
    text := String.ofList
      (Source.slice source slash.span.start (commentEnd source slash.span.start))
    span := slash.span.to (commentEnd source slash.span.start)
    opensLine := true }

@[simp] theorem blockToken_kind (source : Source) (slash : Token) :
    (blockToken source slash).kind = .comment := rfl

@[simp] theorem blockToken_start (source : Source) (slash : Token) :
    (blockToken source slash).span.start = slash.span.start := rfl

@[simp] theorem blockToken_stop (source : Source) (slash : Token) :
    (blockToken source slash).span.stop = commentEnd source slash.span.start := rfl

/-- The span stands behind a block comment that ends inside a token, on the line of this token. -/
def ReadAnew (source : Source) (comments : List Token) (span : Span) : Prop :=
  ∃ comment ∈ comments, IsBlock comment ∧ comment.span.stop ≤ span.start ∧
    ∃ token ∈ tokenize source, token.span.line = span.line ∧ token.Encloses comment.span.stop

instance (source : Source) (comments : List Token) (span : Span) :
    Decidable (ReadAnew source comments span) :=
  inferInstanceAs (Decidable (∃ _ ∈ _, _))

/-- Comments of the lexer are not block comments. -/
theorem not_isBlock_of_lexed (h : Token.Lexed source token) (hkind : token.kind = .comment) :
    ¬IsBlock token := by
  intro hblock
  obtain ⟨rest, hrest⟩ := hblock
  have hhead := (h.of_comment hkind).2
  rw [← hrest] at hhead
  cases hhead

theorem ReadAnew.mono (h : ReadAnew source comments span)
    (hsub : comments ⊆ comments') : ReadAnew source comments' span := by
  obtain ⟨comment, hcomment, hanew⟩ := h
  exact ⟨comment, hsub hcomment, hanew⟩

/-- Comments of the lexer, and block comments that end behind a span, do not matter to it. -/
theorem readAnew_append (h : ∀ comment ∈ added, IsBlock comment → span.start < comment.span.stop) :
    ReadAnew source (added ++ comments) span ↔ ReadAnew source comments span := by
  refine ⟨?_, fun h => h.mono (List.subset_append_right _ _)⟩
  rintro ⟨comment, hcomment, hblock, hle, hanew⟩
  rcases List.mem_append.mp hcomment with hcomment | hcomment
  · have := h comment hcomment hblock
    omega
  · exact ⟨comment, hcomment, hblock, hle, hanew⟩

theorem readAnew_cons (h : IsBlock comment → span.start < comment.span.stop) :
    ReadAnew source (comment :: comments) span ↔ ReadAnew source comments span := by
  have hadded : ∀ other ∈ [comment], IsBlock other → span.start < other.span.stop := by
    simpa using h
  exact readAnew_append hadded

/-! ## The order of the lexer's tokens -/

/-- Lines do not go down. -/
theorem line_le_of_start_le {other : Token} (h : token ∈ tokenize source)
    (h' : other ∈ tokenize source) (hle : token.span.start ≤ other.span.start) :
    token.span.line ≤ other.span.line := by
  obtain ⟨hcut, -⟩ := Token.tokenize_ordered source
  have hline := (Token.tokenize_located h).line_eq (Token.tokenize_located h') (hcut token h)
    (hcut other h') hle
  omega

/-- Of two tokens one comes behind the other. -/
theorem eq_or_follows {other : Token} (h : token ∈ tokenize source) (h' : other ∈ tokenize source) :
    token = other ∨ Follows source token other ∨ Follows source other token := by
  obtain ⟨-, hordered⟩ := Token.tokenize_ordered source
  have hbehind : (tokenize source).Pairwise fun a b =>
      a = b ∨ Follows source a b ∨ Follows source b a := hordered.imp fun hab => .inr (.inl hab)
  have hbefore : (tokenize source).Pairwise (flip fun a b =>
      a = b ∨ Follows source a b ∨ Follows source b a) := hordered.imp fun hab => .inr (.inr hab)
  exact hbehind.forall_of_forall_of_flip (fun _ _ => .inl rfl) hbefore h h'

/-- An offset lies inside one token at most. -/
theorem eq_of_encloses {other : Token} {offset : Nat} (h : token ∈ tokenize source)
    (h' : other ∈ tokenize source) (hinside : token.Encloses offset)
    (hinside' : other.Encloses offset) : token = other := by
  obtain ⟨hlt, hlt'⟩ := hinside
  obtain ⟨hlt₂, hlt₂'⟩ := hinside'
  rcases eq_or_follows h h' with heq | hfollows | hfollows
  · exact heq
  · have := hfollows.1
    omega
  · have := hfollows.1
    omega

/-- Behind the tokens of a line all tokens are on later lines. -/
theorem line_ne_of_mem_dropWhile (hlast : last ∈ tokenize source)
    (htokens : ∀ token ∈ tokens, token ∈ tokenize source ∧ last.span.start ≤ token.span.start)
    (hordered : tokens.Pairwise (Follows source)) :
    ∀ token ∈ tokens.dropWhile (·.span.line == last.span.line),
      token.span.line ≠ last.span.line := by
  have hsub := List.dropWhile_sublist (l := tokens) (·.span.line == last.span.line)
  have hhead := List.head?_dropWhile_not (·.span.line == last.span.line) tokens
  cases hdrop : tokens.dropWhile (·.span.line == last.span.line) with
  | nil => exact List.forall_mem_nil _
  | cons first after =>
    rw [hdrop] at hsub hhead
    have hfirst := htokens first (hsub.subset List.mem_cons_self)
    have hlt : last.span.line < first.span.line := by
      have hle := line_le_of_start_le hlast hfirst.1 hfirst.2
      have hne : first.span.line ≠ last.span.line := by simpa using hhead
      omega
    intro token htoken
    rcases List.mem_cons.mp htoken with rfl | htoken
    · omega
    · have hmem := htokens token (hsub.subset (List.mem_cons_of_mem _ htoken))
      have hfollows := (List.pairwise_cons.mp (hordered.sublist hsub)).1 token htoken
      have hcut := (Token.tokenize_ordered source).1 first hfirst.1
      have hle := line_le_of_start_le hfirst.1 hmem.1
        (Nat.le_trans (Nat.le_of_lt hcut.lt) hfollows.1)
      omega

/-! ## Steps of the pass -/

/-- What a step of the pass can do with the tokens that are left. -/
inductive Draft.Step (source : Source) (draft : Draft) :
    List Token → Draft → List Token → Prop where
  /-- A token that is no comment is added. -/
  | emit {token : Token} {rest : List Token} (hkind : token.kind ≠ .comment) :
    draft.Step source (token :: rest) (draft.emit none token) rest
  /-- A comment is kept apart. -/
  | comment {token : Token} {rest : List Token} (hkind : token.kind = .comment) :
    draft.Step source (token :: rest) (draft.comment token) rest
  /-- A block comment that ends between two tokens hides the tokens before its end. -/
  | block {slash : Token} {hidden after : List Token} (hkind : slash.kind ≠ .comment)
    (hblock : IsBlock (blockToken source slash))
    (hstop : slash.span.stop < (blockToken source slash).span.stop)
    (hhidden : ∀ token ∈ hidden, token.span.start < (blockToken source slash).span.stop)
    (hends : ∀ token ∈ tokenize source, ¬token.Encloses (blockToken source slash).span.stop) :
    draft.Step source (slash :: (hidden ++ after)) (draft.comment (blockToken source slash)) after
  /-- Behind a block comment that ends inside a token the rest of the line is read anew. -/
  | blockInside {slash last : Token} {hidden line after : List Token}
    (hkind : slash.kind ≠ .comment) (hblock : IsBlock (blockToken source slash))
    (hstop : slash.span.stop < (blockToken source slash).span.stop)
    (hboundary : IsBoundary source (blockToken source slash).span.stop)
    (hhidden : ∀ token ∈ hidden, token.span.start < (blockToken source slash).span.stop)
    (hlast : last ∈ tokenize source) (hinside : last.Encloses (blockToken source slash).span.stop)
    (hline : ∀ token ∈ line, token.span.line = last.span.line ∧
      (blockToken source slash).span.stop ≤ token.span.start)
    (hafter : ∀ token ∈ after, token.span.line ≠ last.span.line) :
    draft.Step source (slash :: (hidden ++ (line ++ after)))
      ((tokenizeLine source (blockToken source slash).span.stop last.span.line
        (lineBefore source (blockToken source slash).span.stop).length).foldl
          (Draft.sort false none) (draft.comment (blockToken source slash))) after
  /-- A section adds its lines. -/
  | lines {opening : Token} {rest : List Token} {parts : SectionTokens} {options : Section.Options}
    (hkind : opening.kind ≠ .comment) (hparts : sectionTokens? opening rest = some parts) :
    draft.Step source (opening :: rest) (draft.joinedLines options opening parts).1 parts.after
  /-- A section carries on a string from an open quote to `stop`, and the rest of the line is read
  anew. -/
  | string {opening : Token} {rest line after : List Token} {parts : SectionTokens}
    {around : Section} {joined : Draft} {item quote : Item} {newer earlier : List Item} {stop : Nat}
    (hkind : opening.kind ≠ .comment) (hparts : sectionTokens? opening rest = some parts)
    (hitems : draft.items = newer ++ quote :: earlier)
    (hnewer : ∀ item ∈ quote :: newer, item.inSection = none)
    (hquote : isOpenQuote quote.token = true)
    (hjoined : joined.items = item :: earlier)
    (hitem : item.token.kind = .string ∧ item.token.span = quote.token.span.to stop ∧
      item.inSection = some draft.sections.length)
    (hsections : joined.sections = around :: draft.sections)
    (haround : around.opening = opening ∧ around.closing = parts.closing ∧
      around.literal.isSome = true)
    (hcomments : joined.comments = (parts.inner.filter fun token =>
      token.kind = .comment && around.options.comments).reverse ++ draft.comments)
    (hstop : parts.closing.span.stop < stop) (hboundary : IsBoundary source stop)
    (hposition : (Source.position source stop).1 = parts.closing.span.line)
    (hrest : parts.after = line ++ after)
    (hline : ∀ token ∈ line, token.span.line = parts.closing.span.line) :
    draft.Step source (opening :: rest)
      ((tokenizeLine source stop parts.closing.span.line (lineBefore source stop).length).foldl
        (Draft.sort true none) joined) after

/-- The tokens that are left are the last ones of the source, all that the draft holds lies before
them, and none of them is on a line that is read anew. -/
structure Draft.Traced (draft : Draft) (source : Source) (pending : List Token) : Prop where
  suffix : pending <:+ tokenize source
  sound : ∃ bound, draft.Sound source bound ∧ Pending source bound pending
  fresh : ∀ token ∈ pending, ¬ReadAnew source draft.comments token.span

namespace Draft.Traced

theorem mem (h : draft.Traced source pending) (htoken : token ∈ pending) :
    token ∈ tokenize source :=
  h.suffix.subset htoken

/-- What the draft holds ends before the tokens that are left start. -/
theorem stop_le (h : draft.Traced source pending) {other : Token}
    (hother : other ∈ draft.items.map (·.token) ∨ other ∈ draft.comments) :
    ∀ token ∈ pending, other.span.stop ≤ token.span.start := by
  obtain ⟨bound, hsound, hpending⟩ := h.sound
  intro token htoken
  have hle := (hpending.1 token htoken).2
  rcases hother with hother | hother
  · have := (hsound.items.1 other hother).2
    omega
  · have := (hsound.comments.1 other hother).2
    omega

theorem start_lt (h : draft.Traced source pending) {other : Token}
    (hother : other ∈ draft.items.map (·.token) ∨ other ∈ draft.comments) :
    other.span.start < other.span.stop := by
  obtain ⟨bound, hsound, -⟩ := h.sound
  rcases hother with hother | hother
  · exact (hsound.items.1 other hother).1.lt
  · exact (hsound.comments.1 other hother).1.lt

theorem tail_le (h : draft.Traced source (token :: rest)) :
    ∀ other ∈ rest, token.span.stop ≤ other.span.start := by
  obtain ⟨bound, -, hpending⟩ := h.sound
  exact fun other hother => (hpending.tail.1 other hother).2

/-- The first of the tokens that are left starts before the others. -/
theorem head_le (h : draft.Traced source (token :: rest)) :
    ∀ other ∈ token :: rest, token.span.start ≤ other.span.start := by
  have hlt := ((Token.tokenize_ordered source).1 token (h.mem List.mem_cons_self)).lt
  refine List.forall_mem_cons.mpr ⟨Nat.le_refl _, fun other hother => ?_⟩
  have := h.tail_le other hother
  omega

/-- A token of the source that is not left lies before the tokens that are. -/
theorem follows (h : draft.Traced source pending) {raw : Token} (hraw : raw ∈ tokenize source)
    (hnot : raw ∉ pending) : ∀ token ∈ pending, Follows source raw token := by
  obtain ⟨taken, htaken⟩ := h.suffix
  have hordered := (Token.tokenize_ordered source).2
  rw [← htaken] at hraw hordered
  rcases List.mem_append.mp hraw with hraw | hraw
  · exact (List.pairwise_append.mp hordered).2.2 raw hraw
  · exact absurd hraw hnot

end Draft.Traced

/-- The tokens of the header are on the line of the opening parenthesis, and the section ends with a
closing parenthesis. -/
theorem sectionTokens?_lines {opening : Token} {parts : SectionTokens}
    (h : sectionTokens? opening rest = some parts) :
    (∀ token ∈ parts.header, token.span.line = opening.span.line) ∧ parts.closing.text = ")" := by
  simp only [sectionTokens?] at h
  split at h
  · cases h
  split at h
  · cases h
  · next closing after hclosing =>
    cases h
    refine ⟨fun token htoken => by simpa using List.mem_takeWhile_imp htoken, ?_⟩
    have hhead := List.head?_dropWhile_not (!closesSection ·)
      (rest.dropWhile (·.span.line == opening.span.line))
    rw [hclosing] at hhead
    simp only [List.head?_cons, closesSection] at hhead
    grind

/-- A block comment takes a step of one of the two kinds. -/
theorem Draft.Traced.step_blockComment (h : draft.Traced source (slash :: rest))
    (hopens : opensBlockComment slash rest = true) :
    draft.Step source (slash :: rest) (draft.blockComment source slash rest).1
      (draft.blockComment source slash rest).2 := by
  obtain ⟨bound, -, hpending⟩ := h.sound
  obtain ⟨hboundary, hstop, hslice⟩ := slice_commentEnd hpending hopens
  have hkind : slash.kind ≠ .comment := by
    refine (Token.tokenize_lexed (h.mem List.mem_cons_self)).kind_ne_comment ?_
    cases rest with
    | nil => cases hopens
    | cons next rest => grind [opensBlockComment]
  have hblock : IsBlock (blockToken source slash) := by
    simp only [IsBlock, blockToken, hslice, String.toList_ofList]
    exact List.prefix_append ['/', '*'] _
  have hhidden : ∀ token ∈ rest.takeWhile (·.span.start < commentEnd source slash.span.start),
      token.span.start < commentEnd source slash.span.start := by
    intro token htoken
    simpa using List.mem_takeWhile_imp htoken
  have hbehind := hpending.behindComment.1
  have hsplit : rest = rest.takeWhile (·.span.start < commentEnd source slash.span.start) ++
    rest.dropWhile (·.span.start < commentEnd source slash.span.start) :=
    List.takeWhile_append_dropWhile.symm
  simp only [Draft.blockComment]
  generalize rest.takeWhile (·.span.start < commentEnd source slash.span.start) = hidden at *
  generalize rest.dropWhile (·.span.start < commentEnd source slash.span.start) = after at *
  subst hsplit
  have hordered := (List.pairwise_cons.mp hpending.2).2
  have hlast := List.getLastD_mem_cons (l := hidden) (a := slash)
  have hmem := h.mem (List.cons_subset_cons slash (List.subset_append_left hidden after) hlast)
  have hstart : (hidden.getLastD slash).span.start < commentEnd source slash.span.start := by
    rcases List.mem_cons.mp hlast with heq | hlast
    · have hlt := hpending.cut.lt
      rw [heq]
      omega
    · exact hhidden _ hlast
  split
  · next hinside =>
    have hline := (List.takeWhile_append_dropWhile (l := after)
      (p := (·.span.line == (hidden.getLastD slash).span.line))).symm
    have hsame : ∀ token ∈ after.takeWhile (·.span.line == (hidden.getLastD slash).span.line),
        token.span.line = (hidden.getLastD slash).span.line ∧
          commentEnd source slash.span.start ≤ token.span.start := by
      intro token htoken
      refine ⟨by simpa using List.mem_takeWhile_imp htoken, ?_⟩
      exact (hbehind token ((List.takeWhile_sublist _).subset htoken)).2
    have hlater : ∀ token ∈ after, token ∈ tokenize source ∧
        (hidden.getLastD slash).span.start ≤ token.span.start := by
      intro token htoken
      refine ⟨h.mem (List.mem_cons_of_mem _ (List.mem_append_right _ htoken)), ?_⟩
      have := (hbehind token htoken).2
      omega
    have hafter := line_ne_of_mem_dropWhile hmem hlater
      (hordered.sublist (List.sublist_append_right _ _))
    have hstep := @Draft.Step.blockInside source draft _ _ _ _ _ hkind hblock hstop hboundary
      hhidden hmem ⟨hstart, hinside⟩ hsame hafter
    rwa [← hline] at hstep
  · next hends =>
    refine .block hkind hblock hstop hhidden fun raw hraw hinside => ?_
    obtain ⟨hinside, hinside'⟩ := hinside
    simp only [blockToken_stop] at hinside hinside'
    by_cases hleft : raw ∈ slash :: (hidden ++ after)
    · rcases List.mem_cons.mp hleft with rfl | hleft
      · omega
      rcases List.mem_append.mp hleft with hleft | hleft
      · -- a hidden token ends with the last one, or before it starts
        rcases List.eq_nil_or_concat hidden with rfl | ⟨init, final, rfl⟩
        · cases hleft
        · simp only [List.concat_eq_append, List.getLastD_concat] at hends hstart hleft hordered
          rcases List.mem_append.mp hleft with hleft | hleft
          · have hfollows := (List.pairwise_append.mp (List.pairwise_append.mp hordered).1).2.2 raw
              hleft final List.mem_cons_self
            have := hfollows.1
            omega
          · cases List.mem_singleton.mp hleft
            omega
      · have := (hbehind raw hleft).2
        omega
    · have := (h.follows hraw hleft slash List.mem_cons_self).1
      have := hpending.cut.lt
      omega

theorem Draft.Traced.step_continuedString? {options : Section.Options} {parts : SectionTokens}
    {result : Draft × List Token} (h : draft.Traced source (token :: rest))
    (hkind : token.kind ≠ .comment) (hparts : sectionTokens? token rest = some parts)
    (hresult : draft.continuedString? source options token parts = some result) :
    draft.Step source (token :: rest) result.1 result.2 := by
  obtain ⟨bound, hsound, hpending⟩ := h.sound
  simp only [Draft.continuedString?, Option.bind_eq_bind, Option.bind_eq_some_iff, Option.pure_def,
    Option.some.injEq] at hresult
  obtain ⟨last, -, ⟨quote, earlier⟩, hquote, length, hlength, rfl⟩ := hresult
  obtain ⟨newer, hitems⟩ := openQuote?_eq_some hquote
  obtain ⟨unmarked, hunmarked, -, hnone⟩ := inSection_of_openQuote? hquote
  obtain ⟨-, -, hclosing⟩ := hpending.sectionTokens hparts
  have hrest := sectionTokens?_eq_some hparts
  have hmem : parts.closing ∈ token :: rest := by simp [hrest]
  have hlocated := Token.tokenize_located (h.mem hmem)
  have hnewer : newer ++ [quote] = unmarked := by
    refine List.append_cancel_right (?_ : _ ++ earlier = _ ++ earlier)
    rw [← hunmarked, hitems, List.append_assoc]
    rfl
  have hdrop := (List.take_append_drop length
    (Source.dropBytes parts.closing.span.stop source)).symm
  have hbehind := hlocated.behind
  have hlt := hclosing.cut.lt
  have hposition := Source.position_add_of_unbroken hclosing.cut.stop (by omega) hdrop
    (Token.unbroken_closingQuote hlength)
  have hpos := byteLength_take_closingQuote_pos hlength
  refine .string hkind hparts hitems (fun item hitem => hnone item ?_)
    (isOpenQuote_of_openQuote? hquote) rfl ⟨rfl, rfl, rfl⟩ rfl ⟨rfl, rfl, rfl⟩ rfl (by omega)
    (hclosing.cut.stop.add hdrop) ?_
    List.takeWhile_append_dropWhile.symm
    fun token htoken => by simpa using List.mem_takeWhile_imp htoken
  · rw [← hnewer]
    simpa [or_comm] using hitem
  · rw [hposition]
    exact hlocated.line_of_le hclosing.cut hclosing.cut.stop (Nat.le_of_lt hlt) (Nat.le_refl _)

/-- Every step of the pass is one of these. -/
theorem Draft.Traced.step_next (h : draft.Traced source (token :: rest)) :
    draft.Step source (token :: rest) (draft.next source token rest).1
      (draft.next source token rest).2 := by
  unfold Draft.next
  split
  · next hopens => exact h.step_blockComment (Bool.and_eq_true_iff.mp hopens).2
  split
  · next hkind => exact .comment hkind
  next hkind =>
  split
  · cases hresult : draft.continuation? source token rest with
    | none => exact .emit hkind
    | some result =>
      obtain ⟨parts, options, hparts, hstring | rfl⟩ := Draft.continuation?_cases hresult
      · exact h.step_continuedString? hkind hparts hstring
      · exact .lines hkind hparts
  · exact .emit hkind
/-! ## The whole pass -/

/-- The comments on top of others are comments of the lexer. -/
def AddsLexed (comments comments' : List Token) : Prop :=
  ∃ added, comments' = added ++ comments ∧ ∀ comment ∈ added, ¬IsBlock comment

/-- Comments of the lexer do not matter to a span. -/
theorem AddsLexed.readAnew_iff (h : AddsLexed comments comments') :
    ReadAnew source comments' span ↔ ReadAnew source comments span := by
  obtain ⟨added, rfl, hlexed⟩ := h
  exact readAnew_append fun comment hcomment hblock => absurd hblock (hlexed comment hcomment)

theorem Draft.Traced.not_isBlock (h : draft.Traced source pending) (hcomment : comment ∈ pending)
    (hkind : comment.kind = .comment) : ¬IsBlock comment :=
  not_isBlock_of_lexed (Token.tokenize_lexed (h.mem hcomment)) hkind

/-- A section adds comments of the lexer. -/
theorem Draft.Traced.addsLexed_lines {parts : SectionTokens} {options : Section.Options}
    (h : draft.Traced source (token :: rest)) (hparts : sectionTokens? token rest = some parts) :
    AddsLexed draft.comments (draft.joinedLines options token parts).1.comments := by
  refine ⟨_, comments_foldl_sort_eq _ _ parts.inner _, fun comment hcomment => ?_⟩
  simp only [List.mem_reverse, List.mem_filter, Bool.and_eq_true, decide_eq_true_eq] at hcomment
  exact h.not_isBlock (by simp [sectionTokens?_eq_some hparts, hcomment.1]) hcomment.2.1

/-- A section that carries on a string adds comments of the lexer. -/
theorem Draft.Traced.addsLexed_string {parts : SectionTokens} {joined : Draft} {p : Token → Bool}
    {offset : Nat} (h : draft.Traced source (token :: rest))
    (hparts : sectionTokens? token rest = some parts)
    (hcomments : joined.comments = (parts.inner.filter fun token =>
      token.kind = .comment && p token).reverse ++ draft.comments)
    (hoffset : IsBoundary source offset) (line column : Nat) :
    AddsLexed draft.comments ((tokenizeLine source offset line column).foldl
      (Draft.sort true none) joined).comments := by
  have hadded := comments_foldl_sort_eq true none (tokenizeLine source offset line column) joined
  rw [hcomments, ← List.append_assoc] at hadded
  refine ⟨_, hadded, List.forall_mem_append.mpr ⟨fun comment hcomment => ?_,
    fun comment hcomment => ?_⟩⟩
  · simp only [List.mem_reverse, List.mem_filter, Bool.and_eq_true, decide_eq_true_eq] at hcomment
    exact not_isBlock_of_lexed (Token.tokenizeLine_lexed hoffset hcomment.1) hcomment.2.1
  · simp only [List.mem_reverse, List.mem_filter, Bool.and_eq_true, decide_eq_true_eq] at hcomment
    exact h.not_isBlock (by simp [sectionTokens?_eq_some hparts, hcomment.1]) hcomment.2.1

/-- The comments that a step adds are comments of the lexer. Or it adds one block comment, and the
tokens that it leaves are on other lines than a token that the comment ends in. -/
theorem Draft.Step.comments_cases (hstep : draft.Step source pending draft' pending')
    (h : draft.Traced source pending) :
    AddsLexed draft.comments draft'.comments ∨
      ∃ slash ∈ pending, slash.span.start < (blockToken source slash).span.stop ∧
        draft'.comments = blockToken source slash :: draft.comments ∧
        ∀ last ∈ tokenize source, last.Encloses (blockToken source slash).span.stop →
          ∀ token ∈ pending', token.span.line ≠ last.span.line := by
  have hproper : ∀ token ∈ pending, token.span.start < token.span.stop := by
    intro token htoken
    exact ((Token.tokenize_ordered source).1 token (h.mem htoken)).lt
  cases hstep with
  | emit hkind => exact .inl ⟨[], rfl, List.forall_mem_nil _⟩
  | comment hkind =>
    have hlexed := h.not_isBlock List.mem_cons_self hkind
    exact .inl ⟨[_], rfl, List.forall_mem_singleton.mpr hlexed⟩
  | block hkind hblock hstop hhidden hends =>
    have hlt := hproper _ List.mem_cons_self
    refine .inr ⟨_, List.mem_cons_self, by omega, rfl, fun last hlast hinside => ?_⟩
    exact absurd hinside (hends last hlast)
  | blockInside hkind hblock hstop hboundary hhidden hlast hinside hline hafter =>
    have hlt := hproper _ List.mem_cons_self
    refine .inr ⟨_, List.mem_cons_self, by omega, ?_, fun last hlast' hinside' => ?_⟩
    · simp [comments_foldl_sort_eq, Draft.comment]
    · rwa [eq_of_encloses hlast' hlast hinside' hinside]
  | lines hkind hparts => exact .inl (h.addsLexed_lines hparts)
  | string hkind hparts hitems hnewer hquote hjoined hitem hsections haround hcomments hstop
      hboundary => exact .inl (h.addsLexed_string hparts hcomments hboundary _ _)

/-- A step leaves the last of the tokens. -/
theorem Draft.Step.suffix (hstep : draft.Step source pending draft' pending') :
    pending' <:+ pending := by
  cases hstep with
  | emit hkind => exact List.suffix_cons _ _
  | comment hkind => exact List.suffix_cons _ _
  | block => exact (List.suffix_append _ _).trans (List.suffix_cons _ _)
  | blockInside =>
    exact ((List.suffix_append _ _).trans (List.suffix_append _ _)).trans (List.suffix_cons _ _)
  | @lines opening rest parts options hkind hparts =>
    refine ⟨opening :: (parts.header ++ (parts.inner ++ [parts.closing])), ?_⟩
    simp [sectionTokens?_eq_some hparts]
  | @string opening rest line after parts around joined item quote newer earlier stop hkind hparts
      hitems hnewer hquote hjoined hitem hsections haround hcomments hstop hboundary hposition
      hrest =>
    refine ⟨opening :: (parts.header ++ (parts.inner ++ parts.closing :: line)), ?_⟩
    simp [sectionTokens?_eq_some hparts, hrest]

/-- What starts before the tokens that are left is read anew behind the new comments exactly if it
is behind the old ones. -/
theorem Draft.Step.readAnew_iff (hstep : draft.Step source pending draft' pending')
    (h : draft.Traced source pending) (hspan : ∀ token ∈ pending, span.start ≤ token.span.start) :
    ReadAnew source draft'.comments span ↔ ReadAnew source draft.comments span := by
  rcases hstep.comments_cases h with hlexed | ⟨slash, hslash, hlt, hcomments, -⟩
  · exact hlexed.readAnew_iff
  · rw [hcomments]
    refine readAnew_cons fun _ => ?_
    exact Nat.lt_of_le_of_lt (hspan slash hslash) hlt

/-- The tokens that a step leaves are on no line that it reads anew. -/
theorem Draft.Step.fresh (hstep : draft.Step source pending draft' pending')
    (h : draft.Traced source pending) :
    ∀ token ∈ pending', ¬ReadAnew source draft'.comments token.span := by
  intro token htoken hanew
  have hold := h.fresh token (hstep.suffix.subset htoken)
  rcases hstep.comments_cases h with hlexed | ⟨slash, -, -, hcomments, hline⟩
  · exact hold (hlexed.readAnew_iff.mp hanew)
  · rw [hcomments] at hanew
    obtain ⟨comment, hcomment, hblock, hle, last, hlast, heq, hinside⟩ := hanew
    rcases List.mem_cons.mp hcomment with rfl | hcomment
    · exact hline last hlast hinside token htoken heq.symm
    · exact hold ⟨comment, hcomment, hblock, hle, last, hlast, heq, hinside⟩

theorem Draft.Traced.next (h : draft.Traced source (token :: rest)) :
    (draft.next source token rest).1.Traced source (draft.next source token rest).2 := by
  obtain ⟨bound, hsound, hpending⟩ := h.sound
  have hstep := h.step_next
  exact ⟨hstep.suffix.trans h.suffix, hsound.next hpending, hstep.fresh h⟩

/-- What each step keeps holds of the whole pass. -/
theorem read_traced (source : Source) {motive : Draft → List Token → Prop}
    (step : ∀ draft pending draft' pending', draft.Step source pending draft' pending' →
      draft.Traced source pending → draft'.Traced source pending' → motive draft pending →
      motive draft' pending')
    (h : motive {} (tokenize source)) :
    motive (Draft.read source {} (tokenize source)) [] := by
  have hempty : Draft.Traced {} source (tokenize source) :=
    ⟨List.suffix_refl _, ⟨0, sound_empty source, pending_tokenize source⟩, by
      rintro token - ⟨comment, hcomment, -⟩
      cases hcomment⟩
  refine (Draft.read_invariant (motive := fun draft pending => draft.Traced source pending ∧
    motive draft pending) ?_ ⟨hempty, h⟩).2
  rintro draft token rest ⟨htraced, hmotive⟩
  exact ⟨htraced.next, step _ _ _ _ htraced.step_next htraced htraced.next hmotive⟩

end HotkeyScript.Stream
