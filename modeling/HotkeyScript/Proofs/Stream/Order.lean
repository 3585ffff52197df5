import HotkeyScript.Proofs.Stream.Positions
import HotkeyScript.Proofs.Token.Order

/-!
# The order of the stream

The pass that builds the stream goes over the source from left to right. What it has settled lies
before a bound, and the tokens that it has still to read lie behind it; each step moves the bound.
So the tokens of the stream, which may join several tokens of the lexer or come from a line that was
read anew, are still pieces of the source, one behind the other.

## Main definitions

* `Stream.Settled`, `Stream.Pending` — tokens before a bound, and tokens behind it.
* `Stream.Draft.Sound` — all that a draft holds is settled.
* `Stream.Draft.next` — one step of the pass.
-/

namespace HotkeyScript.Stream

open Source (IsBoundary BreakBetween byteLength lineEnd)
open Token (Cut Follows)

variable {source : Source} {bound bound' : Nat} {token : Token} {tokens : List Token}

/-! ## Tokens on either side of a bound -/

/-- The tokens are pieces of the source before the bound. They come latest first. -/
def Settled (source : Source) (bound : Nat) (tokens : List Token) : Prop :=
  (∀ token ∈ tokens, Cut source token ∧ token.span.stop ≤ bound) ∧
    tokens.Pairwise fun token earlier => earlier.span.stop ≤ token.span.start

/-- The tokens are pieces of the source behind the bound, in order. -/
def Pending (source : Source) (bound : Nat) (tokens : List Token) : Prop :=
  (∀ token ∈ tokens, Cut source token ∧ bound ≤ token.span.start) ∧
    tokens.Pairwise (Follows source)

theorem settled_nil : Settled source bound [] :=
  ⟨List.forall_mem_nil _, .nil⟩

theorem Settled.mono (h : Settled source bound tokens) (hle : bound ≤ bound') :
    Settled source bound' tokens := by
  refine ⟨fun token htoken => ?_, h.2⟩
  obtain ⟨hcut, hstop⟩ := h.1 token htoken
  exact ⟨hcut, Nat.le_trans hstop hle⟩

/-- A token behind the bound is settled by moving the bound behind it. -/
theorem Settled.cons (h : Settled source bound tokens) (hcut : Cut source token)
    (hle : bound ≤ token.span.start) : Settled source token.span.stop (token :: tokens) := by
  have hlt := hcut.lt
  refine ⟨?_, List.pairwise_cons.mpr ⟨?_, h.2⟩⟩
  · intro other hother
    rcases List.mem_cons.mp hother with rfl | hother
    · exact ⟨hcut, Nat.le_refl _⟩
    · exact (h.mono (by omega)).1 other hother
  · intro other hother
    exact Nat.le_trans (h.1 other hother).2 hle

theorem Pending.sublist {tokens' : List Token} (h : Pending source bound tokens)
    (hsub : tokens'.Sublist tokens) : Pending source bound tokens' :=
  ⟨fun token htoken => h.1 token (hsub.subset htoken), h.2.sublist hsub⟩

theorem Pending.mono (h : Pending source bound' tokens) (hle : bound ≤ bound') :
    Pending source bound tokens := by
  refine ⟨fun token htoken => ?_, h.2⟩
  obtain ⟨hcut, hstart⟩ := h.1 token htoken
  exact ⟨hcut, Nat.le_trans hle hstart⟩

/-- The bound may move up to the first token. -/
theorem Pending.raise (h : Pending source bound tokens)
    (hhead : ∀ token, tokens.head? = some token → bound' ≤ token.span.start) :
    Pending source bound' tokens := by
  refine ⟨?_, h.2⟩
  cases tokens with
  | nil => exact List.forall_mem_nil _
  | cons first tokens =>
    have hfirst := hhead first rfl
    intro token htoken
    refine ⟨(h.1 token htoken).1, ?_⟩
    rcases List.mem_cons.mp htoken with rfl | htoken
    · exact hfirst
    · have hlt := (h.1 first List.mem_cons_self).1.lt
      have hfollows := (List.pairwise_cons.mp h.2).1 token htoken
      have hle := hfollows.1
      omega

/-- The bound moves behind the first token. -/
theorem Pending.tail (h : Pending source bound (token :: tokens)) :
    Pending source token.span.stop tokens := by
  refine ⟨fun next hnext => ?_, (List.pairwise_cons.mp h.2).2⟩
  exact ⟨(h.1 next (List.mem_cons_of_mem _ hnext)).1, ((List.pairwise_cons.mp h.2).1 next hnext).1⟩

theorem Pending.cut (h : Pending source bound (token :: tokens)) : Cut source token :=
  (h.1 token List.mem_cons_self).1

theorem Pending.le (h : Pending source bound (token :: tokens)) : bound ≤ token.span.start :=
  (h.1 token List.mem_cons_self).2

/-- Behind a token, the tokens on other lines come behind the end of its line. -/
theorem Pending.dropLine {last : Token} {offset line : Nat} (h : Pending source bound tokens)
    (hlast : ∀ token ∈ tokens, Follows source last token) (hline : last.span.line = line)
    (hoffset : IsBoundary source offset)
    (hle : ∀ b, BreakBetween source last.span.stop b → BreakBetween source offset b) :
    Pending source (lineEnd source offset + 1) (tokens.dropWhile (·.span.line == line)) := by
  refine (h.sublist (List.dropWhile_sublist _)).raise fun token hhead => ?_
  have hmem : token ∈ tokens.dropWhile (·.span.line == line) := List.mem_of_mem_head? hhead
  have hne : token.span.line ≠ line := by
    have := List.head?_dropWhile_not (·.span.line == line) tokens
    rw [hhead] at this
    simpa using this
  have hfollows := hlast token ((List.dropWhile_sublist _).subset hmem)
  have hbreak := hle _ (hfollows.2 (hline ▸ hne))
  exact hbreak.lineEnd_lt hoffset

/-! ## Single steps -/

/-- All that the draft holds lies before the bound. -/
structure Draft.Sound (draft : Draft) (source : Source) (bound : Nat) : Prop where
  items : Settled source bound (draft.items.map (·.token))
  comments : Settled source bound draft.comments

namespace Draft.Sound

variable {draft : Draft}

theorem mono (h : draft.Sound source bound) (hle : bound ≤ bound') : draft.Sound source bound' :=
  ⟨h.items.mono hle, h.comments.mono hle⟩

theorem emit (h : draft.Sound source bound) (hcut : Cut source token)
    (hle : bound ≤ token.span.start) (inSection : Option Nat) :
    (draft.emit inSection token).Sound source token.span.stop := by
  have hlt := hcut.lt
  exact ⟨h.items.cons hcut hle, h.comments.mono (by omega)⟩

theorem comment (h : draft.Sound source bound) (hcut : Cut source token)
    (hle : bound ≤ token.span.start) :
    (draft.comment token).Sound source token.span.stop := by
  have hlt := hcut.lt
  exact ⟨h.items.mono (by omega), h.comments.cons hcut hle⟩

theorem sort (h : draft.Sound source bound) (hcut : Cut source token)
    (hle : bound ≤ token.span.start) (apart : Bool) (inSection : Option Nat) :
    (draft.sort apart inSection token).Sound source token.span.stop := by
  unfold Draft.sort
  split
  · exact h.comment hcut hle
  · exact h.emit hcut hle inSection

/-- Tokens between two bounds are settled one after the other. -/
theorem foldl_sort (h : draft.Sound source bound) (hpending : Pending source bound tokens)
    (hle : bound ≤ bound') (hstop : ∀ token ∈ tokens, token.span.stop ≤ bound') (apart : Bool)
    (inSection : Option Nat) :
    (tokens.foldl (Draft.sort apart inSection) draft).Sound source bound' := by
  induction tokens generalizing draft bound with
  | nil => exact h.mono hle
  | cons token tokens ih =>
    have hnext := h.sort hpending.cut hpending.le apart inSection
    exact ih hnext hpending.tail (hstop token List.mem_cons_self)
      fun other hother => hstop other (List.mem_cons_of_mem _ hother)

/-- A line is read anew from an offset to its end. -/
theorem foldl_tokenizeLine (h : draft.Sound source bound) (hbound : IsBoundary source bound)
    (line column : Nat) (apart : Bool) (inSection : Option Nat) :
    ((Token.tokenizeLine source bound line column).foldl (Draft.sort apart inSection) draft).Sound
      source (lineEnd source bound) := by
  obtain ⟨htokens, hpairwise⟩ := Token.tokenizeLine_ordered hbound line column
  refine h.foldl_sort ⟨fun token htoken => ?_, hpairwise⟩ (Nat.le_add_right _ _) ?_ apart inSection
  · exact ⟨(htokens token htoken).1, (htokens token htoken).2.1⟩
  · exact fun token htoken => (htokens token htoken).2.2

end Draft.Sound

/-! ## Block comments -/

theorem commentBody_prefix (cs : List Char) : commentBody cs <+: cs := by
  fun_induction commentBody cs with
  | case1 cs => exact ⟨cs, rfl⟩
  | case2 c cs hne ih => exact (List.prefix_cons_inj c).mpr ih
  | case3 => exact List.prefix_refl []

/-- A block comment starts with a slash and a star in the source. -/
theorem exists_of_opensBlockComment {slash : Token} {rest : List Token}
    (h : Pending source bound (slash :: rest)) (hopens : opensBlockComment slash rest = true) :
    ∃ before text, source = before ++ '/' :: '*' :: text ∧ slash.span.start = byteLength before ∧
      slash.span.stop = slash.span.start + 1 := by
  cases rest with
  | nil => cases hopens
  | cons next rest =>
    simp only [opensBlockComment, Bool.and_eq_true, beq_iff_eq, Token.touches] at hopens
    obtain ⟨⟨hslash, hstar⟩, htouches⟩ := hopens
    have hstop := h.cut.stop_eq
    have hdrop := h.cut.dropBytes_start
    rw [htouches, h.tail.cut.dropBytes_start, hslash] at hdrop
    obtain ⟨text, htext⟩ : ∃ text, next.text.toList = '*' :: text := List.head?_eq_some_iff.mp hstar
    obtain ⟨before, hsource, hstart⟩ := h.cut.start.dropBytes_append
    rw [htext] at hdrop
    rw [hdrop] at hsource
    exact ⟨before, _, hsource, hstart, by rw [hstop, hslash]; rfl⟩

/-- A block comment ends between two characters, behind its opening slash. Its text is the opening
and the body. -/
theorem slice_commentEnd {slash : Token} {rest : List Token}
    (h : Pending source bound (slash :: rest)) (hopens : opensBlockComment slash rest = true) :
    IsBoundary source (commentEnd source slash.span.start) ∧
      slash.span.stop < commentEnd source slash.span.start ∧
      Source.slice source slash.span.start (commentEnd source slash.span.start) =
        '/' :: '*' :: commentBody (Source.dropBytes (slash.span.start + 2) source) := by
  obtain ⟨before, text, rfl, hstart, hstop⟩ := exists_of_opensBlockComment h hopens
  obtain ⟨after, hafter⟩ := commentBody_prefix text
  have hdrop : Source.dropBytes (slash.span.start + 2) (before ++ '/' :: '*' :: text) = text := by
    have := Source.dropBytes_byteLength_append (before ++ ['/', '*']) text
    rwa [Source.byteLength_append, ← hstart, List.append_assoc] at this
  have hend : commentEnd (before ++ '/' :: '*' :: text) slash.span.start =
      byteLength before + byteLength ('/' :: '*' :: commentBody text) := by
    have hopening : byteLength ['/', '*'] = 2 := rfl
    have hsplit : '/' :: '*' :: commentBody text = ['/', '*'] ++ commentBody text := rfl
    rw [commentEnd, hdrop, hstart, hsplit, Source.byteLength_append, hopening, Nat.add_assoc]
  have hsource : before ++ '/' :: '*' :: text =
      before ++ ('/' :: '*' :: commentBody text ++ after) := by
    rw [List.cons_append, List.cons_append, hafter]
  refine ⟨?_, ?_, ?_⟩
  · rw [hend, ← Source.byteLength_append, hsource, ← List.append_assoc]
    exact Source.isBoundary_append _ _
  · rw [hstop, commentEnd]
    omega
  · rw [hend, hdrop, hstart, hsource, Source.slice_append]

/-- A token behind a bound comes behind the last token before it. -/
theorem Pending.follows_last {slash : Token} {hidden after : List Token}
    (h : Pending source bound (slash :: (hidden ++ after))) :
    ∀ token ∈ after, Follows source (hidden.getLastD slash) token := by
  intro token htoken
  have hpairwise := h.2
  rw [← List.cons_append] at hpairwise
  exact (List.pairwise_append.mp hpairwise).2.2 _ List.getLastD_mem_cons token htoken

theorem Draft.blockComment_sublist (source : Source) (draft : Draft) (slash : Token)
    (rest : List Token) : (draft.blockComment source slash rest).2.Sublist rest := by
  simp only [Draft.blockComment]
  split
  · exact (List.dropWhile_sublist _).trans (List.dropWhile_sublist _)
  · exact List.dropWhile_sublist _

/-- The tokens behind a block comment. -/
theorem Pending.behindComment {slash : Token} {rest : List Token}
    (h : Pending source bound (slash :: rest)) :
    Pending source (commentEnd source slash.span.start)
      (rest.dropWhile (·.span.start < commentEnd source slash.span.start)) := by
  refine (h.tail.sublist (List.dropWhile_sublist _)).raise fun token hhead => ?_
  have := List.head?_dropWhile_not (·.span.start < commentEnd source slash.span.start) rest
  rw [hhead] at this
  simpa using this

/-- The tokens behind the line on which a block comment ends inside a token. -/
theorem Pending.belowComment {slash last : Token} {rest : List Token}
    (h : Pending source bound (slash :: rest)) (hopens : opensBlockComment slash rest = true)
    (hlast : last =
      (rest.takeWhile (·.span.start < commentEnd source slash.span.start)).getLastD slash)
    (hlt : commentEnd source slash.span.start < last.span.stop) :
    Pending source (lineEnd source (commentEnd source slash.span.start) + 1)
      ((rest.dropWhile (·.span.start < commentEnd source slash.span.start)).dropWhile
        (·.span.line == last.span.line)) := by
  have hafter := h.behindComment
  obtain ⟨hboundary, -, -⟩ := slice_commentEnd h hopens
  have hsplit : rest = rest.takeWhile (·.span.start < commentEnd source slash.span.start) ++
      rest.dropWhile (·.span.start < commentEnd source slash.span.start) :=
    List.takeWhile_append_dropWhile.symm
  rw [hsplit] at h
  have hfollows := h.follows_last
  rw [← hlast] at hfollows
  exact hafter.dropLine hfollows rfl hboundary fun b hb =>
    hb.mono (Nat.le_of_lt hlt) (Nat.le_refl b)

theorem Draft.Sound.blockComment {draft : Draft} {slash : Token} {rest : List Token}
    (h : draft.Sound source bound) (hpending : Pending source bound (slash :: rest))
    (hopens : opensBlockComment slash rest = true) :
    ∃ bound', (draft.blockComment source slash rest).1.Sound source bound' ∧
      Pending source bound' (draft.blockComment source slash rest).2 := by
  obtain ⟨hboundary, hlt, -⟩ := slice_commentEnd hpending hopens
  have hstart := hpending.cut.lt
  have hcut : Cut source
      { kind := .comment
        text := String.ofList (Source.slice source slash.span.start
          (commentEnd source slash.span.start))
        span := slash.span.to (commentEnd source slash.span.start)
        opensLine := true } :=
    ⟨hpending.cut.start, hboundary, Nat.lt_trans hstart hlt, rfl⟩
  have hcomment := h.comment hcut hpending.le
  simp only [Draft.blockComment]
  split
  · next hlast =>
    have hbelow := hpending.belowComment hopens rfl hlast
    exact ⟨_, hcomment.foldl_tokenizeLine hboundary _ _ _ _, hbelow.mono (Nat.le_succ _)⟩
  · exact ⟨_, hcomment, hpending.behindComment⟩

/-! ## Continuation sections -/

/-- A section takes its tokens from the front of those that are left. -/
theorem sectionTokens?_eq_some {opening : Token} {rest : List Token} {parts : SectionTokens}
    (h : sectionTokens? opening rest = some parts) :
    rest = parts.header ++ (parts.inner ++ parts.closing :: parts.after) := by
  simp only [sectionTokens?] at h
  split at h
  · cases h
  · split at h
    · cases h
    · next closing after hclosing =>
      cases h
      simp only [← hclosing, List.takeWhile_append_dropWhile]

/-- The tokens of a section up to its closing parenthesis, and those behind it. -/
theorem Pending.sectionTokens {opening : Token} {rest : List Token} {parts : SectionTokens}
    (h : Pending source bound (opening :: rest)) (hparts : sectionTokens? opening rest = some parts) :
    Pending source bound parts.inner ∧
      (∀ token ∈ parts.inner, token.span.stop ≤ parts.closing.span.start) ∧
      Pending source bound (parts.closing :: parts.after) := by
  have hrest := sectionTokens?_eq_some hparts
  have hinner : (parts.inner ++ parts.closing :: parts.after).Sublist (opening :: rest) := by
    rw [hrest]
    exact (List.sublist_append_right _ _).trans (List.sublist_cons_self _ _)
  have hpending := h.sublist hinner
  refine ⟨hpending.sublist (List.sublist_append_left _ _), fun token htoken => ?_,
    hpending.sublist (List.sublist_append_right _ _)⟩
  exact ((List.pairwise_append.mp hpending.2).2.2 token htoken _ List.mem_cons_self).1

/-- The options of a section end with a piece of the source. -/
theorem cut_getLastD_header {opening : Token} {header : List Token} (hopening : Cut source opening)
    (hheader : ∀ token ∈ header, Cut source token) :
    Cut source ((header.filter (·.kind != .comment)).getLastD opening) := by
  refine List.forall_mem_cons.mpr ⟨hopening, hheader⟩ _ ?_
  exact List.cons_subset_cons opening List.filter_sublist.subset List.getLastD_mem_cons

theorem Draft.Sound.joinedLines {draft : Draft} {options : Section.Options} {opening : Token}
    {rest : List Token} {parts : SectionTokens} (h : draft.Sound source bound)
    (hpending : Pending source bound (opening :: rest))
    (hparts : sectionTokens? opening rest = some parts) :
    ∃ bound', (draft.joinedLines options opening parts).1.Sound source bound' ∧
      Pending source bound' (draft.joinedLines options opening parts).2 := by
  obtain ⟨hinner, hstop, hclosing⟩ := hpending.sectionTokens hparts
  have hlt := hclosing.cut.lt
  have hle := hclosing.le
  have hentered : Draft.Sound
      { draft with
        sections := { options, opening, closing := parts.closing } :: draft.sections }
      source bound :=
    ⟨h.items, h.comments⟩
  have hread := hentered.foldl_sort hinner (show bound ≤ parts.closing.span.stop by omega)
    (fun token htoken => Nat.le_trans (hstop token htoken) (Nat.le_of_lt hlt))
    options.comments (some draft.sections.length)
  exact ⟨_, ⟨hread.items, hread.comments⟩, hclosing.tail⟩

theorem openQuote?_eq_some {line : Nat} {items before : List Item} {quote : Item}
    (h : openQuote? line items = some (quote, before)) :
    ∃ newer, items = newer ++ quote :: before := by
  fun_induction openQuote? line items with
  | case1 => cases h
  | case2 item items hline => cases h
  | case3 item items hline found hfound ih =>
    cases h
    obtain ⟨newer, hnewer⟩ := ih hfound
    exact ⟨item :: newer, by rw [hnewer, List.cons_append]⟩
  | case4 item items hline hnone hquote ih =>
    cases h
    exact ⟨[], rfl⟩
  | case5 item items hline hnone hquote ih => cases h

/-- Tokens behind the bound are settled together. -/
theorem Settled.append {later : List Token} (h : Settled source bound tokens)
    (hpending : Pending source bound later) (hle : bound ≤ bound')
    (hstop : ∀ token ∈ later, token.span.stop ≤ bound') :
    Settled source bound' (later.reverse ++ tokens) := by
  induction later generalizing tokens bound with
  | nil => exact h.mono hle
  | cons token later ih =>
    rw [List.reverse_cons, List.append_assoc]
    exact ih (h.cons hpending.cut hpending.le) hpending.tail (hstop token List.mem_cons_self)
      fun other hother => hstop other (List.mem_cons_of_mem _ hother)

/-- What was settled before a token lies before its start. -/
theorem Settled.before {newer earlier : List Token}
    (h : Settled source bound (newer ++ token :: earlier)) :
    Cut source token ∧ token.span.stop ≤ bound ∧ Settled source token.span.start earlier := by
  have htoken := h.1 token (List.mem_append_right _ List.mem_cons_self)
  have hpairwise := List.pairwise_cons.mp (List.pairwise_append.mp h.2).2.1
  refine ⟨htoken.1, htoken.2, fun other hother => ?_, hpairwise.2⟩
  have hother' : other ∈ newer ++ token :: earlier :=
    List.mem_append_right _ (List.mem_cons_of_mem _ hother)
  exact ⟨(h.1 other hother').1, hpairwise.1 other hother⟩

/-- The tokens behind the line on which a string is closed behind a parenthesis. -/
theorem Pending.belowString {closing : Token} {after : List Token} {length : Nat}
    (h : Pending source bound (closing :: after))
    (hlength : Token.closingQuote (Source.dropBytes closing.span.stop source) = some length) :
    Pending source
      (lineEnd source (closing.span.stop +
        byteLength ((Source.dropBytes closing.span.stop source).take length)) + 1)
      (after.dropWhile (·.span.line == closing.span.line)) := by
  have hdrop := (List.take_append_drop length (Source.dropBytes closing.span.stop source)).symm
  have hfollows : ∀ token ∈ after, Follows source closing token := (List.pairwise_cons.mp h.2).1
  exact h.tail.dropLine hfollows rfl (h.cut.stop.add hdrop) fun b hb =>
    hb.add h.cut.stop hdrop (Token.unbroken_closingQuote hlength)

/-- The draft in which a string from an open quote to behind the section takes the place of all the
items from the quote on. -/
theorem Draft.Sound.joinedString {draft joined : Draft} {opening : Token} {rest : List Token}
    {parts : SectionTokens} {line stop : Nat} {quote item : Item} {earlier : List Item}
    {p : Token → Bool} (h : draft.Sound source bound)
    (hpending : Pending source bound (opening :: rest))
    (hparts : sectionTokens? opening rest = some parts)
    (hquote : openQuote? line draft.items = some (quote, earlier))
    (hstop : IsBoundary source stop) (hle : parts.closing.span.stop ≤ stop)
    (hitems : joined.items = item :: earlier)
    (hspan : item.token.span = quote.token.span.to stop)
    (htext : item.token.text = String.ofList (Source.slice source quote.token.span.start stop))
    (hcomments : joined.comments = (parts.inner.filter p).reverse ++ draft.comments) :
    joined.Sound source stop := by
  obtain ⟨hinner, hinner', hclosing⟩ := hpending.sectionTokens hparts
  obtain ⟨newer, hnewer⟩ := openQuote?_eq_some hquote
  have hsettled := h.items
  rw [hnewer, List.map_append, List.map_cons] at hsettled
  obtain ⟨hcut, hbound, hearlier⟩ := hsettled.before
  have hlt := hcut.lt
  have hlt' := hclosing.cut.lt
  have hle' := hclosing.le
  constructor
  · have hcut' : Cut source item.token := by
      constructor <;> rw [hspan] <;> simp only [Span.to_start, Span.to_stop]
      · exact hcut.start
      · exact hstop
      · omega
      · exact htext
    have hcons := hearlier.cons hcut' (by simp [hspan])
    rwa [hspan, Span.to_stop, ← List.map_cons, ← hitems] at hcons
  · rw [hcomments]
    refine h.comments.append (hinner.sublist List.filter_sublist) (by omega) fun token htoken => ?_
    have := hinner' token (List.mem_filter.mp htoken).1
    omega

theorem Draft.Sound.continuedString? {draft : Draft} {options : Section.Options} {opening : Token}
    {rest : List Token} {parts : SectionTokens} {result : Draft × List Token}
    (h : draft.Sound source bound) (hpending : Pending source bound (opening :: rest))
    (hparts : sectionTokens? opening rest = some parts)
    (hresult : draft.continuedString? source options opening parts = some result) :
    ∃ bound', result.1.Sound source bound' ∧ Pending source bound' result.2 := by
  simp only [Draft.continuedString?, Option.bind_eq_bind, Option.bind_eq_some_iff, Option.pure_def,
    Option.some.injEq] at hresult
  obtain ⟨last, -, ⟨quote, earlier⟩, hquote, length, hlength, rfl⟩ := hresult
  obtain ⟨-, -, hclosing⟩ := hpending.sectionTokens hparts
  -- the string ends on the line of the closing parenthesis
  have hdrop := (List.take_append_drop length
    (Source.dropBytes parts.closing.span.stop source)).symm
  have hboundary := hclosing.cut.stop.add hdrop
  refine ⟨_, Draft.Sound.foldl_tokenizeLine ?_ hboundary _ _ _ _,
    (hclosing.belowString hlength).mono (Nat.le_succ _)⟩
  exact h.joinedString hpending hparts hquote hboundary (Nat.le_add_right _ _) rfl rfl rfl rfl

/-- What a section can do. -/
theorem Draft.continuation?_cases {draft : Draft} {opening : Token} {rest : List Token}
    {result : Draft × List Token} (h : draft.continuation? source opening rest = some result) :
    ∃ parts options, sectionTokens? opening rest = some parts ∧
      (draft.continuedString? source options opening parts = some result ∨
        draft.joinedLines options opening parts = result) := by
  simp only [Draft.continuation?, Option.bind_eq_bind, Option.bind_eq_some_iff, Option.pure_def,
    Option.some.injEq] at h
  obtain ⟨parts, hparts, rfl⟩ := h
  refine ⟨parts, .ofText (optionsText source opening parts.header), hparts, ?_⟩
  cases draft.continuedString? source (.ofText (optionsText source opening parts.header)) opening
      parts with
  | none => exact .inr rfl
  | some result => exact .inl rfl

theorem Draft.Sound.continuation? {draft : Draft} {opening : Token} {rest : List Token}
    {result : Draft × List Token} (h : draft.Sound source bound)
    (hpending : Pending source bound (opening :: rest))
    (hresult : draft.continuation? source opening rest = some result) :
    ∃ bound', result.1.Sound source bound' ∧ Pending source bound' result.2 := by
  obtain ⟨parts, options, hparts, hstring | rfl⟩ := Draft.continuation?_cases hresult
  · exact h.continuedString? hpending hparts hstring
  · exact h.joinedLines hpending hparts

theorem Draft.continuation?_sublist {draft : Draft} {opening : Token} {rest : List Token}
    {result : Draft × List Token} (h : draft.continuation? source opening rest = some result) :
    result.2.Sublist rest := by
  obtain ⟨parts, options, hparts, hresult⟩ := Draft.continuation?_cases h
  have hafter : parts.after.Sublist rest := by
    rw [sectionTokens?_eq_some hparts, ← List.append_assoc]
    exact (List.sublist_cons_self _ _).trans (List.sublist_append_right _ _)
  rcases hresult with hstring | rfl
  · simp only [Draft.continuedString?, Option.bind_eq_bind, Option.bind_eq_some_iff,
      Option.pure_def, Option.some.injEq] at hstring
    obtain ⟨last, -, ⟨quote, earlier⟩, -, length, -, rfl⟩ := hstring
    exact (List.dropWhile_sublist _).trans hafter
  · exact hafter

/-! ## The whole pass -/

/-- One step of the pass: the draft after the next token, and the tokens that are then left. -/
def Draft.next (source : Source) (draft : Draft) (token : Token) (rest : List Token) :
    Draft × List Token :=
  if token.opensLine && opensBlockComment token rest then
    draft.blockComment source token rest
  else if token.kind = .comment then
    (draft.comment token, rest)
  else if token.opensLine && token.text == "(" then
    (draft.continuation? source token rest).getD (draft.emit none token, rest)
  else
    (draft.emit none token, rest)

section Steps

variable (source) (draft : Draft) (token) (rest : List Token)

theorem Draft.read_cons :
    draft.read source (token :: rest) =
      (draft.next source token rest).1.read source (draft.next source token rest).2 := by
  rw [Draft.read, Draft.next]
  split
  · rfl
  split
  · rfl
  split
  · split
    · next hsection => simp [hsection]
    · next hsection => simp [hsection]
  · rfl

/-- What a step can do. -/
theorem Draft.next_cases :
    (opensBlockComment token rest = true ∧
        draft.next source token rest = draft.blockComment source token rest) ∨
      draft.next source token rest = (draft.comment token, rest) ∨
      draft.continuation? source token rest = some (draft.next source token rest) ∨
      draft.next source token rest = (draft.emit none token, rest) := by
  unfold Draft.next
  split
  · next hopens => exact .inl ⟨(Bool.and_eq_true_iff.mp hopens).2, rfl⟩
  split
  · exact .inr (.inl rfl)
  split
  · cases draft.continuation? source token rest with
    | none => exact .inr (.inr (.inr rfl))
    | some result => exact .inr (.inr (.inl rfl))
  · exact .inr (.inr (.inr rfl))

/-- A step only takes tokens away. -/
theorem Draft.next_sublist : (draft.next source token rest).2.Sublist rest := by
  rcases draft.next_cases source token rest with ⟨-, hnext⟩ | hnext | hnext | hnext
  · rw [hnext]
    exact draft.blockComment_sublist source token rest
  · simp only [hnext]
    exact List.Sublist.refl rest
  · exact Draft.continuation?_sublist hnext
  · simp only [hnext]
    exact List.Sublist.refl rest

end Steps

/-- Induction along the pass. -/
theorem Draft.read_induction (source : Source) {motive : Draft → List Token → Prop}
    (done : ∀ draft, motive draft [])
    (step : ∀ draft token rest,
      motive (draft.next source token rest).1 (draft.next source token rest).2 →
        motive draft (token :: rest)) (draft : Draft) : ∀ tokens, motive draft tokens
  | [] => done draft
  | token :: rest => step draft token rest (read_induction source done step _ _)
termination_by tokens => tokens.length
decreasing_by exact Nat.lt_succ_of_le (draft.next_sublist source token rest).length_le

/-- What each step keeps, the pass keeps. -/
theorem Draft.read_invariant {motive : Draft → List Token → Prop}
    (step : ∀ draft token rest, motive draft (token :: rest) →
      motive (draft.next source token rest).1 (draft.next source token rest).2)
    {draft : Draft} (h : motive draft tokens) : motive (draft.read source tokens) [] := by
  induction draft, tokens using Draft.read_induction source with
  | done draft => rwa [Draft.read]
  | step draft token rest ih =>
    rw [Draft.read_cons]
    exact ih (step draft token rest h)

theorem Draft.Sound.next {draft : Draft} {rest : List Token} (h : draft.Sound source bound)
    (hpending : Pending source bound (token :: rest)) :
    ∃ bound', (draft.next source token rest).1.Sound source bound' ∧
      Pending source bound' (draft.next source token rest).2 := by
  rcases draft.next_cases source token rest with ⟨hopens, hnext⟩ | hnext | hnext | hnext
  · rw [hnext]
    exact h.blockComment hpending hopens
  · rw [hnext]
    exact ⟨_, h.comment hpending.cut hpending.le, hpending.tail⟩
  · exact h.continuation? hpending hnext
  · rw [hnext]
    exact ⟨_, h.emit hpending.cut hpending.le none, hpending.tail⟩

theorem Draft.Sound.read {draft : Draft} (h : draft.Sound source bound)
    (hpending : Pending source bound tokens) :
    ∃ bound', (draft.read source tokens).Sound source bound' := by
  obtain ⟨bound', hsound, -⟩ := Draft.read_invariant
    (motive := fun draft tokens => ∃ bound, draft.Sound source bound ∧ Pending source bound tokens)
    (fun draft token rest ⟨bound, hsound, hpending⟩ => hsound.next hpending) ⟨bound, h, hpending⟩
  exact ⟨bound', hsound⟩

theorem pending_tokenize (source : Source) : Pending source 0 (Token.tokenize source) := by
  obtain ⟨htokens, hpairwise⟩ := Token.tokenize_ordered source
  exact ⟨fun token htoken => ⟨htokens token htoken, Nat.zero_le _⟩, hpairwise⟩

theorem sound_empty (source : Source) : Draft.Sound {} source 0 :=
  ⟨settled_nil, settled_nil⟩

/-- The tokens of the stream, and its comments, are pieces of the source, one behind the other. -/
theorem ofSource_sound (source : Source) :
    ∃ bound, (Draft.read source {} (Token.tokenize source)).Sound source bound :=
  (sound_empty source).read (pending_tokenize source)

theorem token?_ofSource (source : Source) (p : Nat) :
    (ofSource source).token? p =
      ((Draft.read source {} (Token.tokenize source)).items.map (·.token)).reverse[p]? := by
  simp [token?, ofSource, Draft.toStream, ← List.map_reverse]

/-- A token of the stream is a piece of the source. -/
theorem ofSource_cut {p : Nat} (h : (ofSource source).token? p = some token) :
    Cut source token := by
  obtain ⟨bound, hsound⟩ := ofSource_sound source
  rw [token?_ofSource] at h
  exact (hsound.items.1 token (List.mem_reverse.mp (List.mem_of_getElem? h))).1

/-- A token of the stream ends before the later ones start. -/
theorem ofSource_ordered {p q : Nat} {next : Token} (h : (ofSource source).token? p = some token)
    (hnext : (ofSource source).token? q = some next) (hlt : p < q) :
    token.span.stop ≤ next.span.start := by
  obtain ⟨bound, hsound⟩ := ofSource_sound source
  rw [token?_ofSource] at h hnext
  obtain ⟨hp, rfl⟩ := List.getElem?_eq_some_iff.mp h
  obtain ⟨hq, rfl⟩ := List.getElem?_eq_some_iff.mp hnext
  exact List.pairwise_iff_getElem.mp (List.pairwise_reverse.mpr hsound.items.2) p q hp hq hlt

/-- Two positions with the same end before them are the same. -/
theorem eq_of_endBefore_eq {p q : Nat} (hp : 0 < p)
    (hps : p ≤ (ofSource source).size) (hq : 0 < q)
    (hqs : q ≤ (ofSource source).size)
    (h : (ofSource source).endBefore p = (ofSource source).endBefore q) : p = q := by
  obtain ⟨p, rfl⟩ := Nat.exists_eq_add_one_of_ne_zero (Nat.pos_iff_ne_zero.mp hp)
  obtain ⟨q, rfl⟩ := Nat.exists_eq_add_one_of_ne_zero (Nat.pos_iff_ne_zero.mp hq)
  obtain ⟨token, htoken⟩ := exists_token_of_lt hps
  obtain ⟨other, hother⟩ := exists_token_of_lt hqs
  rw [endBefore_succ htoken, endBefore_succ hother] at h
  have hlt := (ofSource_cut htoken).lt
  have hlt' := (ofSource_cut hother).lt
  rcases Nat.lt_trichotomy p q with hpq | rfl | hpq
  · have := ofSource_ordered htoken hother hpq
    omega
  · rfl
  · have := ofSource_ordered hother htoken hpq
    omega

end HotkeyScript.Stream
