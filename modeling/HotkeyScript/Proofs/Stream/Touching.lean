import Mathlib.Data.List.Chain
import HotkeyScript.Proofs.Stream.Fits
import HotkeyScript.Proofs.Stream.Positions

/-!
# Tokens that touch

A logical line starts at a token with nothing before it on its physical line. A token that touches
the one before it in the stream is never such a token: the two stand on one physical line, also
where the first of them is a string that a section carries on, or where the line was read anew.

## Main definitions

* `Stream.Draft.Linked` — no item of a draft that touches the one before it starts a line, and none
  of the tokens to come will.
-/

namespace HotkeyScript.Stream

open Source (IsBoundary lineEnd)
open Token (Cut Follows)

variable {source : Source} {bound : Nat} {draft : Draft} {token : Token}
  {tokens rest : List Token}

/-- Tokens of the lexer that touch are on the same line. -/
theorem line_eq_of_follows {next : Token} (h : Follows source token next)
    (htouches : token.span.stop = next.span.start) : next.span.line = token.span.line := by
  by_contra hne
  obtain ⟨before, _, _, _, _, hle, hlt⟩ := h.2 hne
  omega

/-- An item that touches the one before it starts no line. A token to come that touches the latest
item is on the line where the draft ends. -/
structure Draft.Linked (draft : Draft) (tokens : List Token) : Prop where
  items : draft.items.IsChain fun item earlier =>
    earlier.token.span.stop = item.token.span.start → item.startsLine = false
  coming : ∀ item, draft.items.head? = some item → ∀ token ∈ tokens,
    item.token.span.stop = token.span.start → draft.lastLine = some token.span.line

namespace Draft.Linked

theorem sublist {tokens' : List Token} (h : draft.Linked tokens) (hsub : tokens'.Sublist tokens) :
    draft.Linked tokens' :=
  ⟨h.items, fun item hitem token htoken => h.coming item hitem token (hsub.subset htoken)⟩

/-- Nothing is asked of tokens that keep a distance from the items. -/
theorem of_lt (h : draft.Linked []) (hitems : Settled source bound (draft.items.map (·.token)))
    (htokens : ∀ token ∈ tokens, bound < token.span.start) : draft.Linked tokens := by
  refine ⟨h.items, fun item hitem token htoken htouches => ?_⟩
  have hstop := (hitems.1 item.token (List.mem_map_of_mem (List.mem_of_mem_head? hitem))).2
  have hstart := htokens token htoken
  omega

theorem emit (h : draft.Linked (token :: rest)) (hrest : ∀ next ∈ rest, Follows source token next)
    (inSection : Option Nat) : (draft.emit inSection token).Linked rest := by
  constructor
  · refine List.isChain_cons.mpr ⟨fun earlier hearlier htouches => ?_, h.items⟩
    have hline := h.coming earlier hearlier token List.mem_cons_self htouches
    simp [hline]
  · rintro item ⟨⟩ next hnext htouches
    exact congrArg some (line_eq_of_follows (hrest next hnext) htouches).symm

theorem comment (h : draft.Linked (token :: rest)) : (draft.comment token).Linked rest :=
  ⟨h.items, fun item hitem next hnext => h.coming item hitem next (List.mem_cons_of_mem _ hnext)⟩

theorem foldl_sort (h : draft.Linked tokens) (htokens : tokens.Pairwise (Follows source))
    (apart : Bool) (inSection : Option Nat) :
    (tokens.foldl (Draft.sort apart inSection) draft).Linked [] := by
  induction tokens generalizing draft with
  | nil => exact h
  | cons token tokens ih =>
    obtain ⟨htoken, htokens⟩ := List.pairwise_cons.mp htokens
    refine ih ?_ htokens
    unfold Draft.sort
    split
    · exact h.comment
    · exact h.emit htoken inSection

/-- A line is read anew, and the tokens that are left are below it. -/
theorem foldl_tokenizeLine {offset line column : Nat} (hsound : draft.Sound source offset)
    (hoffset : IsBoundary source offset)
    (h : draft.Linked (Token.tokenizeLine source offset line column))
    (hbelow : ∀ token ∈ tokens, lineEnd source offset < token.span.start) (apart : Bool)
    (inSection : Option Nat) :
    ((Token.tokenizeLine source offset line column).foldl (Draft.sort apart inSection)
      draft).Linked tokens :=
  (h.foldl_sort (Token.tokenizeLine_ordered hoffset line column).2 apart inSection).of_lt
    (hsound.foldl_tokenizeLine hoffset line column apart inSection).items hbelow

theorem blockComment {slash : Token} (h : draft.Linked (slash :: rest))
    (hsound : draft.Sound source bound) (hpending : Pending source bound (slash :: rest))
    (hopens : opensBlockComment slash rest = true) :
    (draft.blockComment source slash rest).1.Linked (draft.blockComment source slash rest).2 := by
  obtain ⟨hboundary, hlt, -⟩ := slice_commentEnd hpending hopens
  have hstart := hpending.cut.lt
  have hle := hpending.le
  have hcut : Cut source
      { kind := .comment
        text := String.ofList (Source.slice source slash.span.start
          (commentEnd source slash.span.start))
        span := slash.span.to (commentEnd source slash.span.start)
        opensLine := true } :=
    ⟨hpending.cut.start, hboundary, Nat.lt_trans hstart hlt, rfl⟩
  have hcomment := hsound.comment hcut hle
  simp only [Draft.blockComment]
  split
  · next hlast =>
    have hbelow := hpending.belowComment hopens rfl hlast
    refine foldl_tokenizeLine hcomment hboundary ?_ (fun token htoken => (hbelow.1 token htoken).2)
      false none
    -- the comment stands between the items and the rest of its line
    refine of_lt ⟨h.items, fun _ _ => List.forall_mem_nil _⟩ hsound.items fun token htoken => ?_
    have hoffset := ((Token.tokenizeLine_ordered hboundary _ _).1 token htoken).2.1
    omega
  · have hafter := h.sublist ((List.dropWhile_sublist
      (·.span.start < commentEnd source slash.span.start)).cons slash)
    exact ⟨hafter.items, hafter.coming⟩

variable {options : Section.Options} {opening : Token} {parts : SectionTokens}
  {result : Draft × List Token}

theorem joinedLines (h : draft.Linked (opening :: rest)) (hsound : draft.Sound source bound)
    (hpending : Pending source bound (opening :: rest))
    (hparts : sectionTokens? opening rest = some parts) :
    (draft.joinedLines options opening parts).1.Linked
      (draft.joinedLines options opening parts).2 := by
  obtain ⟨hinner, hstop, hclosing⟩ := hpending.sectionTokens hparts
  have hlt := hclosing.cut.lt
  have hrest : parts.inner.Sublist (opening :: rest) := by
    rw [sectionTokens?_eq_some hparts]
    exact ((List.sublist_append_left _ _).trans (List.sublist_append_right _ _)).cons _
  have hentered : Draft.Linked
      { draft with
        sections := { options, opening, closing := parts.closing } :: draft.sections }
      parts.inner :=
    ⟨h.items, (h.sublist hrest).coming⟩
  have hread := hentered.foldl_sort hinner.2 options.comments (some draft.sections.length)
  have hentered' : Draft.Sound
      { draft with
        sections := { options, opening, closing := parts.closing } :: draft.sections }
      source bound :=
    ⟨hsound.items, hsound.comments⟩
  have hread' := hentered'.foldl_sort hinner hclosing.le hstop options.comments
    (some draft.sections.length)
  refine of_lt ⟨hread.items, fun _ _ => List.forall_mem_nil _⟩ hread'.items fun token htoken => ?_
  exact Nat.lt_of_lt_of_le hlt (hclosing.tail.1 token htoken).2

theorem continuedString? (h : draft.Linked (opening :: rest)) (hsound : draft.Sound source bound)
    (hpending : Pending source bound (opening :: rest))
    (hparts : sectionTokens? opening rest = some parts)
    (hresult : draft.continuedString? source options opening parts = some result) :
    result.1.Linked result.2 := by
  simp only [Draft.continuedString?, Option.bind_eq_bind, Option.bind_eq_some_iff, Option.pure_def,
    Option.some.injEq] at hresult
  obtain ⟨last, -, ⟨quote, earlier⟩, hquote, length, hlength, rfl⟩ := hresult
  obtain ⟨hinner, hstop, hclosing⟩ := hpending.sectionTokens hparts
  obtain ⟨newer, hitems⟩ := openQuote?_eq_some hquote
  have hbelow := hclosing.belowString hlength
  have hdrop := (List.take_append_drop length
    (Source.dropBytes parts.closing.span.stop source)).symm
  refine foldl_tokenizeLine ?_ (hclosing.cut.stop.add hdrop) ⟨?_, ?_⟩
    (fun token htoken => (hbelow.1 token htoken).2) true none
  · exact hsound.joinedString hpending hparts hquote (hclosing.cut.stop.add hdrop)
      (Nat.le_add_right _ _) rfl rfl rfl rfl
  · -- the string takes the place of its quote
    have hchain := h.items
    rw [hitems] at hchain
    obtain ⟨hhead, htail⟩ := List.isChain_cons.mp hchain.right_of_append
    exact List.isChain_cons.mpr ⟨hhead, htail⟩
  · intro item hitem token htoken htouches
    exact congrArg some (Token.line_of_mem_scan htoken).symm

theorem continuation? (h : draft.Linked (opening :: rest)) (hsound : draft.Sound source bound)
    (hpending : Pending source bound (opening :: rest))
    (hresult : draft.continuation? source opening rest = some result) :
    result.1.Linked result.2 := by
  obtain ⟨parts, options, hparts, hstring | rfl⟩ := Draft.continuation?_cases hresult
  · exact h.continuedString? hsound hpending hparts hstring
  · exact h.joinedLines hsound hpending hparts

theorem next (h : draft.Linked (token :: rest)) (hsound : draft.Sound source bound)
    (hpending : Pending source bound (token :: rest)) :
    (draft.next source token rest).1.Linked (draft.next source token rest).2 := by
  rcases draft.next_cases source token rest with ⟨hopens, hnext⟩ | hnext | hnext | hnext
  · rw [hnext]
    exact h.blockComment hsound hpending hopens
  · rw [hnext]
    exact h.comment
  · exact h.continuation? hsound hpending hnext
  · rw [hnext]
    exact h.emit (List.pairwise_cons.mp hpending.2).1 none

end Draft.Linked

theorem ofSource_linked (source : Source) :
    (Draft.read source {} (Token.tokenize source)).Linked [] := by
  have hempty : Draft.Linked {} (Token.tokenize source) := ⟨.nil, by rintro item ⟨⟩⟩
  refine (Draft.read_invariant (motive := fun draft tokens => draft.Linked tokens ∧
    ∃ bound, draft.Sound source bound ∧ Pending source bound tokens) ?_
    ⟨hempty, 0, sound_empty source, pending_tokenize source⟩).1
  rintro draft token rest ⟨h, bound, hsound, hpending⟩
  exact ⟨h.next hsound hpending, hsound.next hpending⟩

/-- A token that touches the one before it carries on its line. -/
theorem continues_of_touchesPrevious {p : Nat}
    (h : (ofSource source).touchesPrevious p = true) : (ofSource source).continues p = true := by
  refine continues_of_not_startsLine ?_
  have hchain : (Draft.read source {} (Token.tokenize source)).items.reverse.IsChain
      fun earlier item =>
        earlier.token.span.stop = item.token.span.start → item.startsLine = false :=
    List.isChain_reverse.mpr (ofSource_linked source).items
  cases p with
  | zero => cases h
  | succ p =>
    simp only [touchesPrevious, previous?_succ, token?, ofSource, Draft.toStream,
      List.getElem?_toArray] at h
    simp only [startsLine, ofSource, Draft.toStream, List.getElem?_toArray]
    rw [List.isChain_iff_getElem] at hchain
    cases hp : (Draft.read source {} (Token.tokenize source)).items.reverse[p + 1]? with
    | none => simp [hp] at h
    | some item =>
      obtain ⟨hlt, hitem⟩ := List.getElem?_eq_some_iff.mp hp
      have hlink := hchain p hlt
      have hprevious := List.getElem?_eq_getElem (Nat.lt_of_succ_lt hlt)
      simp only [hp, hprevious, Option.map_some, Token.touches, beq_iff_eq] at h
      rw [hitem] at hlink
      simpa using hlink h

end HotkeyScript.Stream
