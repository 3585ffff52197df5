import HotkeyScript.Proofs.Stream.Above
import HotkeyScript.Proofs.Token.Kind

/-!
# Kinds and lines of the stream

The tokens of the stream keep what the lexer gives them: their kinds fit their texts, and they lie
on lines of the source. A string that a section carries on starts with its quote, so it is taken for
no operator either, and it ends with the quote that closes it.

## Main definitions

* `Stream.Draft.Fits` — the tokens of a draft have fitting kinds and lines.
-/

namespace HotkeyScript.Stream

open Source (IsBoundary byteLength)
open Text (lineBreaks)
open Token (Cut)

variable {source : Source} {bound : Nat} {draft : Draft} {token : Token} {tokens rest : List Token}

/-- The kind of the token fits its text, and it lies on a line of the source. -/
structure Placed (source : Source) (token : Token) : Prop where
  kinded : token.WellKinded
  line : token.span.line ≤ lineBreaks source

theorem placed_tokenize (source : Source) :
    ∀ token ∈ Token.tokenize source, Placed source token := by
  intro token htoken
  exact ⟨Token.scan_wellKinded _ _ _ token htoken, Token.line_le_of_mem_tokenize htoken⟩

theorem placed_tokenizeLine {line : Nat} (hline : line ≤ lineBreaks source) (offset column : Nat) :
    ∀ token ∈ Token.tokenizeLine source offset line column, Placed source token := by
  intro token htoken
  refine ⟨Token.scan_wellKinded _ _ _ token htoken, ?_⟩
  rwa [Token.line_of_mem_scan htoken]

/-- The tokens of the draft have fitting kinds and lie on lines of the source, and its sections are
closed by tokens of the source. -/
structure Draft.Fits (draft : Draft) (source : Source) : Prop where
  items : ∀ item ∈ draft.items, Placed source item.token
  closing : ∀ around ∈ draft.sections, Cut source around.closing
  lastLine : draft.EndsBefore (lineBreaks source + 1)

namespace Draft.Fits

theorem comment (h : draft.Fits source) (token : Token) : (draft.comment token).Fits source :=
  ⟨h.items, h.closing, h.lastLine⟩

theorem emit (h : draft.Fits source) (htoken : Placed source token) (inSection : Option Nat) :
    (draft.emit inSection token).Fits source := by
  refine ⟨List.forall_mem_cons.mpr ⟨htoken, h.items⟩, h.closing, ?_⟩
  rintro line ⟨⟩
  exact Nat.lt_succ_of_le htoken.line

theorem foldl_sort (h : draft.Fits source) (htokens : ∀ token ∈ tokens, Placed source token)
    (apart : Bool) (inSection : Option Nat) :
    (tokens.foldl (Draft.sort apart inSection) draft).Fits source := by
  induction tokens generalizing draft with
  | nil => exact h
  | cons token tokens ih =>
    obtain ⟨htoken, htokens⟩ := List.forall_mem_cons.mp htokens
    refine ih ?_ htokens
    unfold Draft.sort
    split
    · exact h.comment token
    · exact h.emit htoken inSection

theorem blockComment {slash : Token} (h : draft.Fits source)
    (htokens : ∀ token ∈ slash :: rest, Placed source token) :
    (draft.blockComment source slash rest).1.Fits source := by
  simp only [Draft.blockComment]
  split
  · refine foldl_sort (h.comment _) (placed_tokenizeLine (htokens _ ?_).line _ _) false none
    exact List.cons_subset_cons slash (List.takeWhile_sublist _).subset List.getLastD_mem_cons
  · exact h.comment _

end Draft.Fits

theorem isOpenQuote_of_openQuote? {line : Nat} {items earlier : List Item} {quote : Item}
    (h : openQuote? line items = some (quote, earlier)) : isOpenQuote quote.token = true := by
  fun_induction openQuote? line items with
  | case1 => cases h
  | case2 item items hline => cases h
  | case3 item items hline found hfound ih =>
    cases h
    exact ih hfound
  | case4 item items hline hnone hquote ih =>
    cases h
    exact hquote
  | case5 item items hline hnone hquote ih => cases h

/-- The text from an open quote to the quote that closes its string behind an offset starts and ends
with a quote. -/
theorem exists_slice_of_isOpenQuote (hcut : Cut source token) (hquote : isOpenQuote token = true)
    {offset length : Nat} (hoffset : IsBoundary source offset) (hle : token.span.stop ≤ offset)
    (hlength : Token.closingQuote (Source.dropBytes offset source) = some length) :
    ∃ inside, Source.slice source token.span.start
      (offset + byteLength ((Source.dropBytes offset source).take length)) =
        '"' :: (inside ++ ['"']) := by
  simp only [isOpenQuote, Bool.and_eq_true, beq_iff_eq] at hquote
  obtain ⟨tail, htail⟩ := Token.take_closingQuote hlength
  have hstop := hoffset.add (List.take_append_drop length (Source.dropBytes offset source)).symm
  have hstart : Source.slice source token.span.start token.span.stop = ['"'] := by
    have htext := hcut.text
    rw [hquote.2] at htext
    exact String.ofList_injective htext.symm
  have hend := Source.slice_take source offset length
  have hlt := hcut.lt
  rw [← Source.slice_append_slice hcut.start hoffset hstop (by omega) (Nat.le_add_right _ _),
    ← Source.slice_append_slice hcut.start hcut.stop hoffset (by omega) hle, hstart, hend, htail]
  exact ⟨Source.slice source token.span.stop offset ++ tail, by simp⟩

namespace Draft.Fits

variable {options : Section.Options} {opening : Token} {parts : SectionTokens}
  {result : Draft × List Token}

theorem joinedLines (h : draft.Fits source) (hclosing : Cut source parts.closing)
    (hline : Placed source parts.closing) (hinner : ∀ token ∈ parts.inner, Placed source token) :
    (draft.joinedLines options opening parts).1.Fits source := by
  have hentered : Draft.Fits
      { draft with
        sections := { options, opening, closing := parts.closing } :: draft.sections } source :=
    ⟨h.items, List.forall_mem_cons.mpr ⟨hclosing, h.closing⟩, h.lastLine⟩
  have hread := hentered.foldl_sort hinner options.comments (some draft.sections.length)
  refine ⟨hread.items, hread.closing, ?_⟩
  rintro line ⟨⟩
  exact Nat.lt_succ_of_le hline.line

theorem continuedString? (h : draft.Fits source) (hsound : draft.Sound source bound)
    (hle : bound ≤ parts.closing.span.start) (hclosing : Cut source parts.closing)
    (hline : Placed source parts.closing)
    (hresult : draft.continuedString? source options opening parts = some result) :
    result.1.Fits source := by
  simp only [Draft.continuedString?, Option.bind_eq_bind, Option.bind_eq_some_iff, Option.pure_def,
    Option.some.injEq] at hresult
  obtain ⟨last, -, ⟨quote, earlier⟩, hquote, length, hlength, rfl⟩ := hresult
  obtain ⟨newer, hitems⟩ := openQuote?_eq_some hquote
  have hmem : quote ∈ draft.items := by simp [hitems]
  obtain ⟨hcut, hbound⟩ := hsound.items.1 quote.token (List.mem_map_of_mem hmem)
  have hlt := hclosing.lt
  obtain ⟨inside, htext⟩ := exists_slice_of_isOpenQuote hcut (isOpenQuote_of_openQuote? hquote)
    hclosing.stop (by omega) hlength
  refine foldl_sort ⟨?_, ?_, ?_⟩ (placed_tokenizeLine hline.line _ _) true none
  · refine List.forall_mem_cons.mpr ⟨⟨⟨fun hoperator => ?_, fun hword => ?_, fun _ => ?_⟩, ?_⟩, ?_⟩
    · rw [htext] at hoperator
      exact absurd hoperator (Token.not_isOperator_cons (.inr (.inr rfl)))
    · cases hword
    · exact ⟨inside, by rw [htext, String.toList_ofList]⟩
    · exact (h.items quote hmem).line
    · intro item hitem
      exact h.items item (by simp [hitems, show item ∈ earlier from hitem])
  · intro around haround
    rcases List.mem_cons.mp haround with rfl | haround
    · exact hclosing
    · exact h.closing around haround
  · rintro line ⟨⟩
    exact Nat.lt_succ_of_le hline.line

theorem continuation? (h : draft.Fits source) (hsound : draft.Sound source bound)
    (hpending : Pending source bound (opening :: rest))
    (htokens : ∀ token ∈ opening :: rest, Placed source token)
    (hresult : draft.continuation? source opening rest = some result) :
    result.1.Fits source := by
  obtain ⟨parts, options, hparts, hresult⟩ := Draft.continuation?_cases hresult
  obtain ⟨-, -, hclosing⟩ := hpending.sectionTokens hparts
  have hrest := sectionTokens?_eq_some hparts
  have hline : Placed source parts.closing :=
    htokens _ (List.mem_cons_of_mem _ (by simp [hrest]))
  rcases hresult with hstring | rfl
  · exact h.continuedString? hsound hclosing.le hclosing.cut hline hstring
  · exact h.joinedLines hclosing.cut hline fun token htoken =>
      htokens token (List.mem_cons_of_mem _ (by simp [hrest, htoken]))

theorem next (h : draft.Fits source) (hsound : draft.Sound source bound)
    (hpending : Pending source bound (token :: rest))
    (htokens : ∀ other ∈ token :: rest, Placed source other) :
    (draft.next source token rest).1.Fits source := by
  rcases draft.next_cases source token rest with ⟨-, hnext⟩ | hnext | hnext | hnext
  · rw [hnext]
    exact h.blockComment htokens
  · rw [hnext]
    exact h.comment token
  · exact h.continuation? hsound hpending htokens hnext
  · rw [hnext]
    exact h.emit (htokens token List.mem_cons_self) none

end Draft.Fits

theorem ofSource_fits (source : Source) :
    (Draft.read source {} (Token.tokenize source)).Fits source := by
  have hempty : Draft.Fits {} source :=
    ⟨List.forall_mem_nil _, List.forall_mem_nil _, fun line hline => by cases hline⟩
  refine (Draft.read_invariant (motive := fun draft tokens => draft.Fits source ∧
    (∀ token ∈ tokens, Placed source token) ∧
    ∃ bound, draft.Sound source bound ∧ Pending source bound tokens) ?_
    ⟨hempty, placed_tokenize source, 0, sound_empty source, pending_tokenize source⟩).1
  rintro draft token rest ⟨h, htokens, bound, hsound, hpending⟩
  refine ⟨h.next hsound hpending htokens, fun other hother => ?_, hsound.next hpending⟩
  exact htokens other
    (List.mem_cons_of_mem _ ((draft.next_sublist source token rest).subset hother))

theorem ofSource_placed {p : Nat} (h : (ofSource source).token? p = some token) :
    Placed source token := by
  rw [token?_ofSource] at h
  obtain ⟨item, hitem, rfl⟩ := List.mem_map.mp (List.mem_reverse.mp (List.mem_of_getElem? h))
  exact (ofSource_fits source).items item hitem

/-- A section of the stream is closed by a piece of the source. -/
theorem ofSource_closing {p : Nat} {around : Section}
    (h : (ofSource source).section? p = some around) : Cut source around.closing := by
  obtain ⟨item, -, hsection⟩ := Option.bind_eq_some_iff.mp h
  obtain ⟨j, -, hsection⟩ := Option.bind_eq_some_iff.mp hsection
  have hmem : around ∈ (ofSource source).sections := Array.mem_of_getElem? hsection
  exact (ofSource_fits source).closing around (by simpa [ofSource, Draft.toStream] using hmem)

end HotkeyScript.Stream
