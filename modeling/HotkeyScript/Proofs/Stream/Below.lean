import HotkeyScript.Proofs.Stream.Order
import HotkeyScript.Proofs.Token.Append

/-!
# Lines below a source

The pass over the tokens of a source looks ahead: to the end of a block comment, to the parenthesis
that closes a section, and to the quote behind it. If no block comment is left open, and no section
is closed there, the lines below the source are out of its reach, so it reads the tokens of the
source as if nothing followed.

## Main definitions

* `Stream.Below` — tokens on the lines below a source.
* `Stream.opensSection` — a token that may open a section.
* `Stream.Ended` — a comment that is not left open.
-/

namespace HotkeyScript.Stream

open Source (IsBoundary BreakBetween byteLength lineEnd)
open Text (lineBreaks)
open Token (Cut Follows)

variable {a b : Source} {bound : Nat} {draft : Draft} {token opening slash : Token}
  {rest later tokens : List Token} {parts : SectionTokens}

/-- The tokens stand on the lines below the source. -/
structure Below (a : Source) (later : List Token) : Prop where
  start : ∀ token ∈ later, byteLength a < token.span.start
  line : ∀ token ∈ later, lineBreaks a < token.span.line

/-- The token may open a section: a parenthesis at the start of a line. -/
def opensSection (token : Token) : Bool :=
  token.opensLine && token.text == "("

/-- The comment has its end, if it is a block comment. -/
def Ended (comment : Token) : Prop :=
  "/*".toList <+: comment.text.toList → "*/".toList <:+ comment.text.toList.drop 2

instance (comment : Token) : Decidable (Ended comment) :=
  inferInstanceAs (Decidable (_ → _))

/-! ## Runs of tokens -/

theorem takeWhile_append_of_neg {p : Token → Bool} (h : ∀ token ∈ later, p token = false)
    (rest : List Token) : (rest ++ later).takeWhile p = rest.takeWhile p :=
  Source.takeWhile_after (fun token htoken => h token (List.mem_of_mem_head? htoken)) rest

theorem dropWhile_append_of_neg {p : Token → Bool} (h : ∀ token ∈ later, p token = false)
    (rest : List Token) : (rest ++ later).dropWhile p = rest.dropWhile p ++ later := by
  induction rest with
  | nil =>
    cases later with
    | nil => rfl
    | cons token later => simp [h token List.mem_cons_self]
  | cons token rest ih => by_cases htoken : p token = true <;> simp [htoken, ih]

namespace Below

variable (hlater : Below a later)
include hlater

theorem takeWhile_start {stop : Nat} (hstop : stop ≤ byteLength a) (rest : List Token) :
    (rest ++ later).takeWhile (·.span.start < stop) = rest.takeWhile (·.span.start < stop) := by
  refine takeWhile_append_of_neg (fun token htoken => ?_) rest
  have := hlater.start token htoken
  simp only [decide_eq_false_iff_not]
  omega

theorem dropWhile_start {stop : Nat} (hstop : stop ≤ byteLength a) (rest : List Token) :
    (rest ++ later).dropWhile (·.span.start < stop) =
      rest.dropWhile (·.span.start < stop) ++ later := by
  refine dropWhile_append_of_neg (fun token htoken => ?_) rest
  have := hlater.start token htoken
  simp only [decide_eq_false_iff_not]
  omega

theorem line_ne {line : Nat} (hline : line ≤ lineBreaks a) :
    ∀ token ∈ later, (token.span.line == line) = false := by
  intro token htoken
  have := hlater.line token htoken
  simp only [beq_eq_false_iff_ne]
  omega

end Below

/-! ## Block comments -/

/-- A block comment that has its end goes no further in a longer text. -/
theorem commentBody_append {cs : List Char} (h : ['*', '/'] <:+ commentBody cs)
    (after : List Char) : commentBody (cs ++ after) = commentBody cs := by
  fun_induction commentBody cs with
  | case1 cs => rfl
  | case2 c cs hne ih =>
    -- the end is not the one character here with what follows, which would have ended the body
    have hsuffix : ['*', '/'] <:+ commentBody cs := by
      rcases List.suffix_cons_iff.mp h with heq | hsuffix
      · obtain ⟨hc, hbody⟩ := List.cons.inj heq
        obtain ⟨more, hcs⟩ := commentBody_prefix cs
        rw [← hbody] at hcs
        exact (hne more hc.symm hcs.symm).elim
      · exact hsuffix
    have hcs : cs ≠ [] := by
      rintro rfl
      simp [commentBody] at hsuffix
    rw [List.cons_append, commentBody, ih hsuffix]
    intro more hc heq
    cases cs with
    | nil => exact hcs rfl
    | cons d cs => exact hne cs hc (by rw [(List.cons.inj heq).1])
  | case3 => simp at h

theorem opensBlockComment_append (hlater : Below a later) (hcut : Cut a token) (rest : List Token) :
    opensBlockComment token (rest ++ later) = opensBlockComment token rest := by
  cases rest with
  | cons next rest => rfl
  | nil =>
    cases later with
    | nil => rfl
    | cons next later =>
      have hstart := hlater.start next List.mem_cons_self
      have hstop := hcut.stop.le_byteLength
      have htouches : token.touches next = false := by
        simp only [Token.touches, beq_eq_false_iff_ne]
        omega
      simp [opensBlockComment, htouches]

theorem blockComment_append (hlater : Below a later) (hpending : Pending a bound (slash :: rest))
    (hopens : opensBlockComment slash rest = true)
    (hlines : ∀ token ∈ slash :: rest, token.span.line ≤ lineBreaks a)
    (hended : ['*', '/'] <:+ commentBody (Source.dropBytes (slash.span.start + 2) a)) :
    draft.blockComment (a ++ '\n' :: b) slash (rest ++ later) =
      ((draft.blockComment a slash rest).1, (draft.blockComment a slash rest).2 ++ later) := by
  obtain ⟨hboundary, hlt, -⟩ := slice_commentEnd hpending hopens
  have hle := hboundary.le_byteLength
  have hend : commentEnd (a ++ '\n' :: b) slash.span.start = commentEnd a slash.span.start := by
    have hopening : slash.span.start + 2 ≤ byteLength a := by
      rw [commentEnd] at hle
      omega
    rw [commentEnd, Source.dropBytes_after hopening, commentBody_append hended, commentEnd]
  have hlast : (rest.takeWhile (·.span.start < commentEnd a slash.span.start)).getLastD slash ∈
      slash :: rest :=
    List.cons_subset_cons slash (List.takeWhile_sublist _).subset List.getLastD_mem_cons
  simp only [Draft.blockComment, hend, hlater.takeWhile_start hle, hlater.dropWhile_start hle,
    Source.slice_after hpending.cut.start hle, Source.lineBefore_after hle,
    Token.tokenizeLine_after hle, dropWhile_append_of_neg (hlater.line_ne (hlines _ hlast))]
  split <;> rfl

/-! ## Continuation sections -/

/-- The section is closed by a parenthesis of the source, if it is closed at all. -/
theorem sectionTokens?_append (hlater : Below a later)
    (hunclosed : ∀ token ∈ later, closesSection token = false)
    (hline : opening.span.line ≤ lineBreaks a) (rest : List Token) :
    sectionTokens? opening (rest ++ later) = (sectionTokens? opening rest).map fun parts =>
      { parts with after := parts.after ++ later } := by
  have hlines := hlater.line_ne hline
  have hnone : later.dropWhile (!closesSection ·) = [] :=
    List.dropWhile_eq_nil_iff.mpr fun token htoken => by simp [hunclosed token htoken]
  simp only [sectionTokens?, takeWhile_append_of_neg hlines, dropWhile_append_of_neg hlines]
  split
  · rfl
  · generalize rest.dropWhile (·.span.line == opening.span.line) = body
    rw [List.dropWhile_append, List.takeWhile_append]
    cases hclosing : body.dropWhile (!closesSection ·) with
    | nil => simp [hnone]
    | cons closing after =>
      have hlength : (body.takeWhile (!closesSection ·)).length ≠ body.length := by
        have := congrArg List.length
          (List.takeWhile_append_dropWhile (p := (!closesSection ·)) (l := body))
        simp only [hclosing, List.length_append, List.length_cons] at this
        omega
      simp [hlength]

/-- A line ends between the parentheses of a section. -/
theorem Pending.breakBetween_section (h : Pending a bound (opening :: rest))
    (hparts : sectionTokens? opening rest = some parts) :
    BreakBetween a opening.span.stop parts.closing.span.start := by
  have hfollows := List.pairwise_cons.mp h.2
  simp only [sectionTokens?] at hparts
  split at hparts
  · cases hparts
  · split at hparts
    · cases hparts
    · next closing after hclosing =>
      cases hparts
      have hmem : closing ∈ rest.dropWhile (·.span.line == opening.span.line) :=
        (List.dropWhile_sublist _).subset (hclosing ▸ List.mem_cons_self)
      have hbody := hfollows.2.sublist
        (List.dropWhile_sublist (·.span.line == opening.span.line) (l := rest))
      cases hfirst : rest.dropWhile (·.span.line == opening.span.line) with
      | nil =>
        rw [hfirst] at hmem
        cases hmem
      | cons first body =>
        have hrest : first ∈ rest :=
          (List.dropWhile_sublist _).subset (hfirst ▸ List.mem_cons_self)
        have hline : first.span.line ≠ opening.span.line := by
          have := List.head?_dropWhile_not (·.span.line == opening.span.line) rest
          rw [hfirst] at this
          simpa using this
        have hlt := (h.1 first (List.mem_cons_of_mem _ hrest)).1.lt
        refine ((hfollows.1 first hrest).2 hline).mono (Nat.le_refl _) ?_
        rw [hfirst] at hmem hbody
        rcases List.mem_cons.mp hmem with rfl | hmem
        · exact Nat.le_refl _
        · have := ((List.pairwise_cons.mp hbody).1 closing hmem).1
          dsimp only
          omega

theorem sectionLines_after (hreturn : a.getLast? ≠ some '\r') {closing : Token}
    (hopening : Cut a opening) (hclosing : Cut a closing)
    (hbreak : BreakBetween a opening.span.stop closing.span.start) :
    sectionLines (a ++ '\n' :: b) opening closing = sectionLines a opening closing := by
  have hlt := hbreak.lineEnd_lt hopening.stop
  have hle := hclosing.start.le_byteLength
  have hnext := Source.nextLineStart_after hreturn hopening.stop (by omega) b
  have hstart : Source.lineStart a closing.span.start ≤ byteLength a := by
    rw [Source.lineStart]
    omega
  simp only [sectionLines, hnext, Source.lineStart_after hle,
    Source.slice_after hopening.stop.nextLineStart hstart]

theorem optionsText_after (hopening : Cut a opening) {header : List Token}
    (hheader : ∀ token ∈ header, Cut a token) :
    optionsText (a ++ '\n' :: b) opening header = optionsText a opening header := by
  have hlast := cut_getLastD_header hopening hheader
  rw [optionsText, Source.slice_after hopening.stop hlast.stop.le_byteLength, optionsText]

theorem continuedString?_append (hreturn : a.getLast? ≠ some '\r') (hlater : Below a later)
    (hsound : draft.Sound a bound) (hpending : Pending a bound (opening :: rest))
    (hlines : ∀ token ∈ opening :: rest, token.span.line ≤ lineBreaks a)
    (hparts : sectionTokens? opening rest = some parts) (options : Section.Options) :
    draft.continuedString? (a ++ '\n' :: b) options opening
        { parts with after := parts.after ++ later } =
      (draft.continuedString? a options opening parts).map fun result =>
        (result.1, result.2 ++ later) := by
  obtain ⟨-, -, hclosing⟩ := hpending.sectionTokens hparts
  have hline : parts.closing.span.line ≤ lineBreaks a := by
    refine hlines _ (List.mem_cons_of_mem _ ?_)
    rw [sectionTokens?_eq_some hparts]
    simp
  have hle := hclosing.cut.stop.le_byteLength
  have hbreak : Text.isLineBreak '\n' = true := rfl
  simp only [Draft.continuedString?, Source.dropBytes_after hle, Token.closingQuote_break hbreak,
    sectionLines_after hreturn hpending.cut hclosing.cut (hpending.breakBetween_section hparts),
    dropWhile_append_of_neg (hlater.line_ne hline)]
  cases draft.items.head? with
  | none => rfl
  | some last =>
    cases hquote : openQuote? last.token.span.line draft.items with
    | none => simp [hquote]
    | some found =>
      obtain ⟨quote, earlier⟩ := found
      have hcut : Cut a quote.token := by
        obtain ⟨newer, hitems⟩ := openQuote?_eq_some hquote
        refine (hsound.items.1 quote.token (List.mem_map_of_mem ?_)).1
        simp [hitems]
      cases hlength : Token.closingQuote (Source.dropBytes parts.closing.span.stop a) with
      | none => simp
      | some length =>
        have hstop := (hclosing.cut.stop.add (List.take_append_drop length _).symm).le_byteLength
        simp only [Option.bind_eq_bind, Option.bind_some, Option.pure_def, Option.map_some, hquote,
          List.take_append_of_le_length (Token.closingQuote_le hlength),
          Source.lineAfter_after hbreak hcut.stop.le_byteLength,
          Source.slice_after hcut.start hstop, Source.lineBefore_after hstop,
          Token.tokenizeLine_after hstop]

theorem continuation?_append (hreturn : a.getLast? ≠ some '\r') (hlater : Below a later)
    (hunclosed : ∀ token ∈ later, closesSection token = false) (hsound : draft.Sound a bound)
    (hpending : Pending a bound (opening :: rest))
    (hlines : ∀ token ∈ opening :: rest, token.span.line ≤ lineBreaks a) :
    draft.continuation? (a ++ '\n' :: b) opening (rest ++ later) =
      (draft.continuation? a opening rest).map fun result => (result.1, result.2 ++ later) := by
  simp only [Draft.continuation?, sectionTokens?_append hlater hunclosed
    (hlines _ List.mem_cons_self)]
  cases hparts : sectionTokens? opening rest with
  | none => rfl
  | some parts =>
    have hheader : ∀ token ∈ parts.header, Cut a token := by
      intro token htoken
      refine (hpending.1 token (List.mem_cons_of_mem _ ?_)).1
      rw [sectionTokens?_eq_some hparts]
      exact List.mem_append_left _ htoken
    simp only [Option.map_some, Option.bind_eq_bind, Option.bind_some, Option.pure_def,
      optionsText_after hpending.cut hheader,
      continuedString?_append hreturn hlater hsound hpending hlines hparts]
    cases draft.continuedString? a (.ofText (optionsText a opening parts.header)) opening parts with
    | none => rfl
    | some result => rfl

/-! ## The whole pass -/

theorem comments_foldl_sort (apart : Bool) (inSection : Option Nat) (tokens : List Token)
    (draft : Draft) :
    draft.comments <:+ (tokens.foldl (Draft.sort apart inSection) draft).comments := by
  induction tokens generalizing draft with
  | nil => exact List.suffix_refl _
  | cons token tokens ih =>
    refine List.IsSuffix.trans ?_ (ih _)
    unfold Draft.sort
    split
    · exact List.suffix_cons _ _
    · exact List.suffix_refl _

theorem comments_blockComment (source : Source) (draft : Draft) (slash : Token)
    (rest : List Token) :
    ∃ comment : Token, comment.text = String.ofList (Source.slice source slash.span.start
        (commentEnd source slash.span.start)) ∧
      comment :: draft.comments <:+ (draft.blockComment source slash rest).1.comments := by
  refine ⟨
    { kind := .comment
      text := String.ofList (Source.slice source slash.span.start
        (commentEnd source slash.span.start))
      span := slash.span.to (commentEnd source slash.span.start)
      opensLine := true }, rfl, ?_⟩
  simp only [Draft.blockComment]
  split
  · refine List.IsSuffix.trans ?_ (comments_foldl_sort false none _ _)
    exact List.suffix_refl _
  · exact List.suffix_refl _

/-- A step only adds comments. -/
theorem comments_next (source : Source) (draft : Draft) (token : Token) (rest : List Token) :
    draft.comments <:+ (draft.next source token rest).1.comments := by
  rcases draft.next_cases source token rest with ⟨-, hnext⟩ | hnext | hnext | hnext
  · obtain ⟨comment, -, hsuffix⟩ := comments_blockComment source draft token rest
    rw [hnext]
    exact (List.suffix_cons _ _).trans hsuffix
  · rw [hnext]
    exact List.suffix_cons _ _
  · obtain ⟨parts, options, -, hstring | hjoined⟩ := Draft.continuation?_cases hnext
    · simp only [Draft.continuedString?, Option.bind_eq_bind, Option.bind_eq_some_iff,
        Option.pure_def, Option.some.injEq] at hstring
      obtain ⟨last, -, ⟨quote, earlier⟩, -, length, -, hstring⟩ := hstring
      rw [← hstring]
      refine List.IsSuffix.trans ?_ (comments_foldl_sort true none _ _)
      exact List.suffix_append _ draft.comments
    · rw [← hjoined]
      refine List.IsSuffix.trans ?_ (comments_foldl_sort _ _ parts.inner _)
      exact List.suffix_refl draft.comments
  · rw [hnext]
    exact List.suffix_refl _

theorem comments_read (source : Source) (draft : Draft) (tokens : List Token) :
    draft.comments <:+ (draft.read source tokens).comments :=
  Draft.read_invariant (motive := fun draft' _ => draft.comments <:+ draft'.comments)
    (fun draft' token rest h => h.trans (comments_next source draft' token rest))
    (List.suffix_refl _)

theorem next_append (hreturn : a.getLast? ≠ some '\r') (hlater : Below a later)
    (hsections : opensSection token = true → ∀ other ∈ later, closesSection other = false)
    (hsound : draft.Sound a bound) (hpending : Pending a bound (token :: rest))
    (hlines : ∀ other ∈ token :: rest, other.span.line ≤ lineBreaks a)
    (hended : ∀ comment ∈ (draft.next a token rest).1.comments, Ended comment) :
    draft.next (a ++ '\n' :: b) token (rest ++ later) =
      ((draft.next a token rest).1, (draft.next a token rest).2 ++ later) := by
  simp only [Draft.next, opensBlockComment_append hlater hpending.cut]
  split
  · next hopens =>
    simp only [Bool.and_eq_true] at hopens
    rw [Draft.next, if_pos (by simpa using hopens)] at hended
    obtain ⟨comment, htext, hsuffix⟩ := comments_blockComment a draft token rest
    obtain ⟨-, -, hslice⟩ := slice_commentEnd hpending hopens.2
    -- the comment that this step adds is one of those that have their end
    have hbody := hended comment (hsuffix.subset List.mem_cons_self)
    simp only [Ended, htext, hslice, String.toList_ofList] at hbody
    exact blockComment_append hlater hpending hopens.2 hlines (hbody ⟨_, rfl⟩)
  split
  · rfl
  split
  · next hopens =>
    rw [continuation?_append hreturn hlater (hsections hopens) hsound hpending hlines]
    cases draft.continuation? a token rest <;> rfl
  · rfl

/-- The tokens of a source without an open comment are read as if nothing stood below. -/
theorem read_append (hreturn : a.getLast? ≠ some '\r') (hlater : Below a later)
    (hsections : ∀ token ∈ tokens, opensSection token = true →
      ∀ other ∈ later, closesSection other = false)
    (hsound : draft.Sound a bound) (hpending : Pending a bound tokens)
    (hlines : ∀ token ∈ tokens, token.span.line ≤ lineBreaks a)
    (hended : ∀ comment ∈ (draft.read a tokens).comments, Ended comment) :
    draft.read (a ++ '\n' :: b) (tokens ++ later) =
      (draft.read a tokens).read (a ++ '\n' :: b) later := by
  induction draft, tokens using Draft.read_induction a generalizing bound with
  | done draft => rw [Draft.read, List.nil_append]
  | step draft token rest ih =>
    rw [Draft.read_cons] at hended
    have hnext := @next_append a b bound draft token rest later hreturn hlater
      (hsections token List.mem_cons_self) hsound hpending hlines
      fun comment hcomment => hended comment ((comments_read a _ _).subset hcomment)
    obtain ⟨bound', hsound', hpending'⟩ := hsound.next hpending
    have hrest : (draft.next a token rest).2 ⊆ token :: rest :=
      fun other hother => List.mem_cons_of_mem _ ((draft.next_sublist a token rest).subset hother)
    rw [List.cons_append, Draft.read_cons, hnext, ih (fun other hother => hsections other
      (hrest hother)) hsound' hpending' (fun other hother => hlines other (hrest hother)) hended,
      ← Draft.read_cons]

end HotkeyScript.Stream
