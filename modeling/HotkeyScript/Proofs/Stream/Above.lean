import HotkeyScript.Proofs.Stream.Window
import HotkeyScript.Proofs.Token.Append

/-!
# Lines above a source

The pass over the tokens of a source that stands on the lines below another text does the same as
the pass over the source alone, on top of what it has kept of the text above. This holds if no line
of the source but the first starts with a closing parenthesis: such a line could end a section, and
the string that the section carries on could start above.

## Main definitions

* `Stream.Draft.append` — a draft on top of another one.
-/

namespace HotkeyScript.Stream

open Source (byteLength)

variable {source before : Source} {bytes lines : Nat} {first draft : Draft} {token slash : Token}
  {rest tokens : List Token}

/-- The first draft, and on top of it what a draft without sections holds, at a later place. -/
def Draft.append (bytes lines : Nat) (first draft : Draft) : Draft :=
  { items := draft.items.map (Item.shift bytes lines) ++ first.items
    sections := first.sections
    comments := draft.comments.map (Token.shift bytes lines) ++ first.comments
    lastLine := (draft.lastLine.map (· + lines)).or first.lastLine }

/-- The draft has read only lines before the given one. -/
def Draft.EndsBefore (draft : Draft) (lines : Nat) : Prop :=
  ∀ line, draft.lastLine = some line → line < lines

/-! ## Single steps -/

theorem emit_append (hfirst : first.EndsBefore lines) (draft : Draft) (token : Token) :
    (first.append bytes lines draft).emit none (token.shift bytes lines) =
      first.append bytes lines (draft.emit none token) := by
  have hline : ((draft.lastLine.map (· + lines)).or first.lastLine !=
      some (token.span.line + lines)) = (draft.lastLine != some token.span.line) := by
    cases hlast : draft.lastLine with
    | none =>
      -- the first token starts a line, since the text above ends on an earlier one
      have hne : first.lastLine ≠ some (token.span.line + lines) := by
        intro hline
        have := hfirst _ hline
        omega
      rw [Option.map_none, Option.none_or, bne_iff_ne.mpr hne]
      rfl
    | some line => simp [bne]
  simp [Draft.emit, Draft.append, Item.shift, hline]

theorem sort_append (hfirst : first.EndsBefore lines) (apart : Bool) (draft : Draft)
    (token : Token) :
    (first.append bytes lines draft).sort apart none (token.shift bytes lines) =
      first.append bytes lines (draft.sort apart none token) := by
  unfold Draft.sort
  rw [Token.shift_kind]
  split
  · rfl
  · exact emit_append hfirst draft token

theorem foldl_sort_append (hfirst : first.EndsBefore lines) (apart : Bool) (tokens : List Token)
    (draft : Draft) :
    (tokens.map (Token.shift bytes lines)).foldl (Draft.sort apart none)
        (first.append bytes lines draft) =
      first.append bytes lines (tokens.foldl (Draft.sort apart none) draft) := by
  induction tokens generalizing draft with
  | nil => rfl
  | cons token tokens ih =>
    rw [List.map_cons, List.foldl_cons, sort_append hfirst, ih, List.foldl_cons]

/-! ## Block comments -/

theorem opensBlockComment_shift (token : Token) (rest : List Token) :
    opensBlockComment (token.shift bytes lines) (rest.map (Token.shift bytes lines)) =
      opensBlockComment token rest := by
  cases rest with
  | nil => rfl
  | cons next rest => simp [opensBlockComment]

theorem commentEnd_before (before source : Source) (start : Nat) :
    commentEnd (before ++ source) (start + byteLength before) =
      commentEnd source start + byteLength before := by
  rw [commentEnd, Nat.add_right_comm start, Source.dropBytes_before, commentEnd]
  omega

theorem blockComment_shift (hbefore : before.getLast? = some '\n')
    (hfirst : first.EndsBefore lines) (draft : Draft) (slash : Token) (rest : List Token) :
    (first.append (byteLength before) lines draft).blockComment (before ++ source)
        (slash.shift (byteLength before) lines) (rest.map (Token.shift (byteLength before) lines)) =
      (first.append (byteLength before) lines (draft.blockComment source slash rest).1,
        (draft.blockComment source slash rest).2.map (Token.shift (byteLength before) lines)) := by
  have hends : Text.EndsLine before := by
    intro c hc
    cases hbefore.symm.trans hc
    decide
  have hstart : ∀ stop,
      (fun token : Token => decide (token.span.start < stop + byteLength before)) ∘
        Token.shift (byteLength before) lines = fun token => decide (token.span.start < stop) := by
    intro stop
    funext token
    simp
  have hline : ∀ line, (fun token : Token => token.span.line == line + lines) ∘
      Token.shift (byteLength before) lines = fun token => token.span.line == line := by
    intro line
    funext token
    rw [Bool.eq_iff_iff]
    simp
  have hlast : ∀ hidden : List Token,
      (hidden.map (Token.shift (byteLength before) lines)).getLastD
        (slash.shift (byteLength before) lines) =
      (hidden.getLastD slash).shift (byteLength before) lines := by
    intro hidden
    rw [List.getLastD_eq_getLast?, List.getLast?_map, Option.getD_map, List.getLastD_eq_getLast?]
  simp only [Draft.blockComment, Token.shift_span, Span.shift_start, commentEnd_before,
    Source.slice_before, List.takeWhile_map, List.dropWhile_map, hstart, hlast, Span.shift_stop,
    Nat.add_lt_add_iff_right, Span.shift_line, Source.lineBefore_before hends,
    Token.tokenizeLine_before hbefore, hline]
  split
  · rw [← foldl_sort_append hfirst]
    rfl
  · rfl

/-! ## The whole pass -/

/-- Without a closing parenthesis there is no section. -/
theorem continuation?_of_unclosed (h : ∀ token ∈ rest, closesSection token = false)
    (source : Source) (draft : Draft) (opening : Token) :
    draft.continuation? source opening rest = none := by
  have hnone : (rest.dropWhile (·.span.line == opening.span.line)).dropWhile
      (!closesSection ·) = [] := by
    refine List.dropWhile_eq_nil_iff.mpr fun token htoken => ?_
    simp [h token ((List.dropWhile_sublist _).subset htoken)]
  simp [Draft.continuation?, sectionTokens?, hnone]

theorem next_shift (hbefore : before.getLast? = some '\n') (hfirst : first.EndsBefore lines)
    (hunclosed : ∀ other ∈ rest, closesSection other = false) (draft : Draft) (token : Token) :
    (first.append (byteLength before) lines draft).next (before ++ source)
        (token.shift (byteLength before) lines) (rest.map (Token.shift (byteLength before) lines)) =
      (first.append (byteLength before) lines (draft.next source token rest).1,
        (draft.next source token rest).2.map (Token.shift (byteLength before) lines)) := by
  have hunclosed' : ∀ other ∈ rest.map (Token.shift (byteLength before) lines),
      closesSection other = false := List.forall_mem_map.mpr hunclosed
  simp only [Draft.next, opensBlockComment_shift, Token.shift_opensLine, Token.shift_kind,
    Token.shift_text, continuation?_of_unclosed hunclosed, continuation?_of_unclosed hunclosed',
    Option.getD_none, blockComment_shift hbefore hfirst, emit_append hfirst]
  split
  · rfl
  split
  · rfl
  · simp only [ite_self]

/-- The tokens of a source are read on top of what stands above it. -/
theorem read_shift (hbefore : before.getLast? = some '\n') (hfirst : first.EndsBefore lines)
    (hunclosed : ∀ token ∈ tokens.tail, closesSection token = false) (draft : Draft) :
    (first.append (byteLength before) lines draft).read (before ++ source)
        (tokens.map (Token.shift (byteLength before) lines)) =
      first.append (byteLength before) lines (draft.read source tokens) := by
  induction draft, tokens using Draft.read_induction source with
  | done draft => rw [List.map_nil, Draft.read, Draft.read]
  | step draft token rest ih =>
    have hrest : ∀ other ∈ rest, closesSection other = false := hunclosed
    rw [List.map_cons, Draft.read_cons, next_shift hbefore hfirst hrest, ih, ← Draft.read_cons]
    exact fun other hother => hrest other
      ((draft.next_sublist source token rest).subset (List.mem_of_mem_tail hother))

/-! ## Items without a section -/

/-- The items are there, with unmarked ones behind them. If no line had been read, the first of
these starts one. -/
structure Grows (draft draft' : Draft) (newer : List Item) : Prop where
  items : draft'.items = newer ++ draft.items
  unmarked : ∀ item ∈ newer, item.inSection = none
  lastLine : newer = [] → draft'.lastLine = draft.lastLine
  startsLine : draft.lastLine = none → ∀ item ∈ newer.getLast?, item.startsLine = true

theorem Grows.refl (draft : Draft) : Grows draft draft [] :=
  ⟨rfl, List.forall_mem_nil _, fun _ => rfl, fun _ _ hitem => by cases hitem⟩

theorem grows_comment (draft : Draft) (token : Token) : Grows draft (draft.comment token) [] :=
  ⟨rfl, List.forall_mem_nil _, fun _ => rfl, fun _ _ hitem => by cases hitem⟩

theorem Grows.trans {draft' draft'' : Draft} {newer newer' : List Item}
    (h : Grows draft draft' newer) (h' : Grows draft' draft'' newer') :
    Grows draft draft'' (newer' ++ newer) where
  items := by rw [h'.items, h.items, List.append_assoc]
  unmarked := List.forall_mem_append.mpr ⟨h'.unmarked, h.unmarked⟩
  lastLine hnil := by
    obtain ⟨hnewer', hnewer⟩ := List.append_eq_nil_iff.mp hnil
    rw [h'.lastLine hnewer', h.lastLine hnewer]
  startsLine hline := by
    cases newer with
    | nil =>
      rw [List.append_nil]
      exact h'.startsLine ((h.lastLine rfl).trans hline)
    | cons item newer =>
      rw [List.getLast?_append, Option.or_of_isSome (by simp)]
      exact h.startsLine hline

theorem grows_emit (draft : Draft) (token : Token) :
    ∃ newer, Grows draft (draft.emit none token) newer := by
  refine ⟨[_], rfl, by simp, fun hnil => absurd hnil (List.cons_ne_nil _ _), ?_⟩
  rintro hline item ⟨⟩
  simp [hline]

theorem grows_foldl_sort (apart : Bool) (tokens : List Token) (draft : Draft) :
    ∃ newer, Grows draft (tokens.foldl (Draft.sort apart none) draft) newer := by
  induction tokens generalizing draft with
  | nil => exact ⟨[], .refl draft⟩
  | cons token tokens ih =>
    have hsort : ∃ newer, Grows draft (draft.sort apart none token) newer := by
      unfold Draft.sort
      split
      · exact ⟨[], grows_comment draft token⟩
      · exact grows_emit draft token
    obtain ⟨newer, hnewer⟩ := hsort
    obtain ⟨newer', hnewer'⟩ := ih (draft.sort apart none token)
    exact ⟨newer' ++ newer, hnewer.trans hnewer'⟩

theorem grows_next (hunclosed : ∀ other ∈ rest, closesSection other = false) (source : Source)
    (draft : Draft) (token : Token) :
    ∃ newer, Grows draft (draft.next source token rest).1 newer := by
  rcases draft.next_cases source token rest with ⟨-, hnext⟩ | hnext | hnext | hnext
  · rw [hnext]
    simp only [Draft.blockComment]
    split
    · obtain ⟨newer, hnewer⟩ := grows_foldl_sort false _ (draft.comment _)
      exact ⟨_, (grows_comment draft _).trans hnewer⟩
    · exact ⟨[], grows_comment draft _⟩
  · rw [hnext]
    exact ⟨[], grows_comment draft token⟩
  · rw [continuation?_of_unclosed hunclosed] at hnext
    cases hnext
  · rw [hnext]
    exact grows_emit draft token

theorem grows_read (hunclosed : ∀ token ∈ tokens.tail, closesSection token = false)
    (source : Source) (draft : Draft) :
    ∃ newer, Grows draft (draft.read source tokens) newer := by
  refine (Draft.read_invariant (motive := fun draft' tokens => (∃ newer, Grows draft draft' newer) ∧
    ∀ token ∈ tokens.tail, closesSection token = false) ?_ ⟨⟨[], .refl draft⟩, hunclosed⟩).1
  rintro draft' token rest ⟨⟨newer, hnewer⟩, hunclosed⟩
  obtain ⟨newer', hnewer'⟩ := grows_next hunclosed source draft' token
  exact ⟨⟨newer' ++ newer, hnewer.trans hnewer'⟩, fun other hother => hunclosed other
    ((draft'.next_sublist source token rest).subset (List.mem_of_mem_tail hother))⟩

end HotkeyScript.Stream
