import HotkeyScript.Proofs.Stream.Positions
import HotkeyScript.Proofs.Token.Spaced

/-!
# Streams of words on one line

A line of words with spaces between them has no comment and no continuation section, so its stream
is the words themselves. None of them touches another, and all but the first carry on the line.

## Main definitions

* `Stream.Spaced` — a stream whose tokens are words on one line, apart from each other.
-/

namespace HotkeyScript.Stream

open Token (Word spell layout)

variable {source : Source} {draft : Draft} {token : Token} {tokens : List Token}
  {words : List Word}

/-- The tokens of the stream are the words, on one line and apart from each other. -/
structure Spaced (stream : Stream) (words : List Word) : Prop where
  size : stream.size = words.length
  token {i : Nat} {word : Word} : words[i]? = some word →
    ∃ token, stream.token? i = some token ∧ token.kind = word.kind ∧ token.text = word.text
  line {i : Nat} : 0 < i → i < stream.size → stream.startsLine i = false
  apart (i : Nat) : stream.touchesPrevious i = false

theorem Spaced.reads {stream : Stream} (h : Spaced stream words) {i : Nat} {word : Word}
    (hword : words[i]? = some word) (text : String) :
    stream.reads i text = (word.text == text) := by
  obtain ⟨token, htoken, -, htext⟩ := h.token hword
  simp [Stream.reads, htoken, htext]

theorem Spaced.lt_size {stream : Stream} (h : Spaced stream words) {i : Nat} {word : Word}
    (hword : words[i]? = some word) : i < stream.size := by
  obtain ⟨token, htoken, -, -⟩ := h.token hword
  exact lt_size_of_token? htoken

theorem Spaced.expected {stream : Stream} (h : Spaced stream words) {i : Nat} {word : Word}
    (hword : words[i]? = some word) : (stream.token? i).any (·.is word.text) = true := by
  obtain ⟨token, htoken, -, htext⟩ := h.token hword
  simp [htoken, Token.is, htext]

/-! ## The pass over a line -/

/-- Tokens that open no line are sorted one after the other. -/
theorem read_of_not_opensLine (h : ∀ token ∈ tokens, token.opensLine = false) :
    draft.read source tokens = tokens.foldl (Draft.sort true none) draft := by
  induction tokens generalizing draft with
  | nil => rw [Draft.read, List.foldl_nil]
  | cons token tokens ih =>
    have hopens := h token List.mem_cons_self
    have hrest := @ih (draft.sort true none token) fun other hother =>
      h other (List.mem_cons_of_mem _ hother)
    rw [Draft.read, List.foldl_cons, ← hrest]
    by_cases hkind : token.kind = .comment <;> simp [hopens, hkind, Draft.sort]

theorem foldl_sort_of_kind (h : ∀ token ∈ tokens, token.kind ≠ .comment) :
    tokens.foldl (Draft.sort true none) draft = tokens.foldl (Draft.emit · none ·) draft := by
  induction tokens generalizing draft with
  | nil => rfl
  | cons token tokens ih =>
    have hkind := h token List.mem_cons_self
    rw [List.foldl_cons, List.foldl_cons,
      ih fun other hother => h other (List.mem_cons_of_mem _ hother)]
    simp [Draft.sort, hkind]

/-- A parenthesis opens no section if all that follows is on its line. -/
theorem continuation?_eq_none (h : ∀ other ∈ tokens, other.span.line = token.span.line) :
    draft.continuation? source token tokens = none := by
  have hline : tokens.dropWhile (·.span.line == token.span.line) = [] :=
    List.dropWhile_eq_nil_iff.mpr fun other hother => by simp [h other hother]
  simp [Draft.continuation?, sectionTokens?, hline]

/-- A token opens no block comment if the next one does not touch it. -/
theorem opensBlockComment_eq_false (h : ∀ next ∈ tokens, token.span.stop < next.span.start) :
    opensBlockComment token tokens = false := by
  cases tokens with
  | nil => rfl
  | cons next tokens =>
    have := h next List.mem_cons_self
    have hne : (token.span.stop == next.span.start) = false := by simpa using Nat.ne_of_lt this
    simp [opensBlockComment, Token.touches, hne]

theorem read_row (hkind : ∀ other ∈ token :: tokens, other.kind ≠ .comment)
    (hopens : ∀ other ∈ tokens, other.opensLine = false)
    (hline : ∀ other ∈ tokens, other.span.line = token.span.line)
    (hapart : ∀ next ∈ tokens, token.span.stop < next.span.start) :
    draft.read source (token :: tokens) =
      (token :: tokens).foldl (Draft.emit · none ·) draft := by
  have hrest : (draft.emit none token).read source tokens = _ :=
    (read_of_not_opensLine hopens).trans
      (foldl_sort_of_kind fun other hother => hkind other (List.mem_cons_of_mem _ hother))
  have hfirst := hkind token List.mem_cons_self
  rw [Draft.read, List.foldl_cons, ← hrest]
  simp only [opensBlockComment_eq_false hapart, Bool.and_false, Bool.false_eq_true, if_false,
    hfirst]
  split
  · split
    · next hsection =>
      rw [continuation?_eq_none hline] at hsection
      cases hsection
    · rfl
  · rfl

/-- Tokens on the line of the latest one do not start a line. -/
theorem items_foldl_emit {line : Nat} (hline : ∀ token ∈ tokens, token.span.line = line)
    (hlast : draft.lastLine = some line) :
    (tokens.foldl (Draft.emit · none ·) draft).items =
      (tokens.map fun token => { token, startsLine := false, inSection := none }).reverse ++
        draft.items := by
  induction tokens generalizing draft with
  | nil => rfl
  | cons token tokens ih =>
    have htoken := hline token List.mem_cons_self
    have hemit : (draft.emit none token).items =
        { token, startsLine := false, inSection := none } :: draft.items := by
      simp [Draft.emit, hlast, htoken]
    rw [List.foldl_cons, ih (fun other hother => hline other (List.mem_cons_of_mem _ hother))
      (by simp [Draft.emit, htoken]), hemit]
    simp

/-! ## The stream of a line -/

theorem kind_layout (place : Token.Place) (hkind : ∀ word ∈ words, word.kind ≠ .comment) :
    ∀ token ∈ layout place words, token.kind ≠ .comment := by
  intro token htoken
  have hmem : (⟨token.kind, token.text⟩ : Word) ∈ words := by
    rw [← Token.map_layout place words]
    exact List.mem_map_of_mem htoken
  exact hkind _ hmem

/-- The items of a line: its words, of which only the first starts the line. -/
theorem items_ofSource (h : ∀ word ∈ words, word.Lexes)
    (hkind : ∀ word ∈ words, word.kind ≠ .comment) :
    (ofSource (spell words)).items.toList.map (·.token) = layout {} words ∧
      ∀ item ∈ (ofSource (spell words)).items.toList.tail, item.startsLine = false := by
  simp only [ofSource, Draft.toStream, Token.tokenize_spell h]
  have hcomments := kind_layout {} hkind
  have hpairwise := Token.pairwise_layout {} words
  cases words with
  | nil => simp [layout, Draft.read]
  | cons word words =>
    simp only [layout] at hcomments hpairwise ⊢
    generalize htoken : Token.Place.token {} word.kind word.text.toList = token at *
    have hline : token.span.line = 0 := htoken ▸ rfl
    have hlines : ∀ other ∈ layout (Token.Place.afterBlank
        (Token.Place.afterToken {} word.text.toList) ' ') words, other.span.line = 0 :=
      fun other hother => Token.line_layout hother
    rw [read_row hcomments (fun other hother => Token.opensLine_layout hother rfl)
      (fun other hother => (hlines other hother).trans hline.symm)
      (List.pairwise_cons.mp hpairwise).1, List.foldl_cons,
      items_foldl_emit hlines (by simp [Draft.emit, hline])]
    simp [Draft.emit, Function.comp_def]

theorem spaced_ofSource (h : ∀ word ∈ words, word.Lexes)
    (hkind : ∀ word ∈ words, word.kind ≠ .comment) : Spaced (ofSource (spell words)) words := by
  obtain ⟨htokens, hstarts⟩ := items_ofSource h hkind
  have htoken? : ∀ i, (ofSource (spell words)).token? i = (layout {} words)[i]? := by
    intro i
    rw [← htokens, List.getElem?_map, Array.getElem?_toList, token?]
  refine ⟨?_, ?_, ?_, ?_⟩
  · have hlength := congrArg List.length htokens
    have hlength' := congrArg List.length (Token.map_layout {} words)
    simp only [List.length_map, Array.length_toList] at hlength hlength'
    rw [size, hlength, hlength']
  · intro i word hword
    rw [← Token.map_layout {} words, List.getElem?_map, Option.map_eq_some_iff] at hword
    obtain ⟨token, htoken, rfl⟩ := hword
    exact ⟨token, by rw [htoken?, htoken], rfl, rfl⟩
  · intro i hpos hlt
    obtain ⟨i, rfl⟩ := Nat.exists_eq_succ_of_ne_zero (Nat.pos_iff_ne_zero.mp hpos)
    obtain ⟨item, hitem⟩ : ∃ item, (ofSource (spell words)).items[i + 1]? = some item :=
      ⟨_, Array.getElem?_eq_getElem hlt⟩
    have htail : (ofSource (spell words)).items.toList.tail[i]? = some item := by
      rw [List.getElem?_tail, Array.getElem?_toList, hitem]
    rw [startsLine, hitem]
    exact hstarts item (List.mem_of_getElem? htail)
  · intro i
    cases i with
    | zero => rfl
    | succ i =>
      simp only [touchesPrevious, previous?_succ, htoken?]
      cases hprevious : (layout {} words)[i]? with
      | none => rfl
      | some previous =>
        cases hnext : (layout {} words)[i + 1]? with
        | none => rfl
        | some next =>
          obtain ⟨hi, rfl⟩ := List.getElem?_eq_some_iff.mp hprevious
          obtain ⟨hi', rfl⟩ := List.getElem?_eq_some_iff.mp hnext
          have hlt := List.pairwise_iff_getElem.mp (Token.pairwise_layout {} words) i (i + 1) hi
            hi' (Nat.lt_succ_self i)
          simpa [Token.touches] using Nat.ne_of_lt hlt

end HotkeyScript.Stream
