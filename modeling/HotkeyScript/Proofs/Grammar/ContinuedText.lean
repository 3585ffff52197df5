import HotkeyScript.Proofs.Grammar.SectionText
import HotkeyScript.Proofs.Stream.SectionLines

/-!
# Text that a section carries on

The text of a line with a section below it: the text of the line, and behind it the lines of the
section, trimmed and joined. Nothing stands for the line break in front of the section.
-/

namespace HotkeyScript.Grammar

open Source (byteLength)
open HotkeyScript.Stream (Carried Continues aboveLines continued ofSource writtenSection
  writtenTokens)
open Text (Unbroken isSpaceOrTab)
open Token (Remains rows tokenize)

variable {head header tail : List Char} {ls : List (List Char)} {stream : Stream}
  {around : Section} {front inner more : List Token} {first last token : Token} {i : Nat}

/-! ## The lines of the section -/

/-- The lines of the section are found in the source. -/
theorem lines_continued (h : Continues head header ls) (tail : List Char) :
    Lines (ofSource (continued head header ls tail)) (writtenSection head header ls)
      (aboveLines head header) 2 ls := by
  obtain ⟨hcut, hordered⟩ := Token.tokenize_ordered (continued head header ls tail)
  rw [Stream.tokenize_continued h] at hcut hordered
  obtain ⟨-, hordered, -⟩ := List.pairwise_append.mp hordered
  obtain ⟨-, hordered, -⟩ := List.pairwise_append.mp (List.pairwise_cons.mp hordered).2
  obtain ⟨hordered, -, -⟩ := List.pairwise_append.mp hordered
  refine ⟨⟨')' :: tail, ?_⟩, ?_, ?_, fun token htoken => hcut token ?_, hordered.imp And.left⟩
  · change continued head header ls tail = _
    simp [continued, aboveLines]
  · change byteLength head + 1 < byteLength (aboveLines head header)
    simp only [aboveLines, Source.byteLength_append, Source.byteLength_cons,
      show '\n'.utf8Size = 1 from rfl, show '('.utf8Size = 1 from rfl]
    omega
  · change _ < byteLength (aboveLines head header) + byteLength (Text.unlines ls) + 1
    rw [Source.byteLength_append]
    exact Nat.lt_succ_self _
  · have hmem : token ∈ (writtenTokens head header ls tail).inner := htoken
    simp [hmem]

/-- The stream has the tokens of the lines that are no comments. -/
theorem filter_rows_eq_kept {options : Section.Options} (hls : ∀ text ∈ ls, options.Legible text)
    (before : List Char) (line : Nat) :
    (rows (byteLength before) line ls).filter (fun token =>
      !(token.kind = .comment && options.comments)) = kept before line ls := by
  refine List.filter_congr fun token htoken => ?_
  obtain ⟨-, text, htext, -, hsemicolon⟩ :=
    Token.of_mem_rows (fun text htext => (hls text htext).unbroken) htoken
  by_cases hkind : token.kind = .comment
  · rcases (hls text htext).comments with ⟨-, hnone⟩ | ⟨hcomments, -⟩
    · exact absurd (hsemicolon hkind) hnone
    · simp [hkind, hcomments]
  · simp [hkind]

/-! ## Accents -/

/-- Accents lose their meaning if one of the tokens lies in a section that takes it. -/
theorem hasLiteralAccent_of_carried (h : Carried stream around front inner)
    (hi : i ≤ front.length) :
    hasLiteralAccent stream i stream.size = (!inner.isEmpty && around.options.literalAccent) := by
  have hsize := h.size_eq
  rw [Bool.eq_iff_iff, hasLiteralAccent, List.any_eq_true, Bool.and_eq_true, Bool.not_eq_true',
    List.isEmpty_eq_false_iff_exists_mem]
  constructor
  · rintro ⟨p, hp, haccent⟩
    rw [List.mem_range'_1] at hp
    rcases Nat.lt_or_ge p front.length with hlt | hge
    · simp [h.section?_front hlt] at haccent
    · obtain ⟨j, rfl⟩ := Nat.exists_eq_add_of_le hge
      have hj : j < inner.length := by omega
      exact ⟨⟨_, List.getElem_mem hj⟩, by simpa [h.section?_inner hj] using haccent⟩
  · rintro ⟨⟨token, htoken⟩, haccent⟩
    have hpos := List.length_pos_of_mem htoken
    have hsection := h.section?_inner hpos
    rw [Nat.add_zero] at hsection
    exact ⟨front.length, List.mem_range'_1.mpr (by omega), by simp [hsection, haccent]⟩

/-! ## The text of the section -/

section Carried

variable (h : Carried stream around front (first :: more))
include h

/-- The tokens of the section make up text of their own. -/
theorem assembled_of_carried :
    assembled stream front.length stream.size = sectionIndent stream front.length ++
      (first.text.toList ++ strung stream around first more) := by
  have hfirst : stream.token? front.length = some first := by simp [h.token?_eq]
  have hsize : stream.size = front.length + 1 + more.length := by
    rw [h.size_eq, List.length_cons]
    omega
  rw [hsize, assembled_add (p := front.length + 1) (Nat.lt_add_one _) hfirst
    (fun j token htoken => ?_) (.inl fun j hj => ?_), assembled_one, Stream.textAt, hfirst,
    List.append_assoc]
  · rfl
  · rw [h.token?_eq, Nat.add_assoc, List.getElem?_append_right (Nat.le_add_right _ _),
      Nat.add_sub_cancel_left, Nat.add_comm, List.getElem?_cons_succ, htoken]
  · rw [Nat.add_assoc]
    exact h.section?_inner (by rw [List.length_cons]; omega)

/-- Behind other tokens they follow with the gap in front of them. -/
theorem assembled_append_of_carried (hi : i < front.length) (hlast : front.getLast? = some last)
    (hline : last.span.line ≠ first.span.line) :
    assembled stream i stream.size = assembled stream i front.length ++
      (sectionGap stream around last.span.stop first.span.start ++
        (first.text.toList ++ strung stream around first more)) := by
  have htoken : stream.token? (front.length - 1) = some last := by
    rw [h.token?_eq, List.getElem?_append_left (by omega), ← List.getLast?_eq_getElem?, hlast]
  rw [h.size_eq, assembled_add hi htoken (fun j token htoken => ?_)
    (.inl fun j hj => h.section?_inner hj), strung, if_neg hline]
  rw [h.token?_eq, List.getElem?_append_right (Nat.le_add_right _ _), Nat.add_sub_cancel_left,
    htoken]

end Carried

/-! ## Sources with a section -/

section Lead

variable {text lead after : List Char}
  (h : Carried (ofSource (continued head header (text :: ls) []))
    (writtenSection head header (text :: ls)) (tokenize head) (first :: more))
  (hstart : first.span.start = byteLength (aboveLines head header) + byteLength lead)
  (hsplit : text = lead ++ after) (hlead : Unbroken lead)

theorem stop_le_of_mem_tokenize (htoken : token ∈ tokenize head) :
    token.span.stop ≤ byteLength head :=
  ((Token.tokenize_ordered head).1 token htoken).stop.le_byteLength

include h hstart hsplit hlead in
/-- In front of text of its own, the section has the start of its first line. -/
theorem sectionIndent_continued (hspaces : ∀ c ∈ lead, isSpaceOrTab c = true) :
    sectionIndent (ofSource (continued head header (text :: ls) [])) (tokenize head).length =
      (Section.Options.ofText header).trimStart lead := by
  set stream := ofSource (continued head header (text :: ls) []) with hstream
  have hfirst : stream.token? (tokenize head).length = some first := by simp [h.token?_eq]
  have hsection := h.section?_inner (i := 0) (Nat.succ_pos _)
  rw [Nat.add_zero] at hsection
  have hprevious : (stream.previous? (tokenize head).length).all
      (·.span.stop ≤ (writtenSection head header (text :: ls)).opening.span.start) = true := by
    cases hlength : (tokenize head).length with
    | zero => rfl
    | succ n =>
      obtain ⟨token, htoken⟩ : ∃ token, (tokenize head)[n]? = some token :=
        ⟨_, List.getElem?_eq_getElem (by omega)⟩
      have hle := stop_le_of_mem_tokenize (List.mem_of_getElem? htoken)
      have hget : stream.previous? (n + 1) = some token := by
        rw [Stream.previous?, h.token?_eq, List.getElem?_append_left (by omega), htoken]
      rw [hget]
      exact decide_eq_true (Nat.le_succ_of_le hle)
  have hline : Source.lineBefore stream.source first.span.start = lead := by
    have hsource : stream.source = aboveLines head header ++
        (lead ++ (after ++ '\n' :: (Text.unlines ls ++ [')']))) := by
      change continued head header (text :: ls) [] = _
      simp [continued, aboveLines, hsplit]
    rw [hsource, hstart, Nat.add_comm,
      Source.lineBefore_before (Stream.endsLine_aboveLines head header), Source.lineBefore,
      Source.takeBytes_byteLength_append, List.takeWhile_eq_self_iff.mpr, List.reverse_reverse]
    intro c hc
    simp [hlead c (List.mem_reverse.mp hc)]
  have hoptions : (writtenSection head header (text :: ls)).options = .ofText header := rfl
  simp only [sectionIndent, hsection, hprevious, Bool.true_and, hoptions, Stream.spanAt_eq hfirst,
    hline, Section.Options.trimStart]
  cases (Section.Options.ofText header).trimLeft with
  | true => simp [List.dropWhile_eq_nil_iff.mpr hspaces]
  | false => rfl

include hstart hsplit hlead in
/-- Behind the line above, the section starts with the start of its first line too. -/
theorem sectionGap_continued (hhead : Unbroken head) (hheader : Unbroken header)
    (hlast : last ∈ tokenize head) :
    sectionGap (ofSource (continued head header (text :: ls) []))
        (writtenSection head header (text :: ls)) last.span.stop first.span.start =
      (Section.Options.ofText header).trimStart lead := by
  obtain ⟨before, rest, hsource, hstop⟩ := ((Token.tokenize_ordered head).1 last hlast).stop
  have hle := stop_le_of_mem_tokenize hlast
  have hslice : Source.slice (ofSource (continued head header (text :: ls) [])).source
      last.span.stop first.span.start = Text.unlines [rest, '(' :: header] ++ lead := by
    have hslice := Source.slice_append before (Text.unlines [rest, '(' :: header] ++ lead)
      (after ++ '\n' :: (Text.unlines ls ++ [')']))
    have hstop' : first.span.start =
        byteLength before + byteLength (Text.unlines [rest, '(' :: header] ++ lead) := by
      rw [hstart, aboveLines, hsource]
      simp [Nat.add_assoc]
    rw [hstop', hstop]
    refine Eq.trans (congrArg (Source.slice · _ _) ?_) hslice
    change continued head header (text :: ls) [] = _
    rw [continued, hsource, hsplit]
    simp
  have hlines : Text.lines (Text.unlines [rest, '(' :: header] ++ lead) =
      [rest, '(' :: header, lead] := by
    rw [Text.lines_unlines_append, Text.lines_of_unbroken hlead]
    · rfl
    · rw [hsource] at hhead
      simp only [List.forall_mem_cons, List.not_mem_nil, false_implies, implies_true, and_true]
      exact ⟨(Token.unbroken_append.mp hhead).2, Token.unbroken_cons.mpr ⟨by decide, hheader⟩⟩
  have hopening : last.span.stop ≤ (writtenSection head header (text :: ls)).opening.span.start :=
    Nat.le_succ_of_le hle
  simp only [sectionGap, hslice, hlines, if_pos hopening]
  rfl

end Lead

/-- From a token of the line above on, its tokens make up the text that they take up. -/
theorem assembled_line {before mid rest : List Char} (h : Continues head header ls)
    (hcarried : Carried (ofSource (continued head header ls [])) around (tokenize head) inner)
    (htokens : tokenize head = front ++ first :: more) (htext : head = before ++ (mid ++ rest))
    (hstart : first.span.start = byteLength before)
    (hstop : (more.getLastD first).span.stop = byteLength before + byteLength mid) :
    assembled (ofSource (continued head header ls [])) front.length (tokenize head).length = mid := by
  set stream := ofSource (continued head header ls []) with hstream
  have hget : ∀ j, stream.token? (front.length + j) = (first :: more ++ inner)[j]? := by
    intro j
    rw [hcarried.token?_eq, htokens, List.append_assoc,
      List.getElem?_append_right (Nat.le_add_right _ _), Nat.add_sub_cancel_left]
  have hfirst : stream.token? front.length = some first := hget 0
  have hline : ∀ token ∈ tokenize head, token.span.line = 0 := fun token =>
    Stream.line_of_mem_tokenize (Text.lineBreaks_eq_zero_iff.mpr h.above)
  obtain ⟨hcut, hordered⟩ := Token.tokenize_ordered (continued head header ls [])
  rw [Stream.tokenize_continued h] at hcut hordered
  have hordered' := ((List.pairwise_append.mp hordered).1.imp And.left)
  rw [htokens] at hline hordered'
  have hmem : ∀ token ∈ first :: more, token ∈ front ++ first :: more :=
    fun token htoken => List.mem_append_right _ htoken
  have hone : ∀ token ∈ more, token.span.line = first.span.line := fun token htoken => by
    rw [hline token (hmem token (List.mem_cons_of_mem _ htoken)),
      hline first (hmem first List.mem_cons_self)]
  have hlength : (tokenize head).length = front.length + 1 + more.length := by
    rw [htokens, List.length_append, List.length_cons]
    omega
  have hindent : sectionIndent stream front.length = [] := by
    simp [sectionIndent, hcarried.section?_front (show front.length < _ by omega)]
  have hslice : Source.slice stream.source (byteLength before)
      (byteLength before + byteLength mid) = mid := by
    change Source.slice (continued head header ls []) _ _ = _
    rw [continued, htext, List.append_assoc, List.append_assoc, Source.slice_append]
  have hstrung : first.text.toList ++ strung stream around first (more ++ []) = _ := strung_append
    (fun token htoken =>
      hcut token (List.mem_append_left _ (by rw [htokens]; exact hmem token htoken)))
    (List.pairwise_append.mp hordered').2.1 hone []
  rw [hlength, assembled_add (p := front.length + 1) (Nat.lt_add_one _) hfirst
    (fun j token htoken => ?_) (.inr hone), assembled_one, hindent, Stream.textAt, hfirst]
  · rw [List.append_nil, hstart, hstop, hslice, strung, List.append_nil] at hstrung
    exact hstrung
  · rw [Nat.add_assoc, hget, Nat.add_comm, List.cons_append, List.getElem?_cons_succ,
      List.getElem?_append_left (List.getElem?_eq_some_iff.mp htoken).1, htoken]

section Continued

variable {text : List Char} (h : Continues head header (text :: ls)) (hhead : Stream.Flat head)
  (hquote : ∀ token ∈ tokenize head, Stream.isOpenQuote token = false)
  (hread : (Section.Options.ofText header).Readable (text :: ls)) (htext : ¬Remains text)
include h hhead hquote hread htext

/-- The first token of the section, and what the tokens from there on make up. -/
theorem exists_carried : ∃ first more lead,
    Carried (ofSource (continued head header (text :: ls) []))
      (writtenSection head header (text :: ls)) (tokenize head) (first :: more) ∧
    first.span.line = 2 ∧
    first.span.start = byteLength (aboveLines head header) + byteLength lead ∧
    (∃ after, text = lead ++ after) ∧ Unbroken lead ∧ (∀ c ∈ lead, isSpaceOrTab c = true) ∧
    (Section.Options.ofText header).trimStart lead ++ (first.text.toList ++
        strung (ofSource (continued head header (text :: ls) []))
          (writtenSection head header (text :: ls)) first more) =
      (Section.Options.ofText header).joinLines
        ((text :: ls).filter (Section.Options.ofText header).keeps) := by
  obtain ⟨first, more, lead, hkept, hline, hstart, ⟨after, hsplit⟩, hspaces, hstrung⟩ :=
    (lines_continued h []).strung_kept hread htext
  have hlead : Unbroken lead := by
    have hunbroken := h.lines text List.mem_cons_self
    rw [hsplit] at hunbroken
    exact (Token.unbroken_append.mp hunbroken).1
  have hcarried := Stream.carried_continued h hhead hquote
  have hinner := filter_rows_eq_kept hread.legible (aboveLines head header) 2
  exact ⟨first, more, lead, by rwa [← hkept, ← hinner], hline, hstart, ⟨after, hsplit⟩, hlead,
    hspaces, hstrung⟩

/-- The text of the section is its lines, trimmed and joined. -/
theorem assembled_continued :
    assembled (ofSource (continued head header (text :: ls) [])) (tokenize head).length
        (ofSource (continued head header (text :: ls) [])).size =
      (Section.Options.ofText header).joinLines
        ((text :: ls).filter (Section.Options.ofText header).keeps) := by
  obtain ⟨first, more, lead, hcarried, -, hstart, ⟨after, hsplit⟩, hlead, hspaces, hstrung⟩ :=
    exists_carried h hhead hquote hread htext
  rw [assembled_of_carried hcarried, sectionIndent_continued hcarried hstart hsplit hlead
    hspaces, hstrung]

/-- Behind other text of the line above, the section adds the same. -/
theorem assembled_append_continued (hi : i < (tokenize head).length) :
    assembled (ofSource (continued head header (text :: ls) [])) i
        (ofSource (continued head header (text :: ls) [])).size =
      assembled (ofSource (continued head header (text :: ls) [])) i (tokenize head).length ++
        (Section.Options.ofText header).joinLines
          ((text :: ls).filter (Section.Options.ofText header).keeps) := by
  obtain ⟨first, more, lead, hcarried, hline, hstart, ⟨after, hsplit⟩, hlead, -, hstrung⟩ :=
    exists_carried h hhead hquote hread htext
  have hne : tokenize head ≠ [] := List.ne_nil_of_length_pos (Nat.zero_lt_of_lt hi)
  have hlast := List.getLast?_eq_some_getLast hne
  have hmem := List.getLast_mem hne
  have hlast' : ((tokenize head).getLast hne).span.line = 0 :=
    Stream.line_of_mem_tokenize (Text.lineBreaks_eq_zero_iff.mpr h.above) hmem
  rw [assembled_append_of_carried hcarried hi hlast (by omega), sectionGap_continued hstart hsplit
    hlead h.above h.options hmem, hstrung]

end Continued

end HotkeyScript.Grammar
