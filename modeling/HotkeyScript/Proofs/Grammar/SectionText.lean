import HotkeyScript.Proofs.Grammar.PlainText
import HotkeyScript.Proofs.Token.Row

/-!
# The text of a section

Literal text is put together from the tokens of a section and the gaps between them, while the
options of the section say what becomes of its lines. The two agree: the gap inside a line is a part
of the line, and a gap over line breaks has the end of one line and the start of another, with the
lines between them that have no tokens. So the tokens give the lines, trimmed and joined. A line
that is only a comment is not one of them.

## Main definitions

* `Section.Options.Legible` — the lexer and the options take the same for the comment of a line.
* `Section.Options.keeps` — the line is part of the text.
* `Grammar.strung` — the text of tokens of a section behind another token.
-/

namespace HotkeyScript

open Source (byteLength)
open Text (PlainBlanks Unbroken isBlank isSpaceOrTab)
open Token (Frame Remains Row Cut rows scan)

/-! ## Lines -/

namespace Section

variable {options : Options} {text lead mid rest : List Char} {offset : Nat} {first last : Token}

/-- A line that is not blank and not only a comment is no comment. -/
theorem isCommentLine_of_frame (hframe : Frame true offset text first last lead mid rest) :
    isCommentLine text = false := by
  obtain ⟨c, hc, hblank⟩ := hframe.tight.head
  obtain ⟨more, hmore⟩ := List.head?_eq_some_iff.mp hc
  have hne : c ≠ ';' := by
    rintro rfl
    cases (hframe.opens hc).1
  have htrim : Text.trimStart text = mid ++ rest := by
    rw [hframe.text_eq, Text.trimStart, List.dropWhile_append_of_pos hframe.blank, hmore,
      List.cons_append, List.dropWhile_cons_of_neg (by simp [hblank])]
  simp [isCommentLine, htrim, hmore, hne]

namespace Options

/-- The line is part of the text of a section. -/
def keeps (options : Options) (line : List Char) : Bool :=
  !(options.comments && isCommentLine line)

/-- The line starts with spaces and tabs, and it has no comments, or they are left out and there is
nothing on it that hides where they start. -/
structure Legible (options : Options) (line : List Char) : Prop where
  unbroken : Unbroken line
  lead : ∀ c ∈ line.takeWhile isBlank, isSpaceOrTab c = true
  comments : options.comments = false ∧ ';' ∉ line ∨
    options.comments = true ∧ options.trimRight = true ∧ '"' ∉ line ∧ PlainBlanks line

/-- No blanks are left at the end of the line. -/
def Settles (options : Options) (line : List Char) : Prop :=
  options.trimRight = true ∧ PlainBlanks line ∨ ∀ c ∈ line.getLast?, isBlank c = false

/-- The lines can be read, and the last one has a token and ends with it. -/
structure Readable (options : Options) (ls : List (List Char)) : Prop where
  legible : ∀ line ∈ ls, options.Legible line
  last : ∀ line ∈ ls.getLast?, ¬Remains line ∧ options.Settles line

theorem Readable.tail {ls : List (List Char)} (h : options.Readable (text :: ls)) :
    options.Readable ls := by
  refine ⟨fun line hline => h.legible line (List.mem_cons_of_mem _ hline), fun line hline => ?_⟩
  refine h.last line ?_
  rw [List.getLast?_cons, show ls.getLast? = some line from hline]
  rfl

theorem trimEnd_eq_nil (htrim : options.trimRight = true)
    (h : ∀ c ∈ text, isSpaceOrTab c = true) : options.trimEnd text = [] := by
  rw [trimEnd, if_pos htrim, Text.trimEndWhile_of_all h]

@[simp] theorem trimEnd_nil : options.trimEnd [] = [] := by
  unfold trimEnd
  split <;> rfl

/-- In front of a comment there are only blanks if there are only blanks and a comment. -/
theorem isSpaceOrTab_of_mem_beforeComment (hremains : Remains text) (hhead : text.head? ≠ some ';')
    (hblanks : PlainBlanks text) :
    ∀ c ∈ beforeComment text, isSpaceOrTab c = true := by
  have hfirst : ∀ c cs, text = c :: cs → isBlank c = true := by
    rintro c cs rfl
    by_contra hblank
    exact hhead (congrArg some (hremains.of_not_isBlank (by simpa using hblank)))
  fun_induction beforeComment text with
  | case1 c cs hc => exact List.forall_mem_nil _
  | case2 c cs hc ih => exact absurd (hblanks c List.mem_cons_self (hfirst c _ rfl)) hc
  | case3 c cs hne ih =>
    have hc := hfirst c cs rfl
    have hremains' := (Token.remains_cons_of_isBlank hc).mp hremains
    have hhead' : cs.head? ≠ some ';' := by
      intro hhead'
      obtain ⟨more, rfl⟩ := List.head?_eq_some_iff.mp hhead'
      exact hne more rfl
    refine List.forall_mem_cons.mpr ⟨hblanks c List.mem_cons_self hc, ih hremains' hhead'
      (fun d hd => hblanks d (List.mem_cons_of_mem _ hd)) ?_⟩
    rintro d ds rfl
    by_contra hblank
    exact hhead' (congrArg some (hremains'.of_not_isBlank (by simpa using hblank)))
  | case4 => exact List.forall_mem_nil _

/-- A line with tokens is part of the text. -/
theorem keeps_of_frame (hframe : Frame true offset text first last lead mid rest) :
    options.keeps text = true := by
  simp [keeps, isCommentLine_of_frame hframe]

section Framed

variable (hlegible : options.Legible text)
  (hframe : Frame true offset text first last lead mid rest)
include hlegible hframe

theorem Legible.isSpaceOrTab_lead : ∀ c ∈ lead, isSpaceOrTab c = true := by
  intro c hc
  refine hlegible.lead c ?_
  rw [hframe.text_eq, List.takeWhile_append_of_pos hframe.blank]
  exact List.mem_append_left _ hc

/-- With comments left out, nothing is left behind the tokens of a line. -/
theorem Legible.trimEnd_stripComment_of_comments (hcomments : options.comments = true) :
    options.trimEnd (beforeComment rest) = [] ∧
      options.trimEnd (options.stripComment rest) = [] := by
  obtain ⟨hfalse, -⟩ | ⟨-, htrim, -, hblanks⟩ := hlegible.comments
  · cases hfalse.symm.trans hcomments
  have hspaces := isSpaceOrTab_of_mem_beforeComment hframe.remains hframe.closes
    fun c hc => hblanks c (by simp [hframe.text_eq, hc])
  refine ⟨trimEnd_eq_nil htrim hspaces, ?_⟩
  rw [stripComment, if_pos hcomments, Section.stripComment]
  split
  · exact trimEnd_nil
  · exact trimEnd_eq_nil htrim hspaces

/-- The tokens of a line stay, and what is in front of them and behind them is trimmed. -/
theorem Legible.trimLine_of_frame : options.trimLine text =
    options.trimStart lead ++ (mid ++ options.trimEnd (options.stripComment rest)) := by
  have hlead := hlegible.isSpaceOrTab_lead hframe
  cases hcomments : options.comments with
  | false =>
    have hstrip : ∀ line, options.stripComment line = line := by simp [stripComment, hcomments]
    rw [trimLine, hstrip, hstrip, hframe.text_eq, trimEnd_trimStart hlead hframe.tight]
  | true =>
    obtain ⟨hfalse, -⟩ | ⟨-, -, hquote, -⟩ := hlegible.comments
    · cases hfalse.symm.trans hcomments
    obtain ⟨hbefore, hstripped⟩ := hlegible.trimEnd_stripComment_of_comments hframe hcomments
    have hstrip : options.stripComment text = lead ++ (mid ++ beforeComment rest) := by
      rw [stripComment, if_pos hcomments, Section.stripComment,
        if_neg (by simp [isCommentLine_of_frame hframe]), hframe.text_eq, ← List.append_assoc,
        beforeComment_append, List.append_assoc]
      · exact hframe.joined fun hmem => hquote (by simp [hframe.text_eq, hmem])
      · intro c hc d _ _
        obtain ⟨e, he, hblank⟩ := hframe.tight.last
        rw [List.getLast?_append, he] at hc
        cases hc
        exact Text.isSpaceOrTab_of_not_isBlank hblank
    rw [trimLine, hstrip, trimEnd_trimStart hlead hframe.tight, hbefore, hstripped]

theorem Legible.trimEnd_stripComment (hsettles : options.Settles text) :
    options.trimEnd (options.stripComment rest) = [] := by
  cases hcomments : options.comments with
  | true => exact (hlegible.trimEnd_stripComment_of_comments hframe hcomments).2
  | false =>
    obtain ⟨-, hsemicolon⟩ | ⟨htrue, -⟩ := hlegible.comments
    · have hblank := hframe.remains.isBlank fun hmem => hsemicolon (by simp [hframe.text_eq, hmem])
      rw [show options.stripComment rest = rest by simp [stripComment, hcomments]]
      obtain ⟨htrim, hspaces⟩ | hlast := hsettles
      · exact trimEnd_eq_nil htrim fun c hc =>
          hspaces c (by simp [hframe.text_eq, hc]) (hblank c hc)
      · cases hrest : rest.getLast? with
        | none => rw [List.getLast?_eq_none_iff.mp hrest, trimEnd_nil]
        | some c =>
          -- the last character of the line is a blank
          have hend : text.getLast? = some c := by
            rw [hframe.text_eq, List.getLast?_append, List.getLast?_append, hrest]
            rfl
          cases (hblank c (List.mem_of_getLast? hrest)).symm.trans (hlast c hend)
    · cases htrue.symm.trans hcomments

end Framed

end Options

end Section

/-! ## Tokens -/

namespace Grammar

variable {stream : Stream} {around : Section} {token last : Token} {tokens later : List Token}

/-- The text of tokens of a section behind another token: each with the gap in front of it. -/
def strung (stream : Stream) (around : Section) (last : Token) : List Token → List Char
  | [] => []
  | token :: tokens =>
    (if last.span.line = token.span.line then
      Source.slice stream.source last.span.stop token.span.start
    else sectionGap stream around last.span.stop token.span.start) ++
      (token.text.toList ++ strung stream around token tokens)

theorem assembled_one (stream : Stream) (i : Nat) :
    assembled stream i (i + 1) = sectionIndent stream i ++ stream.textAt i := by
  simp [assembled]

/-- Tokens of a section, or of one line, add what they string together. -/
theorem assembled_add {i p : Nat} (hlt : i < p) (hlast : stream.token? (p - 1) = some last)
    (htokens : ∀ j token, tokens[j]? = some token → stream.token? (p + j) = some token)
    (hsection : (∀ j < tokens.length, stream.section? (p + j) = some around) ∨
      ∀ token ∈ tokens, token.span.line = last.span.line) :
    assembled stream i (p + tokens.length) =
      assembled stream i p ++ strung stream around last tokens := by
  induction tokens generalizing p last with
  | nil => simp [strung]
  | cons token tokens ih =>
    have htoken : stream.token? p = some token := htokens 0 token rfl
    have hgap : gap stream p = if last.span.line = token.span.line then
        Source.slice stream.source last.span.stop token.span.start
        else sectionGap stream around last.span.stop token.span.start := by
      rw [gap, Stream.spanAt_eq hlast, Stream.spanAt_eq htoken]
      rcases hsection with hsection | hline
      · simp [show stream.section? p = some around from hsection 0 (by simp)]
      · simp [hline token List.mem_cons_self]
    have hrest := ih (p := p + 1) (by omega) (show stream.token? (p + 1 - 1) = some token from htoken)
      (fun j next hnext => by
        have := htokens (j + 1) next (by simpa using hnext)
        rwa [← Nat.add_assoc, Nat.add_right_comm] at this)
      (hsection.imp (fun hsection j hj => by
          have := hsection (j + 1) (by simpa using hj)
          rwa [← Nat.add_assoc, Nat.add_right_comm] at this)
        fun hline next hnext => (hline next (List.mem_cons_of_mem _ hnext)).trans
          (hline token List.mem_cons_self).symm)
    have htext : stream.textAt p = token.text.toList := by simp [Stream.textAt, htoken]
    have hlength : p + (token :: tokens).length = p + 1 + tokens.length := by
      rw [List.length_cons]
      omega
    rw [hlength, hrest, assembled_succ hlt, hgap, htext, strung]
    simp only [List.append_assoc]

/-- On one line the gaps are parts of the line, and so are the tokens. -/
theorem strung_append (hcut : ∀ token ∈ last :: tokens, Cut stream.source token)
    (hordered : (last :: tokens).Pairwise fun token next => token.span.stop ≤ next.span.start)
    (hline : ∀ token ∈ tokens, token.span.line = last.span.line) (later : List Token) :
    last.text.toList ++ strung stream around last (tokens ++ later) =
      Source.slice stream.source last.span.start (tokens.getLastD last).span.stop ++
        strung stream around (tokens.getLastD last) later := by
  induction tokens generalizing last with
  | nil =>
    rw [List.nil_append, List.getLastD_nil, (hcut last List.mem_cons_self).text,
      String.toList_ofList]
  | cons token tokens ih =>
    obtain ⟨hlast, hcut⟩ := List.forall_mem_cons.mp hcut
    obtain ⟨hbehind, hordered⟩ := List.pairwise_cons.mp hordered
    obtain ⟨htoken, hline⟩ := List.forall_mem_cons.mp hline
    have hrest := ih hcut hordered fun next hnext => (hline next hnext).trans htoken.symm
    have hend : ∀ next ∈ token :: tokens, token.span.start ≤ next.span.stop := by
      intro next hnext
      have hlt := (hcut next hnext).lt
      rcases List.mem_cons.mp hnext with rfl | hnext
      · omega
      · have := (List.pairwise_cons.mp hordered).1 next hnext
        have := (hcut token List.mem_cons_self).lt
        omega
    have hmem : tokens.getLastD token ∈ token :: tokens := List.getLastD_mem_cons
    have hle := hbehind token List.mem_cons_self
    have hcut' := hcut token List.mem_cons_self
    rw [List.cons_append, strung, if_pos htoken.symm, hrest, List.getLastD_cons, hlast.text,
      String.toList_ofList, ← List.append_assoc, ← List.append_assoc, List.append_assoc _ _
        (Source.slice _ _ _)]
    rw [Source.slice_append_slice hlast.stop hcut'.start (hcut _ hmem).stop hle (hend _ hmem),
      Source.slice_append_slice hlast.start hlast.stop (hcut _ hmem).stop (Nat.le_of_lt hlast.lt)
        (Nat.le_trans hle (hend _ hmem))]

/-- A gap inside a section over the end of a line, lines without tokens and the start of a line. -/
theorem sectionGap_lines {start stop : Nat} {rest lead : List Char} {skipped : List (List Char)}
    (hslice : Source.slice stream.source start stop =
      rest ++ '\n' :: (Text.unlines skipped ++ lead))
    (hrest : Unbroken rest) (hskipped : ∀ text ∈ skipped, Unbroken text) (hlead : Unbroken lead)
    (hopening : around.opening.span.start < start) (hclosing : stop < around.closing.span.stop) :
    sectionGap stream around start stop =
      around.options.trimEnd (around.options.stripComment rest) ++
        ((skipped.filter around.options.keeps).flatMap (fun text =>
          around.options.separator.toList ++ around.options.trimLine text) ++
            (around.options.separator.toList ++ around.options.trimStart lead)) := by
  have hlines : Text.lines (rest ++ '\n' :: (Text.unlines skipped ++ lead)) =
      rest :: (skipped ++ [lead]) := by
    rw [Text.lines_line_append hrest, Text.lines_unlines_append hskipped,
      Text.lines_of_unbroken hlead]
  have hlast : (rest :: (skipped ++ [lead])).getLastD [] = lead := by
    rw [List.getLastD_cons, List.getLastD_concat]
  simp only [sectionGap, hslice, hlines, hlast, List.headD_cons, List.drop_succ_cons,
    List.drop_zero, List.dropLast_concat]
  rw [if_neg (by omega), if_neg (by omega)]
  simp only [List.append_assoc]
  rfl

/-! ## Line by line -/

/-- The tokens of lines below each other that are no comments. -/
def kept (before : List Char) (line : Nat) (ls : List (List Char)) : List Token :=
  (rows (byteLength before) line ls).filter (·.kind != .comment)

/-- Lines of a section that the source has behind `before`. -/
structure Lines (stream : Stream) (around : Section) (before : List Char) (line : Nat)
    (ls : List (List Char)) : Prop where
  source : ∃ after, stream.source = before ++ (Text.unlines ls ++ after)
  opening : around.opening.span.start < byteLength before
  closing : byteLength (before ++ Text.unlines ls) < around.closing.span.stop
  cut : ∀ token ∈ rows (byteLength before) line ls, Cut stream.source token
  ordered : (rows (byteLength before) line ls).Pairwise fun token next =>
    token.span.stop ≤ next.span.start

/-- The text before some lines ends in a token, the rest of its line, and lines without tokens. -/
structure Gap (around : Section) (before : List Char) (line : Nat) (last : Token)
    (rest : List Char) (skipped : List (List Char)) : Prop where
  source : ∃ front, before = front ++ (rest ++ '\n' :: Text.unlines skipped) ∧
    byteLength front = last.span.stop
  opening : around.opening.span.start < last.span.stop
  line : last.span.line < line
  rest : Unbroken rest
  skipped : ∀ text ∈ skipped, Unbroken text

section Steps

variable {before text lead mid rest rest' : List Char} {ls skipped : List (List Char)} {line : Nat}
  {first : Token} {more : List Token}

theorem byteLength_append_line (before text : List Char) :
    byteLength (before ++ (text ++ ['\n'])) = byteLength before + byteLength text + 1 := by
  simp [Nat.add_assoc, show '\n'.utf8Size = 1 from rfl]

theorem kept_cons (before : List Char) (line : Nat) (text : List Char) (ls : List (List Char)) :
    kept before line (text :: ls) =
      (scan false (.atLine (byteLength before) line) text).filter (·.kind != .comment) ++
        kept (before ++ (text ++ ['\n'])) (line + 1) ls := by
  rw [kept, rows, List.filter_append, kept, byteLength_append_line]

theorem Lines.tail (h : Lines stream around before line (text :: ls)) :
    Lines stream around (before ++ (text ++ ['\n'])) (line + 1) ls := by
  obtain ⟨⟨after, hsource⟩, hopening, hclosing, hcut, hordered⟩ := h
  refine ⟨⟨after, by simp [hsource]⟩, ?_, by simpa using hclosing, ?_, ?_⟩
  · rw [byteLength_append_line]
    omega
  · rw [byteLength_append_line]
    exact (List.forall_mem_append.mp hcut).2
  · rw [byteLength_append_line]
    exact (List.pairwise_append.mp hordered).2.1

/-- A line without tokens makes the gap longer. -/
theorem Gap.skip (h : Gap around before line last rest skipped) (htext : Unbroken text) :
    Gap around (before ++ (text ++ ['\n'])) (line + 1) last rest (skipped ++ [text]) := by
  obtain ⟨⟨front, hbefore, hfront⟩, hopening, hline, hrest, hskipped⟩ := h
  exact ⟨⟨front, by simp [hbefore], hfront⟩, hopening, by omega, hrest,
    List.forall_mem_append.mpr ⟨hskipped, by simpa using htext⟩⟩

section Framed

variable (hlines : Lines stream around before line (text :: ls))
  (hrow : Row line true (byteLength before) text (first :: more))
  (hkept : (scan false (.atLine (byteLength before) line) text).filter (·.kind != .comment) =
    first :: more)
  (hframe : Frame true (byteLength before) text first (more.getLastD first) lead mid rest')

include hlines hrow hframe in
/-- Behind the last token of a line a new gap starts. -/
theorem Gap.of_frame (htext : Unbroken text) :
    Gap around (before ++ (text ++ ['\n'])) (line + 1) (more.getLastD first) rest' [] := by
  have hlast : more.getLastD first ∈ first :: more := List.getLastD_mem_cons
  refine ⟨⟨before ++ (lead ++ mid), by simp [hframe.text_eq], ?_⟩, ?_, ?_, ?_,
    List.forall_mem_nil _⟩
  · rw [hframe.stop]
    simp [Nat.add_assoc]
  · have := hframe.stop
    have := hlines.opening
    omega
  · rw [hrow.line_eq _ hlast]
    exact Nat.lt_succ_self line
  · rw [hframe.text_eq] at htext
    exact (Token.unbroken_append.mp (Token.unbroken_append.mp htext).2).2

include hlines hrow hkept hframe in
/-- The tokens of a line string together its middle. -/
theorem Lines.strung_eq (later : List Token) :
    first.text.toList ++ strung stream around first (more ++ later) =
      mid ++ strung stream around (more.getLastD first) later := by
  obtain ⟨after, hsource⟩ := hlines.source
  have hmem : ∀ token ∈ first :: more, token ∈ rows (byteLength before) line (text :: ls) := by
    intro token htoken
    rw [← hkept] at htoken
    exact List.mem_append_left _ (List.mem_of_mem_filter htoken)
  have hordered := (List.pairwise_append.mp hlines.ordered).1.filter (·.kind != .comment)
  rw [hkept] at hordered
  have hline := hrow.line_eq
  have hmid : Source.slice stream.source first.span.start (more.getLastD first).span.stop = mid := by
    rw [hsource, hframe.start, hframe.stop, ← Source.byteLength_append, Text.unlines_cons,
      hframe.text_eq]
    simp only [List.append_assoc]
    rw [← List.append_assoc, Source.slice_append]
  rw [strung_append (fun token htoken => hlines.cut token (hmem token htoken)) hordered
    (fun token htoken => by rw [hline token (List.mem_cons_of_mem _ htoken),
      hline first List.mem_cons_self]), hmid]

include hlines hrow hkept hframe in
/-- From the start of a line on, its tokens and those below string together the line, trimmed, and
what the others add behind it. -/
theorem Lines.trimStart_append_strung (hlegible : around.options.Legible text) {below : List Token}
    {joined : List Char} (hbelow : strung stream around (more.getLastD first) below =
      around.options.trimEnd (around.options.stripComment rest') ++ joined) :
    around.options.trimStart lead ++
        (first.text.toList ++ strung stream around first (more ++ below)) =
      around.options.trimLine text ++ joined := by
  rw [hlines.strung_eq hrow hkept hframe, hbelow, hlegible.trimLine_of_frame hframe]
  simp only [List.append_assoc]

include hlines hframe in
/-- The gap in front of the first token of a line. -/
theorem Gap.sectionGap_eq (hgap : Gap around before line last rest skipped)
    (htext : Unbroken text) :
    sectionGap stream around last.span.stop first.span.start =
      around.options.trimEnd (around.options.stripComment rest) ++
        ((skipped.filter around.options.keeps).flatMap (fun text =>
          around.options.separator.toList ++ around.options.trimLine text) ++
            (around.options.separator.toList ++ around.options.trimStart lead)) := by
  obtain ⟨after, hsource⟩ := hlines.source
  obtain ⟨⟨front, hbefore, hfront⟩, hopening, hline, hrest, hskipped⟩ := hgap
  have hslice : Source.slice stream.source last.span.stop first.span.start =
      rest ++ '\n' :: (Text.unlines skipped ++ lead) := by
    rw [hframe.start, hsource, hbefore, ← hfront, Text.unlines_cons, hframe.text_eq]
    have := Source.slice_append front (rest ++ '\n' :: (Text.unlines skipped ++ lead))
      (mid ++ (rest' ++ '\n' :: (Text.unlines ls ++ after)))
    simpa [Nat.add_assoc, Nat.add_left_comm, Nat.add_comm] using this
  refine sectionGap_lines hslice hrest hskipped ?_ hopening ?_
  · rw [hframe.text_eq] at htext
    exact (Token.unbroken_append.mp htext).1
  · have := hlines.closing
    rw [hframe.start]
    rw [Source.byteLength_append, Text.unlines_cons, hframe.text_eq] at this
    simp only [Source.byteLength_append] at this
    omega

end Framed

/-- Behind a token the lines of a section follow, trimmed and joined: first what is left of the line
of the token, then the lines without tokens, then all others. -/
theorem Gap.strung_kept (hgap : Gap around before line last rest skipped)
    (hlines : Lines stream around before line ls) (hread : around.options.Readable ls)
    (hend : ls = [] →
      skipped = [] ∧ around.options.trimEnd (around.options.stripComment rest) = []) :
    strung stream around last (kept before line ls) =
      around.options.trimEnd (around.options.stripComment rest) ++
        ((skipped ++ ls).filter around.options.keeps).flatMap fun text =>
          around.options.separator.toList ++ around.options.trimLine text := by
  induction ls generalizing before line last rest skipped with
  | nil =>
    obtain ⟨rfl, htrim⟩ := hend rfl
    simp [kept, rows, strung, htrim]
  | cons text ls ih =>
    have hlegible := hread.legible text List.mem_cons_self
    have hrow := Token.scan_row_atLine (byteLength before) line hlegible.unbroken
    rw [kept_cons]
    cases hkept : (scan false (.atLine (byteLength before) line) text).filter
      (·.kind != .comment) with
    | nil =>
      -- the line has no tokens, so it is not the last one
      rw [hkept] at hrow
      have hne : ls ≠ [] := by
        rintro rfl
        exact (hread.last text rfl).1 hrow.remains
      rw [List.nil_append, List.append_cons skipped text ls]
      exact ih (hgap.skip hlegible.unbroken) hlines.tail hread.tail fun hnil => absurd hnil hne
    | cons first more =>
      rw [hkept] at hrow
      obtain ⟨lead, mid, rest', hframe⟩ := hrow.exists_frame
      have hrest := ih (Gap.of_frame hlines hrow hframe hlegible.unbroken) hlines.tail hread.tail
        (by
          rintro rfl
          exact ⟨rfl, hlegible.trimEnd_stripComment hframe (hread.last text rfl).2⟩)
      rw [List.nil_append] at hrest
      have hline : last.span.line ≠ first.span.line := by
        rw [hrow.line_eq first List.mem_cons_self]
        exact Nat.ne_of_lt hgap.line
      have hstrung := hlines.trimStart_append_strung hrow hkept hframe hlegible hrest
      rw [List.cons_append, strung, if_neg hline,
        hgap.sectionGap_eq hlines hframe hlegible.unbroken, List.filter_append,
        List.filter_cons_of_pos (Section.Options.keeps_of_frame hframe), List.flatMap_append,
        List.flatMap_cons]
      simp only [List.append_assoc, hstrung]

/-- From a line with a token on, the tokens of a section string together its lines, trimmed and
joined. -/
theorem Lines.strung_kept (hlines : Lines stream around before line (text :: ls))
    (hread : around.options.Readable (text :: ls)) (htext : ¬Remains text) :
    ∃ first more lead, kept before line (text :: ls) = first :: more ∧
      first.span.line = line ∧ first.span.start = byteLength before + byteLength lead ∧
      (∃ after, text = lead ++ after) ∧ (∀ c ∈ lead, isSpaceOrTab c = true) ∧
      around.options.trimStart lead ++ (first.text.toList ++ strung stream around first more) =
        around.options.joinLines ((text :: ls).filter around.options.keeps) := by
  have hlegible := hread.legible text List.mem_cons_self
  have hrow := Token.scan_row_atLine (byteLength before) line hlegible.unbroken
  cases hkept : (scan false (.atLine (byteLength before) line) text).filter
    (·.kind != .comment) with
  | nil =>
    rw [hkept] at hrow
    exact absurd hrow.remains htext
  | cons first more =>
    rw [hkept] at hrow
    obtain ⟨lead, mid, rest, hframe⟩ := hrow.exists_frame
    have hrest := (Gap.of_frame hlines hrow hframe hlegible.unbroken).strung_kept hlines.tail
      hread.tail (by
        rintro rfl
        exact ⟨rfl, hlegible.trimEnd_stripComment hframe (hread.last text rfl).2⟩)
    rw [List.nil_append] at hrest
    refine ⟨first, more ++ kept (before ++ (text ++ ['\n'])) (line + 1) ls, lead, ?_,
      hrow.line_eq first List.mem_cons_self, hframe.start, ⟨_, hframe.text_eq⟩,
      hlegible.isSpaceOrTab_lead hframe, ?_⟩
    · rw [kept_cons, hkept, List.cons_append]
    · rw [hlines.trimStart_append_strung hrow hkept hframe hlegible hrest,
        List.filter_cons_of_pos (Section.Options.keeps_of_frame hframe),
        Section.Options.joinLines_cons]

end Steps

end Grammar

end HotkeyScript
