import HotkeyScript.Proofs.Grammar.StatementEquation
import HotkeyScript.Proofs.InBounds.Stream
import HotkeyScript.Proofs.Spans
import HotkeyScript.Proofs.Stream.Sections

/-!
# The grammar reads within bounds

The rules of the grammar ask what token stands at a position and never fail to get an answer, but a
few of them go further: they look up the mark and the section of a token by its index, they cut out
the tokens on one side of a position, and they cut texts out of the source between the places of
tokens. Those are the rules of this module, with every index and every slice checked. In the stream
of a source none of the checks fails, at whatever position the rules stand.

Three kinds of accesses have no check, since they cannot be made where they would fail. The token at
a position is looked up only behind a comparison of the position with the number of tokens, which is
what `Stream.token?` does. The tokens that are searched for a double colon are taken two by two, and
each pair has two. The name of a numbered key is split into the two groups of the pattern that it
has been matched with, and both take part in every match.

## Main definitions

* `InBounds.sectionAt` — the section of a token.
* `InBounds.continues` — the logical lines.
* `InBounds.sectionIndent`, `InBounds.gap`, `InBounds.assemble`, `InBounds.legacyText` — literal
  text.
* `InBounds.label`, `InBounds.hotstringHead`, `InBounds.literalValue` — labels, hotstrings and
  literals.
* `InBounds.Accessible` — no access of the rules to a stream fails.

## Main results

* `accesses_in_bounds` — the lexer, the pass and the rules never read out of bounds.
-/

namespace HotkeyScript.InBounds

open Grammar (Read Checked absent found)
open Source (IsBoundary byteLength)
open Token (Cut)

/-! ## Sections -/

/-- The continuation section that the token at a position lies in. The token and the section have to
be there. -/
def sectionAt (stream : Stream) (position : Nat) : Option (Option Section) := do
  let item ← stream.items[position]?
  match item.inSection with
  | none => return none
  | some index =>
    let around ← stream.sections[index]?
    return some around

/-! ## Logical lines -/

/-- Two adjacent colons stand on the physical line with which the items begin. -/
def doubleColonOnLine (line : Nat) : List Stream.Item → Bool
  | first :: second :: rest =>
    first.token.span.line == line &&
      (first.token.text == ":" && second.token.text == ":" && first.token.touches second.token ||
        doubleColonOnLine line (second :: rest))
  | _ => false

/-- The token at a position carries on the logical line before it. The mark of the token is looked
up, and the tokens from there on are cut out. -/
def continues (stream : Stream) (position : Nat) : Option Bool :=
  if position < stream.size then do
    let item ← stream.items[position]?
    if !item.startsLine || item.inSection.isSome then
      return true
    if Stream.isContinuationOperator item.token then
      let tail ← segment stream.items.toList position stream.size
      return !doubleColonOnLine item.token.span.line tail
    return false
  else some false

/-! ## Literal text -/

/-- The token before a position ends before the section starts, if there is one. -/
def opensSection (stream : Stream) (around : Section) : Nat → Option Bool
  | 0 => some true
  | position + 1 => do
    let before ← stream.items[position]?
    return decide (before.token.span.stop ≤ around.opening.span.start)

/-- The indentation in front of a token that is the first of a continuation section. -/
def sectionIndent (stream : Stream) (position : Nat) : Option (List Char) := do
  match ← sectionAt stream position with
  | none => return []
  | some around =>
    let item ← stream.items[position]?
    let opens ← opensSection stream around position
    if opens && !around.options.trimLeft then
      let start ← lineStart stream.source item.token.span.start
      slice stream.source start item.token.span.start
    else
      return []

/-- The text between two tokens on different lines that a section joins. -/
def sectionGap (stream : Stream) (around : Section) (start stop : Nat) : Option (List Char) := do
  let options := around.options
  let text ← slice stream.source start stop
  let lines ← lines text
  let first ← dropComment options (lines.headD [])
  let trailing := options.trimEnd first
  let leading := options.trimStart (lines.getLastD [])
  if start ≤ around.opening.span.start then
    return leading
  else if around.closing.span.stop ≤ stop then
    let after ← slice stream.source around.closing.span.stop stop
    return trailing ++ after
  else
    let separator := options.separator.toList
    let kept := (lines.drop 1).dropLast.filter fun line =>
      !(options.comments && Section.isCommentLine line)
    let trimmed ← kept.mapM (trimLine options)
    return trailing ++ (trimmed.flatMap fun line => separator ++ line) ++ separator ++ leading

/-- The text between the token behind a position and the one at it. -/
def gap (stream : Stream) (position : Nat) : Option (List Char) := do
  let before ← stream.items[position]?
  let item ← stream.items[position + 1]?
  let text ← slice stream.source before.token.span.stop item.token.span.start
  if before.token.span.line = item.token.span.line then
    return text
  else
    let here ← sectionAt stream (position + 1)
    let there ← sectionAt stream position
    match here.or there with
    | none => return [' ']
    | some around => sectionGap stream around before.token.span.stop item.token.span.start

/-- The text of the token at a position with what stands in front of it, in a text that starts with
the token at `first`. -/
def piece (stream : Stream) (first position : Nat) : Option (List Char) := do
  let lead ← if position = first then sectionIndent stream position else gap stream (position - 1)
  let item ← stream.items[position]?
  return lead ++ item.token.text.toList

/-- The text of the tokens from `first` up to, and without, `stop`, with its escapes. -/
def assembled (stream : Stream) (first stop : Nat) : Option (List Char) := do
  let pieces ← (List.range' first (stop - first)).mapM (piece stream first)
  return pieces.flatten

/-- The tokens from `first` up to, and without, `stop` as literal text. -/
def assemble (stream : Stream) (first stop : Nat) : Option LegacyLiteral := do
  let text ← assembled stream first stop
  let sections ← (List.range' first (stop - first)).mapM (sectionAt stream)
  let start ← stream.items[first]?
  let last ← stream.items[stop - 1]?
  let raw ← slice stream.source start.token.span.start last.token.span.stop
  return {
    value := String.ofList
      (if sections.any (·.any (·.options.literalAccent)) then text else Text.unescape text)
    raw := String.ofList raw
    span := start.token.span.to last.token.span.stop }

/-- The literal text from a position to the end of its logical line. -/
def legacyText (stream : Stream) (halt : Nat → Bool) (position : Nat) :
    Option (Option (Read LegacyLiteral)) :=
  let stop := stream.skip (fun i => stream.continues i && !halt i) position
  if stop = position then some none
  else do
    let text ← assemble stream position stop
    return some (text, stop)

/-! ## Delimiters -/

/-- The number of accents directly in front of a token. The items before it come latest first. -/
def accentsAbove (token : Token) : List Stream.Item → Nat
  | [] => 0
  | before :: items =>
    if before.token.text == "\x60" && before.token.touches token then
      accentsAbove before.token items + 1
    else 0

/-- The number of accents directly in front of the token at a position. The tokens up to there are
cut out. -/
def accentsBefore (stream : Stream) (position : Nat) : Option Nat := do
  let item ← stream.items[position]?
  let front ← segment stream.items.toList 0 position
  return accentsAbove item.token front.reverse

/-- A comma that separates parameters stands at a position. -/
def isDelimiter (stream : Stream) (position : Nat) : Option Bool := do
  let carriesOn ← continues stream position
  if carriesOn && stream.reads position "," then
    let around ← sectionAt stream position
    if around.any (·.options.literalComma) then return false
    else if around.any (·.options.literalAccent) then return true
    else
      let accents ← accentsBefore stream position
      return !(accents % 2 == 1)
  else return false

/-! ## Labels and hotstrings -/

/-- A label, alone on its line. -/
def label (stream : Stream) (position : Nat) : Option (Checked (Option (Read Stmt))) :=
  match (if stream.startsLine position then Grammar.labelEnd? stream position else none) with
  | none => some absent
  | some colon => do
    let start ← stream.items[position]?
    let stop ← stream.items[colon]?
    let name ← slice stream.source start.token.span.start stop.token.span.start
    return found
      (.label (String.ofList name) (start.token.span.to stop.token.span.stop)) (colon + 1)

/-- The options of a hotstring, each of which uses up one of the bound. -/
def splitOptions : Nat → List Char → Option (Option (List String))
  | 0, _ => none
  | bound + 1, cs =>
    if cs.isEmpty then some (some [])
    else
      let length := HotstringOption.matchLength cs
      if length == 0 then some none
      else do
        let stop := byteLength (cs.take length)
        let option ← before cs stop
        let rest ← behind cs stop
        let options ← splitOptions bound rest
        return options.map (String.ofList option :: ·)

/-- The options and the trigger of a hotstring, up to its second double colon. -/
def hotstringHead (stream : Stream) (position : Nat) :
    Option (Option (Read (List String × LegacyLiteral))) :=
  match Grammar.optionsEnd? stream position with
  | none => some none
  | some close => do
    let start ← stream.items[position]?
    let stop ← stream.items[close]?
    let text ← slice stream.source start.token.span.stop stop.token.span.start
    match ← splitOptions (text.length + 1) text with
    | none => return none
    | some options =>
      let first := close + 1
      match Grammar.triggerEndWithin? stream (stream.size - first) false first with
      | none => return none
      | some stop =>
        if stop = first then return none
        else
          let trigger ← assemble stream first stop
          return some ((options, trigger), stop)

/-- Drops the number of a joystick in front of a joystick control. -/
def dropJoystick (name : List Char) : Option (List Char) :=
  let number := name.takeWhile Text.isDecimalDigit
  let control := name.dropWhile Text.isDecimalDigit
  if KeyName.isNumberUpTo 16 number && (Text.stripStart? "JOY".toList control).isSome then
    behind name (byteLength number)
  else some name

/-! ## Literals -/

/-- The value of a number. The digits of a hexadecimal number stand behind two characters. -/
def numberValue (text : List Char) : Option (Option Float) :=
  match text with
  | '0' :: x :: _ =>
    if x == 'x' || x == 'X' then do
      let digits ← behind text 2
      return Number.hex? 0.0 digits
    else some (Number.decimal? text)
  | _ => some (Number.decimal? text)

/-- The value of the literal at a position. A string is cut out between its quotes. -/
def literalValue (stream : Stream) (position : Nat) : Option (Except SyntaxError Value) := do
  let item ← stream.items[position]?
  let text := item.token.text.toList
  match item.token.kind with
  | .boolean => return .ok (.boolean (text.head? == some 't' || text.head? == some 'T'))
  | .string =>
    let around ← sectionAt stream position
    match around.bind (·.literal) with
    | some joined => return .ok (.string (String.ofList (Text.unescape joined.toList)))
    | none =>
      let inside ← slice text 1 (byteLength text - 1)
      return .ok (.string (String.ofList (Text.unescape inside)))
  | _ =>
    match ← numberValue text with
    | some value => return .ok (.number value)
    | none => return .error (.atToken item.token)

/-! ## The stream of a source

Each function gives the answer of its namesake: its slices lie between pieces of the source that
follow each other, and its indices are those of tokens and of their marks.
-/

section OfSource

variable {source : Source} {p q : Nat}

@[simp] theorem source_ofSource (source : Source) : (Stream.ofSource source).source = source := rfl

theorem exists_item (h : p < (Stream.ofSource source).size) :
    ∃ item, (Stream.ofSource source).items[p]? = some item ∧
      (Stream.ofSource source).token? p = some item.token ∧ Cut source item.token := by
  have hlt : p < (Stream.ofSource source).items.size := h
  have hitem := Array.getElem?_eq_getElem hlt
  have htoken : (Stream.ofSource source).token? p =
      some (Stream.ofSource source).items[p].token := by rw [Stream.token?, hitem]; rfl
  exact ⟨_, hitem, htoken, Stream.ofSource_cut htoken⟩

theorem sectionAt_eq (h : p < (Stream.ofSource source).size) :
    sectionAt (Stream.ofSource source) p = some ((Stream.ofSource source).section? p) := by
  obtain ⟨item, hitem, -, -⟩ := exists_item h
  obtain ⟨-, hmarked⟩ := Stream.ofSource_sectioned source
  simp only [sectionAt, Stream.section?, hitem, Option.bind_eq_bind, Option.bind_some]
  cases hsection : item.inSection with
  | none => rfl
  | some j =>
    have hmem : item ∈ (Stream.Draft.read source {} (Token.tokenize source)).items := by
      simpa [Stream.ofSource, Stream.Draft.toStream] using Array.mem_of_getElem? hitem
    obtain ⟨around, haround, -⟩ := hmarked.lies item hmem j hsection
    have hsome : (Stream.ofSource source).sections[j]? = some around := by
      simpa [Stream.ofSource, Stream.Draft.toStream] using haround
    simp [hsome]

/-- A double colon ahead stands at the position, or ahead of the next one on the same line. -/
theorem doubleColonAhead_eq (stream : Stream) (line p : Nat) :
    stream.doubleColonAhead line p = (stream.onLine line p &&
      (stream.isDoubleColon p || stream.doubleColonAhead line (p + 1))) := by
  have hend : ∀ i, stream.size ≤ i → (stream.onLine line i && !stream.isDoubleColon i) = false := by
    intro i hi
    simp [Stream.onLine, Stream.token?_eq_none hi]
  rw [Stream.doubleColonAhead, Stream.skip_eq hend, Stream.skipRound]
  cases honLine : stream.onLine line p <;> cases hcolons : stream.isDoubleColon p <;>
    simp [honLine, hcolons, Stream.doubleColonAhead]

/-- The first of the items from a position on. -/
theorem token?_of_drop {stream : Stream} {first : Stream.Item} {tail : List Stream.Item}
    (h : stream.items.toList.drop p = first :: tail) : stream.token? p = some first.token := by
  rw [Stream.token?, ← Array.getElem?_toList, ← List.head?_drop, h]
  rfl

/-- The pairs of neighbours are those of the positions. -/
theorem doubleColonOnLine_eq {stream : Stream} {tail : List Stream.Item}
    (h : stream.items.toList.drop p = tail) (line : Nat) :
    doubleColonOnLine line tail = stream.doubleColonAhead line p := by
  induction tail generalizing p with
  | nil =>
    have hnone : stream.token? p = none := Stream.token?_eq_none (List.drop_eq_nil_iff.mp h)
    rw [doubleColonAhead_eq]
    simp [doubleColonOnLine, Stream.onLine, hnone]
  | cons first tail ih =>
    have hfirst := token?_of_drop h
    have hnext : stream.items.toList.drop (p + 1) = tail := by
      rw [← List.tail_drop, h, List.tail_cons]
    rw [doubleColonAhead_eq, ← ih hnext]
    cases tail with
    | nil =>
      have hnone : stream.token? (p + 1) = none :=
        Stream.token?_eq_none (List.drop_eq_nil_iff.mp hnext)
      simp [doubleColonOnLine, Stream.isDoubleColon, Stream.reads, hnone]
    | cons second rest =>
      simp [doubleColonOnLine, Stream.onLine, Stream.isDoubleColon, Stream.reads,
        Stream.touchesPrevious, Stream.previous?_succ, hfirst, token?_of_drop hnext]

theorem segment_items {stream : Stream} (h : p ≤ stream.size) :
    segment stream.items.toList p stream.size = some (stream.items.toList.drop p) := by
  have hlength : stream.size = stream.items.toList.length := rfl
  rw [hlength] at h ⊢
  rw [segment, if_pos ⟨h, Nat.le_refl _⟩, List.take_length]

theorem continues_eq (stream : Stream) (p : Nat) :
    continues stream p = some (stream.continues p) := by
  unfold continues Stream.continues
  split
  · next h =>
    have hlt : p < stream.items.size := h
    rw [Array.getElem?_eq_getElem hlt, segment_items (Nat.le_of_lt h)]
    simp only [Option.bind_eq_bind, Option.bind_some, doubleColonOnLine_eq rfl]
    split
    · simp [*]
    · split <;> simp [*]
  · next h =>
    have hnone : stream.items[p]? = none := Array.getElem?_eq_none (Nat.le_of_not_lt h)
    rw [hnone]

theorem opensSection_eq (h : p < (Stream.ofSource source).size) (around : Section) :
    opensSection (Stream.ofSource source) around p =
      some (((Stream.ofSource source).previous? p).all
        (·.span.stop ≤ around.opening.span.start)) := by
  cases p with
  | zero => rfl
  | succ p =>
    obtain ⟨before, hbefore, htoken, -⟩ := exists_item (Nat.lt_of_succ_lt h)
    simp [opensSection, hbefore, Stream.previous?, htoken]

theorem sectionIndent_eq (h : p < (Stream.ofSource source).size) :
    sectionIndent (Stream.ofSource source) p =
      some (Grammar.sectionIndent (Stream.ofSource source) p) := by
  obtain ⟨item, hitem, htoken, hcut⟩ := exists_item h
  simp only [sectionIndent, sectionAt_eq h, Grammar.sectionIndent, Option.bind_eq_bind,
    Option.bind_some]
  cases (Stream.ofSource source).section? p with
  | none => rfl
  | some around =>
    simp only [hitem, opensSection_eq h, Stream.spanAt_eq htoken, source_ofSource,
      lineStart_eq hcut.start, slice_lineStart hcut.start, Option.bind_some]
    split <;> rfl

theorem sectionGap_eq {around : Section} {start stop : Nat} (hstart : IsBoundary source start)
    (hstop : IsBoundary source stop) (hle : start ≤ stop) (hclosing : Cut source around.closing) :
    sectionGap (Stream.ofSource source) around start stop =
      some (Grammar.sectionGap (Stream.ofSource source) around start stop) := by
  simp only [sectionGap, Grammar.sectionGap, source_ofSource, slice_eq hstart hstop hle, lines_eq,
    dropComment_eq, mapM_eq_some fun line _ => trimLine_eq around.options line, Option.bind_eq_bind,
    Option.bind_some]
  split
  · rfl
  split
  · next hclosed => simp [slice_eq hclosing.stop hstop hclosed]
  · simp [List.flatMap_map]

theorem gap_eq (h : p + 1 < (Stream.ofSource source).size) :
    gap (Stream.ofSource source) p = some (Grammar.gap (Stream.ofSource source) (p + 1)) := by
  have hp : p < (Stream.ofSource source).size := Nat.lt_of_succ_lt h
  obtain ⟨before, hbefore, hbefore', hcut⟩ := exists_item hp
  obtain ⟨item, hitem, hitem', hcut'⟩ := exists_item h
  have hle := Stream.ofSource_ordered hbefore' hitem' (Nat.lt_succ_self p)
  simp only [gap, hbefore, hitem, Grammar.gap, Nat.add_sub_cancel, Stream.spanAt_eq hbefore',
    Stream.spanAt_eq hitem', source_ofSource, slice_eq hcut.stop hcut'.start hle, sectionAt_eq h,
    sectionAt_eq hp, Option.bind_eq_bind, Option.bind_some]
  split
  · rfl
  · cases haround : ((Stream.ofSource source).section? (p + 1)).or
        ((Stream.ofSource source).section? p) with
    | none => rfl
    | some around =>
      have hclosing : Cut source around.closing := by
        rcases Option.or_eq_some_iff.mp haround with haround | ⟨-, haround⟩
        · exact Stream.ofSource_closing haround
        · exact Stream.ofSource_closing haround
      exact sectionGap_eq hcut.stop hcut'.start hle hclosing

theorem piece_eq (hle : p ≤ q) (h : q < (Stream.ofSource source).size) :
    piece (Stream.ofSource source) p q =
      some ((if q = p then Grammar.sectionIndent (Stream.ofSource source) q
        else Grammar.gap (Stream.ofSource source) q) ++ (Stream.ofSource source).textAt q) := by
  obtain ⟨item, hitem, htoken, -⟩ := exists_item h
  simp only [piece, hitem, Stream.textAt, htoken]
  split
  · simp [sectionIndent_eq h]
  · obtain ⟨q, rfl⟩ : ∃ m, q = m + 1 := ⟨q - 1, by omega⟩
    simp [gap_eq h]

theorem assemble_eq (hlt : p < q) (hle : q ≤ (Stream.ofSource source).size) :
    assemble (Stream.ofSource source) p q =
      some (Grammar.assemble (Stream.ofSource source) p q) := by
  have hrange : ∀ i ∈ List.range' p (q - p), p ≤ i ∧ i < (Stream.ofSource source).size := by
    intro i hi
    have := List.mem_range'_1.mp hi
    omega
  have htext : assembled (Stream.ofSource source) p q =
      some (Grammar.assembled (Stream.ofSource source) p q) := by
    rw [assembled, mapM_eq_some fun i hi => piece_eq (hrange i hi).1 (hrange i hi).2]
    rfl
  have hsections := mapM_eq_some fun i hi => @sectionAt_eq source i (hrange i hi).2
  obtain ⟨first, hfirst, hfirst', hcut⟩ := exists_item (Nat.lt_of_lt_of_le hlt hle)
  obtain ⟨last, hlast, hlast', hcut'⟩ :=
    exists_item (show q - 1 < (Stream.ofSource source).size by omega)
  have hspan : (Stream.ofSource source).spanTo ((Stream.ofSource source).spanAt p) q =
      first.token.span.to last.token.span.stop := by
    obtain ⟨-, token, token', htoken, htoken', hspan⟩ := Stream.covers_spanTo_spanAt hlt hle
    cases hfirst'.symm.trans htoken
    cases hlast'.symm.trans htoken'
    exact hspan
  have horder := Grammar.start_le_start hfirst' hlast' (by omega)
  have hslice := slice_eq hcut.start hcut'.stop (Nat.le_trans horder (Nat.le_of_lt hcut'.lt))
  simp only [assemble, htext, hsections, hfirst, hlast, source_ofSource, hslice, Grammar.assemble,
    hspan, Grammar.hasLiteralAccent, List.any_map, Option.bind_eq_bind, Option.bind_some,
    Span.to_start, Span.to_stop]
  rfl

theorem legacyText_eq (halt : Nat → Bool) (p : Nat) :
    legacyText (Stream.ofSource source) halt p =
      some (Grammar.legacyText? (Stream.ofSource source) halt p) := by
  simp only [legacyText]
  split
  · next heq => simp [Grammar.legacyText?, heq]
  · next hne =>
    have htext : Grammar.legacyText? (Stream.ofSource source) halt p = some (_, _) := if_neg hne
    obtain ⟨hlt, hle, -⟩ := Grammar.legacyText?_reads htext
    rw [assemble_eq hlt hle, htext]
    rfl

/-- The items in front of a token are those before its position. -/
theorem accentsAbove_eq {stream : Stream} {item : Stream.Item} (h : stream.items[p]? = some item) :
    accentsAbove item.token (stream.items.toList.take p).reverse =
      Grammar.accentsBefore stream p := by
  induction p generalizing item with
  | zero => rfl
  | succ p ih =>
    obtain ⟨before, hbefore⟩ : ∃ before, stream.items[p]? = some before := by
      have hlt := (Array.getElem?_eq_some_iff.mp h).1
      exact ⟨_, Array.getElem?_eq_getElem (Nat.lt_of_succ_lt hlt)⟩
    have htake : stream.items.toList.take (p + 1) = stream.items.toList.take p ++ [before] := by
      rw [List.take_add_one, Array.getElem?_toList, hbefore]
      rfl
    simp only [htake, List.reverse_append, List.reverse_singleton, List.singleton_append,
      accentsAbove, ih hbefore, Grammar.accentsBefore, Stream.reads, Stream.touchesPrevious,
      Stream.previous?_succ, Stream.token?, h, hbefore, Option.map_some, Option.any_some]

theorem accentsBefore_eq (h : p < (Stream.ofSource source).size) :
    accentsBefore (Stream.ofSource source) p =
      some (Grammar.accentsBefore (Stream.ofSource source) p) := by
  obtain ⟨item, hitem, -, -⟩ := exists_item h
  have hfront : segment (Stream.ofSource source).items.toList 0 p =
      some ((Stream.ofSource source).items.toList.take p) :=
    if_pos ⟨Nat.zero_le p, Nat.le_of_lt h⟩
  simp only [accentsBefore, hitem, hfront, accentsAbove_eq hitem, Option.bind_eq_bind,
    Option.bind_some, Option.pure_def]

theorem isDelimiter_eq (source : Source) (p : Nat) :
    isDelimiter (Stream.ofSource source) p =
      some (Grammar.isDelimiter (Stream.ofSource source) p) := by
  simp only [isDelimiter, Grammar.isDelimiter, continues_eq, Option.bind_eq_bind, Option.bind_some,
    ← Stream.continuesWith.eq_1]
  split
  · next hcomma =>
    have hp : p < (Stream.ofSource source).size :=
      Stream.lt_size_of_continues (Bool.and_eq_true_iff.mp hcomma).1
    simp only [sectionAt_eq hp, accentsBefore_eq hp, hcomma, Grammar.isEscaped, Option.bind_some]
    split
    · simp [*]
    · split <;> simp [*]
  · simp [*]

theorem label_eq (source : Source) (p : Nat) :
    label (Stream.ofSource source) p = some (Grammar.label (Stream.ofSource source) p) := by
  unfold label Grammar.label
  cases hcolon : (if (Stream.ofSource source).startsLine p then
      Grammar.labelEnd? (Stream.ofSource source) p else none) with
  | none => rfl
  | some colon =>
    have hend : Grammar.labelEnd? (Stream.ofSource source) p = some colon := by
      split at hcolon
      · exact hcolon
      · cases hcolon
    obtain ⟨hlt, hsize⟩ := Grammar.labelEnd?_bounds hend
    obtain ⟨first, hfirst, hfirst', hcut⟩ := exists_item (Nat.lt_trans hlt hsize)
    obtain ⟨last, hlast, hlast', hcut'⟩ := exists_item hsize
    have horder := Grammar.start_le_start hfirst' hlast' (Nat.le_of_lt hlt)
    simp [hfirst, hlast, slice_eq hcut.start hcut'.start horder, Stream.spanAt_eq hfirst',
      Stream.spanAt_eq hlast', Stream.spanTo, Stream.endBefore_succ hlast']

theorem splitOptions_eq {bound : Nat} {cs : List Char} (h : cs.length < bound) :
    splitOptions bound cs = some (HotstringOption.split cs) := by
  induction bound generalizing cs with
  | zero => omega
  | succ bound ih =>
    rw [splitOptions, HotstringOption.split]
    simp only
    split
    · rfl
    · next hne =>
      split
      · rfl
      · next hlength =>
        have hpos : 0 < cs.length := List.length_pos_iff.mpr (by simpa using hne)
        have hshorter : (cs.drop (HotstringOption.matchLength cs)).length < bound := by
          rw [List.length_drop]
          simp only [beq_iff_eq] at hlength
          omega
        have hbefore := before_append (cs.take (HotstringOption.matchLength cs))
          (cs.drop (HotstringOption.matchLength cs))
        have hbehind := behind_append (cs.take (HotstringOption.matchLength cs))
          (cs.drop (HotstringOption.matchLength cs))
        rw [List.take_append_drop] at hbefore hbehind
        simp [hbefore, hbehind, ih hshorter]

/-- The options of a hotstring end at a token. -/
theorem lt_size_of_optionsEnd? {stream : Stream} {close : Nat}
    (h : Grammar.optionsEnd? stream p = some close) : close < stream.size := by
  simp only [Grammar.optionsEnd?] at h
  split at h
  · next hcolon =>
    cases h
    exact Stream.lt_size_of_reads (Bool.and_eq_true_iff.mp hcolon).2
  · cases h

theorem hotstringHead_eq (source : Source) (p : Nat) :
    hotstringHead (Stream.ofSource source) p =
      some (Grammar.hotstringHead (Stream.ofSource source) p) := by
  unfold hotstringHead Grammar.hotstringHead
  cases hclose : Grammar.optionsEnd? (Stream.ofSource source) p with
  | none => rfl
  | some close =>
    have hlt := Grammar.optionsEnd?_lt hclose
    have hsize := lt_size_of_optionsEnd? hclose
    obtain ⟨first, hfirst, hfirst', hcut⟩ := exists_item (Nat.lt_trans hlt hsize)
    obtain ⟨last, hlast, hlast', hcut'⟩ := exists_item hsize
    have horder := Stream.ofSource_ordered hfirst' hlast' hlt
    simp only [hfirst, hlast, source_ofSource, slice_eq hcut.stop hcut'.start horder,
      splitOptions_eq (Nat.lt_succ_self _), Stream.spanAt_eq hfirst', Stream.spanAt_eq hlast',
      Option.bind_eq_bind, Option.bind_some]
    cases HotstringOption.split
        (Source.slice source first.token.span.stop last.token.span.start) with
    | none => rfl
    | some options =>
      cases hstop : Grammar.triggerEndWithin? (Stream.ofSource source)
          ((Stream.ofSource source).size - (close + 1)) false (close + 1) with
      | none => rfl
      | some stop =>
        simp only [Option.bind_some]
        split
        · rfl
        · next hne =>
          obtain ⟨hle, hsize'⟩ := Grammar.triggerEndWithin?_reads hstop
          rw [assemble_eq (by omega) (by omega)]
          rfl

theorem dropJoystick_eq (name : List Char) :
    dropJoystick name = some (KeyName.dropJoystick name) := by
  simp only [dropJoystick, KeyName.dropJoystick]
  split
  · have hbehind :=
      behind_append (name.takeWhile Text.isDecimalDigit) (name.dropWhile Text.isDecimalDigit)
    rwa [List.takeWhile_append_dropWhile] at hbehind
  · rfl

theorem numberValue_eq (text : List Char) : numberValue text = some (Number.value? text) := by
  fun_cases Number.value? text with
  | case1 x digits hhex =>
    have hbehind : behind ('0' :: x :: digits) 2 = some digits := by
      have hx : byteLength ['0', x] = 2 := by
        simp only [Bool.or_eq_true, beq_iff_eq] at hhex
        rcases hhex with rfl | rfl <;> rfl
      exact hx ▸ behind_append ['0', x] digits
    simp [numberValue, hhex, hbehind]
  | case2 x digits hhex => simp [numberValue, hhex]
  | case3 =>
    rename_i hne
    unfold numberValue
    split
    · next x digits => exact absurd rfl (hne x digits)
    · rfl

theorem slice_quoted (inside : List Char) :
    slice ('"' :: (inside ++ ['"'])) 1 (byteLength ('"' :: (inside ++ ['"'])) - 1) =
      some inside := by
  have hquote : byteLength ['"'] = 1 := rfl
  have hstop : byteLength ('"' :: (inside ++ ['"'])) - 1 =
      byteLength ['"'] + byteLength inside := by
    rw [← List.singleton_append, Source.byteLength_append, Source.byteLength_append, hquote]
    omega
  rw [hstop]
  exact slice_append ['"'] inside ['"']

theorem literalValue_eq {token : Token} (h : (Stream.ofSource source).token? p = some token) :
    literalValue (Stream.ofSource source) p =
      some (Grammar.literalValue (Stream.ofSource source) token p) := by
  have hp := Stream.lt_size_of_token? h
  obtain ⟨item, hitem, htoken, -⟩ := exists_item hp
  cases h.symm.trans htoken
  simp only [literalValue, hitem, sectionAt_eq hp, numberValue_eq, Grammar.literalValue,
    Option.bind_eq_bind, Option.bind_some]
  cases hkind : item.token.kind with
  | string =>
    cases ((Stream.ofSource source).section? p).bind (·.literal) with
    | some joined => rfl
    | none =>
      obtain ⟨inside, hinside⟩ := (Stream.ofSource_placed h).kinded.string hkind
      rw [hinside, slice_quoted]
      simp [Grammar.unquoted]
  | boolean => rfl
  | _ => cases Number.value? item.token.text.toList <;> rfl

end OfSource

/-! ## All accesses -/

/-- No access of the rules to the stream fails, at whatever position they stand: they give what they
give without the checks. -/
structure Accessible (stream : Stream) : Prop where
  sectionAt : ∀ p, p < stream.size → sectionAt stream p = some (stream.section? p)
  continues : ∀ p, continues stream p = some (stream.continues p)
  sectionIndent : ∀ p, p < stream.size →
    sectionIndent stream p = some (Grammar.sectionIndent stream p)
  gap : ∀ p, p + 1 < stream.size → gap stream p = some (Grammar.gap stream (p + 1))
  assemble : ∀ p q, p < q → q ≤ stream.size →
    assemble stream p q = some (Grammar.assemble stream p q)
  legacyText : ∀ halt p, legacyText stream halt p = some (Grammar.legacyText? stream halt p)
  isDelimiter : ∀ p, isDelimiter stream p = some (Grammar.isDelimiter stream p)
  label : ∀ p, label stream p = some (Grammar.label stream p)
  hotstringHead : ∀ p, hotstringHead stream p = some (Grammar.hotstringHead stream p)
  literalValue : ∀ p token, stream.token? p = some token →
    literalValue stream p = some (Grammar.literalValue stream token p)

theorem ofSource_accessible (source : Source) : Accessible (Stream.ofSource source) where
  sectionAt _ h := sectionAt_eq h
  continues p := continues_eq _ p
  sectionIndent _ h := sectionIndent_eq h
  gap _ h := gap_eq h
  assemble _ _ hlt hle := assemble_eq hlt hle
  legacyText halt p := legacyText_eq halt p
  isDelimiter p := isDelimiter_eq source p
  label p := label_eq source p
  hotstringHead p := hotstringHead_eq source p
  literalValue _ _ h := literalValue_eq h

/-- Every slice and every index that is checked here is in bounds, and on character boundaries,
whatever the source is: those of the lexer, those of the pass that builds the stream, and those of
the rules, which read scripts and single expressions alike. The descriptions of the modules name the
accesses without a check. -/
theorem accesses_in_bounds (source : Source) :
    tokenize source = some (Token.tokenize source) ∧
      ofSource source = some (Stream.ofSource source) ∧
      Accessible (Stream.ofSource source) ∧
      ∀ name, dropJoystick name = some (KeyName.dropJoystick name) :=
  ⟨tokenize_eq source, ofSource_eq source, ofSource_accessible source, dropJoystick_eq⟩

end HotkeyScript.InBounds
