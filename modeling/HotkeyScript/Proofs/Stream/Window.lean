import HotkeyScript.Proofs.Grammar.Dangling
import HotkeyScript.Proofs.Source.Append
import HotkeyScript.Proofs.Stream.Order
import HotkeyScript.Proofs.Tree.Shift

/-!
# A stream inside another one

The tokens of a text that stands inside a longer one, on lines of its own, are a run of the tokens
of the longer text, at later offsets and on later lines. The run is a window on the longer stream.
Every question that the grammar asks of a position gets the same answer inside the window as in the
stream of the text alone. At the edge behind the last token a line starts and none is carried on,
whether a token follows or not; more can be said of the edge if the window is closed, so that the
token that follows is a word with which a statement starts.

## Main definitions

* `Stream.Window` — one stream is a run of the tokens of another.
* `Stream.Edge` — the token that follows a window.
* `Stream.ClosedWindow` — a window that nothing behind it carries on.
-/

namespace HotkeyScript.Stream

open Source (IsBoundary byteLength)
open Operator (IsOperator)

/-- The item at a later place. -/
def Item.shift (bytes lines : Nat) (item : Item) : Item :=
  { item with token := item.token.shift bytes lines }

/-- The item may follow a window on the stream: it starts a line of its own. -/
structure Edge (inner : Stream) (lines : Nat) (item : Item) : Prop where
  startsLine : item.startsLine = true
  outside : item.inSection = none
  line : ∀ i token, inner.token? i = some token → token.span.line + lines ≠ item.token.span.line

/-- The item closes a window on the stream: it is a word that carries no statement on, and the
stream ends with no token that asks for more. -/
structure WordEdge (inner : Stream) (item : Item) : Prop where
  word : item.token.kind = .word
  chars : ∀ c ∈ item.token.text.toList, Token.isWordChar c = true
  operator : ¬ IsOperator item.token.text
  clause : Keyword.isClause item.token = false
  comma : inner.reads (inner.size - 1) "," = false
  star : inner.reads (inner.size - 1) "*" = false

/-- The stream `inner` is a window on the stream `outer`: a run of tokens behind `n` others, which
write the text between `before` and `after`. -/
structure Window (inner outer : Stream) (n lines : Nat) (before after : Source) : Prop where
  source : outer.source = before ++ (inner.source ++ after)
  fresh : Text.EndsLine before
  bound : n + inner.size ≤ outer.size
  item : ∀ i, i < inner.size →
    outer.items[n + i]? = inner.items[i]?.map (Item.shift (byteLength before) lines)
  sections : ∀ i, i < inner.size → outer.section? (n + i) = inner.section? i
  first : ∀ i around, inner.section? i = some around → before = [] ∧ n = 0
  closing : ∀ i around, inner.section? i = some around →
    IsBoundary inner.source around.closing.span.stop
  cut : ∀ i token, inner.token? i = some token → token.Cut inner.source
  operator : ∀ i token, inner.token? i = some token → IsOperator token.text → token.kind = .symbol
  opens : outer.touchesPrevious n = false
  closes : outer.touchesPrevious (n + inner.size) = false
  edge : ∀ item, outer.items[n + inner.size]? = some item → Edge inner lines item
  ends : outer.continues (n + inner.size) = false

/-- The stream `inner` is a window on the stream `outer`, and a word follows it or nothing does. -/
structure ClosedWindow (inner outer : Stream) (n lines : Nat) (before after : Source) : Prop
    extends Window inner outer n lines before after where
  closed : ∀ item, outer.items[n + inner.size]? = some item → WordEdge inner item

namespace Window

variable {inner outer : Stream} {n lines : Nat} {before after : Source}
  (w : Window inner outer n lines before after) {i : Nat}

include w

/-- Where a span of the inner stream stands in the outer one. -/
def move (_ : Window inner outer n lines before after) : Span → Span :=
  Span.shift (byteLength before) lines

/-! ## Tokens -/

theorem token? (hi : i < inner.size) :
    outer.token? (n + i) = (inner.token? i).map (Token.shift (byteLength before) lines) := by
  simp only [Stream.token?, w.item i hi, Option.map_map]
  rfl

theorem token {token : Token} (h : inner.token? i = some token) :
    outer.token? (n + i) = some (token.shift (byteLength before) lines) := by
  rw [w.token? (lt_size_of_token? h), h]
  rfl

theorem previous? (hpos : 0 < i) (hi : i ≤ inner.size) :
    outer.previous? (n + i) = (inner.previous? i).map (Token.shift (byteLength before) lines) := by
  obtain ⟨i, rfl⟩ := Nat.exists_eq_add_one_of_ne_zero (Nat.pos_iff_ne_zero.mp hpos)
  exact w.token? hi

theorem spanAt (hi : i < inner.size) :
    outer.spanAt (n + i) = w.move (inner.spanAt i) := by
  obtain ⟨token, htoken⟩ := exists_token_of_lt hi
  rw [spanAt_eq (w.token htoken), spanAt_eq htoken]
  rfl

theorem textAt (hi : i < inner.size) : outer.textAt (n + i) = inner.textAt i := by
  obtain ⟨token, htoken⟩ := exists_token_of_lt hi
  simp [Stream.textAt, htoken, w.token htoken]

theorem endBefore (hpos : 0 < i) (hi : i ≤ inner.size) :
    outer.endBefore (n + i) = inner.endBefore i + byteLength before := by
  obtain ⟨i, rfl⟩ := Nat.exists_eq_add_one_of_ne_zero (Nat.pos_iff_ne_zero.mp hpos)
  obtain ⟨token, htoken⟩ := exists_token_of_lt (Nat.lt_of_succ_le hi)
  rw [endBefore_succ htoken]
  exact endBefore_succ (w.token htoken)

theorem spanTo (hpos : 0 < i) (hi : i ≤ inner.size) (span : Span) :
    outer.spanTo (w.move span) (n + i) = w.move (inner.spanTo span i) := by
  rw [Stream.spanTo, w.endBefore hpos hi]
  rfl

/-- The span from one position to another moves with them. -/
theorem spanTo_spanAt {p : Nat} (hlt : p < i) (hi : i ≤ inner.size) :
    outer.spanTo (outer.spanAt (n + p)) (n + i) = w.move (inner.spanTo (inner.spanAt p) i) := by
  rw [w.spanAt (by omega), w.spanTo (by omega) hi]

theorem expected {text : String} (h : Grammar.Expected inner i text) :
    Grammar.Expected outer (n + i) text := by
  obtain ⟨token, htoken, his⟩ := h
  exact ⟨_, w.token htoken, his⟩

/-! ## The edge -/

theorem startsLine_edge : outer.startsLine (n + inner.size) = true := by
  cases hitem : outer.items[n + inner.size]? with
  | none => simp [Stream.startsLine, hitem]
  | some item => simp [Stream.startsLine, hitem, (w.edge item hitem).startsLine]

theorem onLine_edge {token : Token} (h : inner.token? i = some token) :
    outer.onLine (token.span.line + lines) (n + inner.size) = false := by
  cases hitem : outer.items[n + inner.size]? with
  | none => simp [Stream.onLine, Stream.token?, hitem]
  | some item =>
    have hline := (w.edge item hitem).line i token h
    simpa [Stream.onLine, Stream.token?, hitem] using hline.symm

/-! ## Questions inside and at the edge -/

theorem reads (hi : i < inner.size) (text : String) :
    outer.reads (n + i) text = inner.reads i text := by
  obtain ⟨token, htoken⟩ := exists_token_of_lt hi
  simp [Stream.reads, htoken, w.token htoken]

theorem keyword (hi : i < inner.size) :
    (outer.token? (n + i)).bind Keyword.ofToken? = (inner.token? i).bind Keyword.ofToken? := by
  rw [w.token? hi]
  cases inner.token? i <;> rfl

theorem startsLine (hi : i ≤ inner.size) : outer.startsLine (n + i) = inner.startsLine i := by
  rcases Nat.eq_or_lt_of_le hi with rfl | hlt
  · rw [w.startsLine_edge, startsLine_of_size_le (Nat.le_refl _)]
  · rw [Stream.startsLine, w.item i hlt, Stream.startsLine]
    cases inner.items[i]? <;> rfl

theorem touchesPrevious (hi : i ≤ inner.size) :
    outer.touchesPrevious (n + i) = inner.touchesPrevious i := by
  rcases Nat.eq_or_lt_of_le hi with rfl | hlt
  · rw [w.closes, touchesPrevious_of_size_le (Nat.le_refl _)]
  · rcases Nat.eq_zero_or_pos i with rfl | hpos
    · rw [Nat.add_zero, w.opens]
      rfl
    · rw [Stream.touchesPrevious, w.previous? hpos hi, w.token? hlt, Stream.touchesPrevious]
      cases inner.previous? i <;> cases inner.token? i <;> simp

theorem isDoubleColon (hi : i < inner.size) :
    outer.isDoubleColon (n + i) = inner.isDoubleColon i := by
  rw [Stream.isDoubleColon, w.reads hi, Nat.add_assoc,
    w.touchesPrevious (show i + 1 ≤ inner.size from hi), Stream.isDoubleColon]
  rcases Nat.eq_or_lt_of_le (show i + 1 ≤ inner.size from hi) with heq | hlt
  · rw [heq, touchesPrevious_of_size_le (Nat.le_refl _), Bool.and_false, Bool.and_false]
  · rw [w.reads hlt]

/-- Skipping stops at the same place, at the edge of the window at the latest. -/
theorem skip {p q : Nat → Bool} (hi : i ≤ inner.size)
    (hsame : ∀ j, i ≤ j → j < inner.size → q (n + j) = p j) (hedge : q (n + inner.size) = false) :
    outer.skip q (n + i) = n + inner.skip p i := by
  have hle := inner.le_skip p i
  have hsize : inner.skip p i ≤ inner.size := inner.skip_le_size hi
  have hbound := w.bound
  refine skip_eq_of (by omega) (by omega) (fun j hj hlt => ?_) fun _ => ?_
  · obtain ⟨j, rfl⟩ := Nat.exists_eq_add_of_le (show n ≤ j by omega)
    rw [hsame j (by omega) (by omega)]
    exact inner.holds_of_lt_skip (show i ≤ j by omega) (by omega)
  · rcases Nat.eq_or_lt_of_le hsize with heq | hlt
    · rw [heq, hedge]
    · rw [hsame _ hle hlt]
      exact inner.fails_at_skip hlt

theorem onLine (hi : i < inner.size) (line : Nat) :
    outer.onLine (line + lines) (n + i) = inner.onLine line i := by
  obtain ⟨token, htoken⟩ := exists_token_of_lt hi
  rw [Bool.eq_iff_iff]
  simp [Stream.onLine, htoken, w.token htoken]

theorem doubleColonAhead {token : Token} (h : inner.token? i = some token) :
    outer.doubleColonAhead (token.span.line + lines) (n + i) =
      inner.doubleColonAhead token.span.line i := by
  have hlt := lt_size_of_token? h
  have hedge := w.onLine_edge h
  have hskip : outer.skip (fun j => outer.onLine (token.span.line + lines) j &&
        !outer.isDoubleColon j) (n + i) =
      n + inner.skip (fun j => inner.onLine token.span.line j && !inner.isDoubleColon j) i := by
    refine w.skip (Nat.le_of_lt hlt) (fun j _ hj => ?_) (by simp [hedge])
    rw [w.onLine hj, w.isDoubleColon hj]
  have hstop : inner.skip (fun j => inner.onLine token.span.line j && !inner.isDoubleColon j) i ≤
      inner.size := inner.skip_le_size (Nat.le_of_lt hlt)
  simp only [Stream.doubleColonAhead, hskip]
  rcases Nat.eq_or_lt_of_le hstop with heq | hlt
  · have hnone : inner.token? inner.size = none := token?_eq_none (Nat.le_refl _)
    rw [heq, hedge]
    simp [Stream.onLine, hnone]
  · rw [w.onLine hlt, w.isDoubleColon hlt]

theorem continues (hi : i ≤ inner.size) : outer.continues (n + i) = inner.continues i := by
  rcases Nat.eq_or_lt_of_le hi with rfl | hlt
  · rw [w.ends, continues_of_size_le (Nat.le_refl _)]
  · have hitem := w.item i hlt
    obtain ⟨item, hinner⟩ : ∃ item, inner.items[i]? = some item :=
      ⟨inner.items[i], Array.getElem?_eq_getElem hlt⟩
    have htoken : inner.token? i = some item.token := by simp [Stream.token?, hinner]
    rw [hinner] at hitem
    have hahead := w.doubleColonAhead htoken
    simp only [Stream.continues, hitem, hinner, Option.map_some, Item.shift, Token.shift_span,
      Span.shift_line, hahead]
    rfl

theorem endsLine (hi : i < inner.size) : outer.endsLine (n + i) = inner.endsLine i := by
  rw [Stream.endsLine, Nat.add_assoc, w.continues hi, Stream.endsLine]

theorem continuesWith (hi : i ≤ inner.size) (text : String) :
    outer.continuesWith (n + i) text = inner.continuesWith i text := by
  rw [Stream.continuesWith, w.continues hi, Stream.continuesWith]
  rcases Nat.eq_or_lt_of_le hi with rfl | hlt
  · rw [continues_of_size_le (Nat.le_refl _), Bool.false_and, Bool.false_and]
  · rw [w.reads hlt]

theorem atKeyword (hi : i < inner.size) (keyword : Keyword) :
    Grammar.atKeyword outer (n + i) keyword = Grammar.atKeyword inner i keyword := by
  obtain ⟨token, htoken⟩ := exists_token_of_lt hi
  simp only [Grammar.atKeyword, htoken, w.token htoken]
  rfl

/-! ## Text -/

theorem slice {a b : Nat} (ha : IsBoundary inner.source a) (hb : b ≤ byteLength inner.source) :
    Source.slice outer.source (a + byteLength before) (b + byteLength before) =
      Source.slice inner.source a b := by
  rw [w.source, Source.slice_before, Source.slice_after ha hb]

theorem lineBefore {a : Nat} (ha : a ≤ byteLength inner.source) :
    Source.lineBefore outer.source (a + byteLength before) =
      Source.lineBefore inner.source a := by
  rw [w.source, Source.lineBefore_before w.fresh, Source.lineBefore_after ha]

theorem isBoundary_start (hi : i < inner.size) :
    IsBoundary inner.source (inner.spanAt i).start := by
  obtain ⟨token, htoken⟩ := exists_token_of_lt hi
  rw [spanAt_eq htoken]
  exact (w.cut i token htoken).start

theorem isBoundary_stop (hi : i < inner.size) : IsBoundary inner.source (inner.spanAt i).stop := by
  obtain ⟨token, htoken⟩ := exists_token_of_lt hi
  rw [spanAt_eq htoken]
  exact (w.cut i token htoken).stop

end Window

namespace ClosedWindow

variable {inner outer : Stream} {n lines : Nat} {before after : Source}
  (w : ClosedWindow inner outer n lines before after) {i : Nat}

include w

theorem reads_edge {text : String} (htext : text.toList.any (!Token.isWordChar ·) = true) :
    outer.reads (n + inner.size) text = false := by
  rw [Bool.eq_false_iff]
  intro hreads
  obtain ⟨token, htoken, rfl⟩ := reads_iff.mp hreads
  obtain ⟨item, hitem, rfl⟩ := Option.map_eq_some_iff.mp htoken
  obtain ⟨c, hc, hword⟩ := List.any_eq_true.mp htext
  simp [(w.closed item hitem).chars c hc] at hword

theorem reads (hi : i ≤ inner.size) (text : String)
    (htext : text.toList.any (!Token.isWordChar ·) = true) :
    outer.reads (n + i) text = inner.reads i text := by
  rcases Nat.eq_or_lt_of_le hi with rfl | hlt
  · rw [w.reads_edge htext, Stream.reads, token?_eq_none (Nat.le_refl _)]
    rfl
  · exact w.toWindow.reads hlt text

/-- No clause carries on what stands in the window. -/
theorem atKeyword_edge {keyword : Keyword}
    (hclause : keyword = .elseWord ∨ keyword = .untilWord ∨ keyword = .catchWord ∨
      keyword = .finallyWord) : Grammar.atKeyword outer (n + inner.size) keyword = false := by
  cases hitem : outer.items[n + inner.size]? with
  | none => simp [Grammar.atKeyword, Stream.token?, hitem]
  | some item =>
    have hnot := (w.closed item hitem).clause
    rw [Bool.eq_false_iff]
    intro hkeyword
    simp only [Grammar.atKeyword, Stream.token?, hitem, Option.map_some, Option.bind_some,
      beq_iff_eq] at hkeyword
    rw [Keyword.isClause, hkeyword] at hnot
    rcases hclause with rfl | rfl | rfl | rfl <;> cases hnot

theorem comma_of_followed (h : n + inner.size < outer.size) :
    inner.reads (inner.size - 1) "," = false :=
  (w.closed _ (Array.getElem?_eq_getElem h)).comma

theorem star_of_followed (h : n + inner.size < outer.size) :
    inner.reads (inner.size - 1) "*" = false :=
  (w.closed _ (Array.getElem?_eq_getElem h)).star

end ClosedWindow

end HotkeyScript.Stream
