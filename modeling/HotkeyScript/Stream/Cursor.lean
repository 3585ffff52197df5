import HotkeyScript.Operator
import HotkeyScript.Stream
import HotkeyScript.SyntaxError

/-!
# Reading a stream

Questions that the grammar asks of a stream at a position, the index of a token. The position behind
the last token has no token; there a line starts and none is carried on.

A token carries on the logical line before it if it does not start a line, if it lies in a
continuation section, or if it is an operator on a line without a double colon. Such an operator
glues its line to the one above.

## Main definitions

* `Stream.token?`, `Stream.reads`, `Stream.startsLine`, `Stream.continues` — what is at a position.
* `Stream.skip` — the first position at which a condition does not hold; `Stream.holds_of_lt_skip`
  and `Stream.fails_at_skip` say that it is the first.
* `Stream.spanTo` — the span that ends before a position.
* `Stream.errorAt` — the syntax error at a position.
-/

namespace HotkeyScript.Stream

variable (stream : Stream)

/-- The number of tokens. -/
def size : Nat :=
  stream.items.size

/-- The token at a position. -/
def token? (position : Nat) : Option Token :=
  stream.items[position]?.map (·.token)

/-- The span of the token at a position. -/
def spanAt (position : Nat) : Span :=
  ((stream.token? position).map (·.span)).getD {}

/-- The characters of the token at a position. -/
def textAt (position : Nat) : List Char :=
  ((stream.token? position).map (·.text.toList)).getD []

/-- The token before a position. -/
def previous? : Nat → Option Token
  | 0 => none
  | position + 1 => stream.token? position

/-- The continuation section that the token at a position lies in. -/
def section? (position : Nat) : Option Section :=
  stream.items[position]?.bind fun item => item.inSection.bind fun index => stream.sections[index]?

/-- The token at a position has exactly this text. -/
def reads (position : Nat) (text : String) : Bool :=
  (stream.token? position).any (·.text == text)

/-- The tokens from a position on have these texts, without regard to case. -/
def readsWords (position : Nat) : List String → Bool
  | [] => true
  | word :: words =>
    (stream.token? position).any (·.is word) && readsWords (position + 1) words

/-- The token before a position ends where the token at it starts. -/
def touchesPrevious (position : Nat) : Bool :=
  match stream.previous? position, stream.token? position with
  | some previous, some token => previous.touches token
  | _, _ => false

/-- The token at a position starts a logical line, or there is none. -/
def startsLine (position : Nat) : Bool :=
  stream.items[position]?.all (·.startsLine)

/-- The first position from `position` on at which `p` does not hold; `p` does not hold behind the
last token. -/
def skipWithin (p : Nat → Bool) : Nat → Nat → Nat
  | 0, position => position
  | bound + 1, position => if p position then skipWithin p bound (position + 1) else position

/-- The first position from `position` on at which `p` does not hold, or the one behind the last
token. -/
def skip (p : Nat → Bool) (position : Nat) : Nat :=
  skipWithin p (stream.size - position) position

theorem le_skipWithin (p : Nat → Bool) (bound position : Nat) :
    position ≤ skipWithin p bound position := by
  fun_induction skipWithin p bound position <;> omega

theorem skipWithin_le (p : Nat → Bool) (bound position : Nat) :
    skipWithin p bound position ≤ position + bound := by
  fun_induction skipWithin p bound position <;> omega

theorem holds_of_lt_skipWithin {p : Nat → Bool} {bound position i : Nat} (hle : position ≤ i)
    (hlt : i < skipWithin p bound position) : p i = true := by
  fun_induction skipWithin p bound position with
  | case1 position => omega
  | case2 bound position h ih =>
    rcases Nat.eq_or_lt_of_le hle with rfl | hlt'
    · exact h
    · exact ih hlt' hlt
  | case3 bound position h => omega

theorem fails_at_skipWithin {p : Nat → Bool} {bound position : Nat}
    (h : skipWithin p bound position < position + bound) :
    p (skipWithin p bound position) = false := by
  fun_induction skipWithin p bound position with
  | case1 position => omega
  | case2 bound position hp ih => exact ih (by omega)
  | case3 bound position hp => simpa using hp

/-- Skipping never goes back. -/
theorem le_skip (p : Nat → Bool) (position : Nat) : position ≤ stream.skip p position :=
  le_skipWithin p _ position

/-- Skipping stops behind the last token at the latest. -/
theorem skip_le_size {p : Nat → Bool} {position : Nat} (h : position ≤ stream.size) :
    stream.skip p position ≤ stream.size := by
  have := skipWithin_le p (stream.size - position) position
  simp only [skip]
  omega

/-- The condition holds at every position that is skipped. -/
theorem holds_of_lt_skip {p : Nat → Bool} {position i : Nat} (hle : position ≤ i)
    (hlt : i < stream.skip p position) : p i = true :=
  holds_of_lt_skipWithin hle hlt

/-- The condition does not hold where skipping stops before the end. -/
theorem fails_at_skip {p : Nat → Bool} {position : Nat}
    (h : stream.skip p position < stream.size) : p (stream.skip p position) = false := by
  have := le_skipWithin p (stream.size - position) position
  simp only [skip] at h ⊢
  exact fails_at_skipWithin (by omega)

/-- Two adjacent colons stand at a position. -/
def isDoubleColon (position : Nat) : Bool :=
  stream.reads position ":" && stream.reads (position + 1) ":" &&
    stream.touchesPrevious (position + 1)

/-- The token at a position stands on the physical line. -/
def onLine (line position : Nat) : Bool :=
  (stream.token? position).any (·.span.line == line)

/-- A double colon starts on the physical line of a position, at or behind it. -/
def doubleColonAhead (line position : Nat) : Bool :=
  let stop := stream.skip (fun i => stream.onLine line i && !stream.isDoubleColon i) position
  stream.onLine line stop && stream.isDoubleColon stop

/-- The token may glue its line to the one above. -/
def isContinuationOperator (token : Token) : Bool :=
  token.kind = .symbol && (token.text == "?" || (Operator.binary? token.text).isSome)

/-- The token at a position carries on the logical line before it. -/
def continues (position : Nat) : Bool :=
  match stream.items[position]? with
  | none => false
  | some item =>
    !item.startsLine || item.inSection.isSome ||
      (isContinuationOperator item.token &&
        !stream.doubleColonAhead item.token.span.line position)

/-- The token at a position is the last of its logical line. -/
def endsLine (position : Nat) : Bool :=
  !stream.continues (position + 1)

/-- The token at a position has this text and carries on the line. -/
def continuesWith (position : Nat) (text : String) : Bool :=
  stream.continues position && stream.reads position text

/-- The offset at which the token before a position ends. -/
def endBefore (position : Nat) : Nat :=
  match stream.previous? position with
  | some token => token.span.stop
  | none => 0

/-- The span that starts with `start` and ends before a position. -/
def spanTo (start : Span) (position : Nat) : Span :=
  start.to (stream.endBefore position)

/-- The syntax error at a position. -/
def errorAt (position : Nat) : SyntaxError :=
  match stream.token? position with
  | some token => .atToken token
  | none => .atEnd (stream.items.back?.map (·.token))

end HotkeyScript.Stream
