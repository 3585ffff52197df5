import HotkeyScript.Proofs.Grammar.WrittenStatement

/-!
# Loops without a bound

The loops of the grammar are defined with a bound on the number of rounds. Each round reads a token
at least, so the bound is never reached, and a loop is its first round with the loop itself behind
it. A round takes the rest of the loop as an argument.

## Main definitions

* `Grammar.slots`, `Grammar.properties`, `Grammar.triggerEnd?` — the loops with the bounds at which
  the grammar runs them.
* `Grammar.inModifiers`, `Grammar.inOptions`, `Grammar.inLabel` — the conditions under which the
  grammar skips tokens that touch each other.
* `Stream.skipRound`, `Grammar.slotsRound`, `Grammar.propertiesRound`, `Grammar.paramsRound`,
  `Grammar.triggerRound` — one round of each loop.
-/

namespace HotkeyScript

/-! ## Skipping -/

namespace Stream

variable {stream : Stream} {i : Nat}

/-- One step of skipping. -/
def skipRound (p : Nat → Bool) (rest : Nat → Nat) (i : Nat) : Nat :=
  if p i then rest (i + 1) else i

/-- Skipping goes on by one position as long as the condition holds. -/
theorem skip_eq {p : Nat → Bool} (hend : ∀ i, stream.size ≤ i → p i = false) (i : Nat) :
    stream.skip p i = skipRound p (stream.skip p) i := by
  by_cases hlt : i < stream.size
  · have hbound : stream.size - i = (stream.size - (i + 1)) + 1 := by omega
    simp only [skip, hbound, skipWithin, skipRound]
  · have hle : stream.size ≤ i := by omega
    simp [skip, Nat.sub_eq_zero_of_le hle, skipWithin, skipRound, hend i hle]

/-- Skipping stops at the first position at which the condition does not hold. -/
theorem skip_eq_of {p : Nat → Bool} {stop : Nat} (hle : i ≤ stop) (hsize : stop ≤ stream.size)
    (hholds : ∀ j, i ≤ j → j < stop → p j = true) (hfails : stop < stream.size → p stop = false) :
    stream.skip p i = stop := by
  have hskip : stream.skip p i ≤ stream.size := stream.skip_le_size (Nat.le_trans hle hsize)
  rcases Nat.lt_trichotomy (stream.skip p i) stop with hlt | heq | hgt
  · have hfalse : p (stream.skip p i) = false := stream.fails_at_skip (by omega)
    rw [hholds _ (stream.le_skip p i) hlt] at hfalse
    cases hfalse
  · exact heq
  · have htrue := stream.holds_of_lt_skip hle hgt
    rw [hfails (by omega)] at htrue
    cases htrue

theorem startsLine_of_size_le (h : stream.size ≤ i) : stream.startsLine i = true := by
  have hnone : stream.items[i]? = none := Array.getElem?_eq_none h
  simp [startsLine, hnone]

theorem touchesPrevious_of_size_le (h : stream.size ≤ i) : stream.touchesPrevious i = false := by
  have hnone : stream.token? i = none := token?_eq_none h
  cases hprevious : stream.previous? i <;> simp [touchesPrevious, hnone, hprevious]

theorem reads_of_size_le (h : stream.size ≤ i) (text : String) : stream.reads i text = false := by
  simp [reads, token?_eq_none h]

theorem continues_of_size_le (h : stream.size ≤ i) : stream.continues i = false := by
  have hnone : stream.items[i]? = none := Array.getElem?_eq_none h
  simp [continues, hnone]

end Stream

namespace Grammar

variable {stream : Stream} {inner : ExprParser} {p q bound bound' : Nat}

/-! ## Lists -/

/-- The places of a list. -/
def slots (stream : Stream) (inner : ExprParser) (p : Nat) : Checked (Read (List (Option Expr))) :=
  slotsWithin stream inner (stream.size - p + 1) p

/-- The first place of a list and, behind a comma, the others. -/
def slotsRound (stream : Stream) (inner : ExprParser)
    (rest : Nat → Checked (Read (List (Option Expr)))) (p : Nat) :
    Checked (Read (List (Option Expr))) := do
  let (element, next) ← slot stream inner p
  if stream.reads next "," then
    let (elements, stop) ← rest (next + 1)
    .ok (element :: elements, stop)
  else
    .ok ([element], next)

theorem slotsRound_congr {rest rest' : Nat → Checked (Read (List (Option Expr)))}
    (hadv : Advances stream inner) (h : ∀ q, p < q → q ≤ stream.size → rest q = rest' q) :
    slotsRound stream inner rest p = slotsRound stream inner rest' p := by
  refine bind_congr_ok ?_
  rintro ⟨element, next⟩ hslot
  have hle := ((slot_reads hslot).advances hadv).1
  simp only
  split
  · next hcomma =>
    have hlt := Stream.lt_size_of_reads hcomma
    rw [h (next + 1) (by omega) hlt]
  · rfl

theorem slotsWithin_bound (hadv : Advances stream inner) (h : stream.size - p < bound)
    (h' : stream.size - p < bound') :
    slotsWithin stream inner bound p = slotsWithin stream inner bound' p := by
  induction bound generalizing bound' p with
  | zero => omega
  | succ bound ih =>
    cases bound' with
    | zero => omega
    | succ bound' => exact slotsRound_congr hadv fun q hlt hle => ih (by omega) (by omega)

theorem slots_eq (hadv : Advances stream inner) (p : Nat) :
    slots stream inner p = slotsRound stream inner (slots stream inner) p :=
  slotsRound_congr hadv fun _ _ _ => slotsWithin_bound hadv (by omega) (Nat.lt_succ_self _)

theorem list_eq (stream : Stream) (inner : ExprParser) (p : Nat) :
    list stream inner p = (do
      match ← slots stream inner p with
      | ([none], stop) => .ok ([], stop)
      | (elements, stop) => .ok (elements, stop)) :=
  rfl

/-! ## Objects -/

/-- The properties of an object and its closing brace. -/
def properties (stream : Stream) (inner : ExprParser) (p : Nat) : Checked (Read (List Property)) :=
  propertiesWithin stream inner (stream.size - p + 1) p

/-- The first property of an object and, behind a comma, the others. -/
def propertiesRound (stream : Stream) (inner : ExprParser)
    (rest : Nat → Checked (Read (List Property))) (p : Nat) : Checked (Read (List Property)) := do
  let (key, colon) ← required (inner .closed p) (stream.errorAt p)
  expect stream colon ":"
  let (value, next) ← required (inner (.above Operator.comma) (colon + 1))
    (stream.errorAt (colon + 1))
  let property := Property.mk key value (key.span.to value.span.stop)
  if stream.reads next "," then
    let (more, stop) ← rest (next + 1)
    .ok (property :: more, stop)
  else if stream.reads next "\x7d" then
    .ok ([property], next + 1)
  else
    .error (stream.errorAt next)

theorem propertiesRound_congr {rest rest' : Nat → Checked (Read (List Property))}
    (hadv : Advances stream inner) (h : ∀ q, p < q → q ≤ stream.size → rest q = rest' q) :
    propertiesRound stream inner rest p = propertiesRound stream inner rest' p := by
  refine bind_congr_ok ?_
  rintro ⟨key, colon⟩ hkey
  have hcolon := hadv _ _ _ _ (required_eq_ok.mp hkey)
  refine bind_congr_ok fun _ _ => bind_congr_ok ?_
  rintro ⟨value, next⟩ hvalue
  have hnext := hadv _ _ _ _ (required_eq_ok.mp hvalue)
  simp only
  split
  · next hcomma =>
    have hlt := Stream.lt_size_of_reads hcomma
    rw [h (next + 1) (by omega) hlt]
  · rfl

theorem propertiesWithin_bound (hadv : Advances stream inner) (h : stream.size - p < bound)
    (h' : stream.size - p < bound') :
    propertiesWithin stream inner bound p = propertiesWithin stream inner bound' p := by
  induction bound generalizing bound' p with
  | zero => omega
  | succ bound ih =>
    cases bound' with
    | zero => omega
    | succ bound' => exact propertiesRound_congr hadv fun q hlt hle => ih (by omega) (by omega)

theorem properties_eq (hadv : Advances stream inner) (p : Nat) :
    properties stream inner p = propertiesRound stream inner (properties stream inner) p :=
  propertiesRound_congr hadv fun _ _ _ =>
    propertiesWithin_bound hadv (by omega) (Nat.lt_succ_self _)

theorem object_eq (hlt : p < stream.size) (opening : Token) :
    object stream inner opening p = (do
      if stream.reads (p + 1) "\x7d" then
        .ok (.object [] (stream.spanTo opening.span (p + 2)), p + 2)
      else
        let (properties, stop) ← properties stream inner (p + 1)
        .ok (.object properties (stream.spanTo opening.span stop), stop)) := by
  have hbound : stream.size - p = stream.size - (p + 1) + 1 := by omega
  rw [object, hbound]
  rfl

/-! ## Parameters -/

/-- A parameter that is not cut off at its first token reads a token at least. -/
theorem param_lt {halt : Nat → Bool} {first : Option Expr} (hcontinues : stream.continues p = true)
    (hhalt : halt p = false) (hdelimiter : isDelimiter stream p = false)
    (h : param stream halt p = .ok (first, q)) : p < q ∧ q ≤ stream.size := by
  unfold param at h
  split at h
  · simp only [bind_eq_ok, required_eq_ok] at h
    obtain ⟨⟨e, next⟩, hexpression, h⟩ := h
    have hadv := expression_advances stream _ _ _ _ hexpression
    simp only at h
    split at h
    · cases h
    · cases h
      omega
  · split at h
    · next hnone =>
      -- the first token of the text is not skipped only if it halts
      simp only [legacyText?] at hnone
      split at hnone
      · next hskip =>
        have hend : ∀ i, stream.size ≤ i →
            (stream.continues i && !(isDelimiter stream i || halt i)) = false := by
          intro i hle
          simp [Stream.continues_of_size_le hle]
        rw [Stream.skip_eq hend, Stream.skipRound,
          if_pos (by simp [hcontinues, hhalt, hdelimiter])] at hskip
        have := stream.le_skip (fun i => stream.continues i && !(isDelimiter stream i || halt i))
          (p + 1)
        omega
      · cases hnone
    · next text next htext =>
      cases h
      exact (legacyText?_reads htext).bounds

/-- The first parameter and, behind a comma or without one, the others. -/
def paramsRound (stream : Stream) (halt : Nat → Bool)
    (rest : Nat → Checked (Read (List (Option Expr)))) (p : Nat) :
    Checked (Read (List (Option Expr))) :=
  if !stream.continues p || halt p then .ok ([], p)
  else if isDelimiter stream p then do
    let (more, stop) ← rest (p + 1)
    .ok (none :: more, stop)
  else do
    let (first, next) ← param stream halt p
    let (more, stop) ← rest (if isDelimiter stream next then next + 1 else next)
    .ok (first :: more, stop)

theorem paramsRound_congr {halt : Nat → Bool}
    {rest rest' : Nat → Checked (Read (List (Option Expr)))}
    (h : ∀ q, p < q → q ≤ stream.size → rest q = rest' q) :
    paramsRound stream halt rest p = paramsRound stream halt rest' p := by
  unfold paramsRound
  split
  · rfl
  · next hguard =>
    simp only [Bool.or_eq_true, Bool.not_eq_true', not_or, Bool.not_eq_false,
      Bool.not_eq_true] at hguard
    split
    · next hdelimiter => rw [h _ (Nat.lt_succ_self p) (lt_size_of_isDelimiter hdelimiter)]
    · next hdelimiter =>
      rw [Bool.not_eq_true] at hdelimiter
      refine bind_congr_ok ?_
      rintro ⟨first, next⟩ hparam
      have hlt := param_lt hguard.1 hguard.2 hdelimiter hparam
      simp only
      split
      · next hcomma => rw [h _ (by omega) (lt_size_of_isDelimiter hcomma)]
      · rw [h _ hlt.1 hlt.2]

theorem paramsWithin_bound {halt : Nat → Bool} (h : stream.size - p ≤ bound)
    (h' : stream.size - p ≤ bound') :
    paramsWithin stream halt bound p = paramsWithin stream halt bound' p := by
  have hend : ∀ bound p, stream.size ≤ p → paramsWithin stream halt bound p = .ok ([], p) := by
    intro bound p hle
    cases bound with
    | zero => rfl
    | succ bound => simp [paramsWithin, Stream.continues_of_size_le hle]
  induction bound generalizing bound' p with
  | zero => rw [hend 0 p (by omega), hend bound' p (by omega)]
  | succ bound ih =>
    cases bound' with
    | zero => rw [hend 0 p (by omega), hend (bound + 1) p (by omega)]
    | succ bound' =>
      exact paramsRound_congr fun q hlt _ => ih (by omega) (by omega)

theorem params_eq (stream : Stream) (halt : Nat → Bool) (p : Nat) :
    params stream halt p = paramsRound stream halt (params stream halt) p := by
  have hunroll : params stream halt p = paramsWithin stream halt (stream.size - p + 1) p :=
    paramsWithin_bound (Nat.le_refl _) (Nat.le_succ _)
  rw [hunroll]
  exact paramsRound_congr fun q hlt _ => paramsWithin_bound (by omega) (Nat.le_refl _)

/-! ## Runs of tokens that touch -/

/-- The token at a position touches the one before it on the same line. -/
def linked (stream : Stream) (i : Nat) : Bool :=
  !stream.startsLine i && stream.touchesPrevious i

theorem linked_of_size_le (h : stream.size ≤ p) : linked stream p = false := by
  simp [linked, Stream.touchesPrevious_of_size_le h]

/-- A modifier stands at a position, the first one or linked to the one before. -/
def inModifiers (stream : Stream) (first i : Nat) : Bool :=
  (i == first || linked stream i) && (stream.token? i).any isModifier

/-- The options of a hotstring run over a position. -/
def inOptions (stream : Stream) (i : Nat) : Bool :=
  linked stream i && !stream.reads i ":"

/-- The token at a position may be part of a label. -/
def isLabelPart (stream : Stream) (i : Nat) : Bool :=
  (stream.token? i).any fun token => !endsLabel token.text

/-- A label runs over a position. -/
def inLabel (stream : Stream) (i : Nat) : Bool :=
  linked stream i && isLabelPart stream i

theorem modifiersEnd_eq (stream : Stream) (p : Nat) :
    modifiersEnd stream p = stream.skip (inModifiers stream p) p :=
  rfl

theorem optionsEnd?_eq (stream : Stream) (p : Nat) :
    optionsEnd? stream p =
      let stop := stream.skip (inOptions stream) (p + 1)
      if linked stream stop && stream.reads stop ":" then some stop else none :=
  rfl

theorem labelEnd?_eq (stream : Stream) (p : Nat) :
    labelEnd? stream p =
      if isLabelPart stream p then
        let stop := stream.skip (inLabel stream) (p + 1)
        if !stream.startsLine stop && stream.reads stop ":" && stream.endsLine stop then some stop
        else none
      else none :=
  rfl

/-! ## Trigger texts -/

/-- The position of the double colon that ends a trigger text. -/
def triggerEnd? (stream : Stream) (escaped : Bool) (p : Nat) : Option Nat :=
  triggerEndWithin? stream (stream.size - p) escaped p

/-- One step of the search for the end of a trigger text. -/
def triggerRound (stream : Stream) (rest : Bool → Nat → Option Nat) (escaped : Bool) (p : Nat) :
    Option Nat :=
  if stream.startsLine p then none
  else if escaped && stream.touchesPrevious p then rest false (p + 1)
  else if stream.isDoubleColon p then some p
  else rest (stream.reads p "\x60") (p + 1)

theorem triggerEnd?_eq (stream : Stream) (escaped : Bool) (p : Nat) :
    triggerEnd? stream escaped p = triggerRound stream (triggerEnd? stream) escaped p := by
  by_cases hlt : p < stream.size
  · have hbound : stream.size - p = stream.size - (p + 1) + 1 := by omega
    rw [triggerEnd?, hbound]
    rfl
  · have hzero : stream.size - p = 0 := by omega
    rw [triggerEnd?, hzero, triggerRound, if_pos (Stream.startsLine_of_size_le (by omega))]
    rfl

end Grammar

end HotkeyScript
