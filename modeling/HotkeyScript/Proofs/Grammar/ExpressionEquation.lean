import HotkeyScript.Proofs.Grammar.ExpressionRules

/-!
# Expressions without a bound

`Grammar.expression` is defined with a bound on the nesting. Every rule reads on from where it
starts, and what it reads lies before the end of the stream; so the bound is never reached, and
`expression` is the parser that calls itself for the expressions inside (`expression_eq`). In the
same way `climb` takes steps until there are none (`climb_eq`).

## Main definitions

* `Grammar.Advances` — a parser that matches reads a token at least, and none behind the end.
* `Grammar.Climbs` — the expressions that are passed on the way up under a floor.
* `Grammar.Stops` — no step leads on from a position under a floor.
-/

namespace HotkeyScript.Grammar

variable {stream : Stream} {inner inner' : ExprParser} {floor : Floor} {left e : Expr}
  {p q m n bound : Nat}

/-! ## Reading on -/

/-- Where the parser matches, it reads a token at least, and no token behind the last one. -/
def Advances (stream : Stream) (inner : ExprParser) : Prop :=
  ∀ floor p e q, inner floor p = .ok (some (e, q)) → p < q ∧ q ≤ stream.size

theorem Slot.advances (hadv : Advances stream inner) {slot : Option Expr}
    (h : Slot stream inner slot p q) : p ≤ q ∧ (p ≤ stream.size → q ≤ stream.size) := by
  cases h with
  | empty => exact ⟨Nat.le_refl p, id⟩
  | element hinner =>
    obtain ⟨hlt, hle⟩ := hadv _ _ _ _ hinner
    exact ⟨Nat.le_of_lt hlt, fun _ => hle⟩
  | variadic hinner hstar =>
    obtain ⟨hlt, -⟩ := hadv _ _ _ _ hinner
    exact ⟨by omega, fun _ => Stream.lt_size_of_reads hstar⟩

theorem Slots.advances (hadv : Advances stream inner) {slots : List (Option Expr)}
    (h : Slots stream inner slots p q) : p ≤ q ∧ (p ≤ stream.size → q ≤ stream.size) := by
  induction h with
  | last hslot => exact hslot.advances hadv
  | cons hslot hcomma hrest ih =>
    have hle := (hslot.advances hadv).1
    exact ⟨by omega, fun _ => ih.2 (Stream.lt_size_of_reads hcomma)⟩

theorem list_advances (hadv : Advances stream inner) {elements : List (Option Expr)}
    (h : list stream inner p = .ok (elements, q)) :
    p ≤ q ∧ (p ≤ stream.size → q ≤ stream.size) := by
  rcases list_reads h with ⟨-, rfl⟩ | hslots
  · exact ⟨Nat.le_refl q, id⟩
  · exact hslots.advances hadv

theorem Pair.advances (hadv : Advances stream inner) {property : Property}
    (h : Pair stream inner property p q) : p < q ∧ q ≤ stream.size := by
  obtain ⟨hkey, -, hvalue⟩ := h
  have hkey := hadv _ _ _ _ hkey
  have hvalue := hadv _ _ _ _ hvalue
  omega

theorem Properties.advances (hadv : Advances stream inner) {properties : List Property}
    (h : Properties stream inner properties p q) : p < q ∧ q ≤ stream.size := by
  induction h with
  | last hpair hbrace =>
    have hpair := hpair.advances hadv
    have hbrace := Stream.lt_size_of_reads hbrace
    omega
  | cons hpair hcomma hrest ih =>
    have hpair := hpair.advances hadv
    omega

theorem Primary.advances (hadv : Advances stream inner) (h : Primary stream inner p e q) :
    p < q ∧ q ≤ stream.size := by
  cases h with
  | identifier htoken => exact ⟨Nat.lt_succ_self p, Stream.lt_size_of_token? htoken⟩
  | literal htoken => exact ⟨Nat.lt_succ_self p, Stream.lt_size_of_token? htoken⟩
  | leading htoken hprecedence hinner =>
    have hinner := hadv _ _ _ _ hinner
    omega
  | group hopen hinner hclose =>
    have hinner := hadv _ _ _ _ hinner
    have hclose := hclose.lt_size
    omega
  | array htoken hlist hclose =>
    have hlist := (list_advances hadv hlist).1
    have hclose := hclose.lt_size
    omega
  | emptyObject htoken hbrace =>
    have hbrace := Stream.lt_size_of_reads hbrace
    omega
  | object htoken hproperties =>
    have hproperties := hproperties.advances hadv
    omega

theorem Step.advances (hadv : Advances stream inner) (h : Step stream inner floor left p e q) :
    p < q ∧ q ≤ stream.size := by
  cases h with
  | dotMember hdot hname =>
    have hname := Stream.lt_size_of_token? hname
    omega
  | indexMember hopen hline hinner hclose =>
    have hinner := hadv _ _ _ _ hinner
    have hclose := hclose.lt_size
    omega
  | call hopen htouches hlist hclose =>
    have hlist := (list_advances hadv hlist).1
    have hclose := hclose.lt_size
    omega
  | binary htoken hprecedence hadmits hinner =>
    have hinner := hadv _ _ _ _ hinner
    omega
  | trailing htoken => exact ⟨Nat.lt_succ_self p, Stream.lt_size_of_token? htoken⟩
  | conditional hreads hadmits hconsequent hcolon halternate =>
    have hconsequent := hadv _ _ _ _ hconsequent
    have halternate := hadv _ _ _ _ halternate
    omega
  | concat hadmits hline hinner => exact hadv _ _ _ _ hinner

theorem climbWithin_advances (hadv : Advances stream inner) (hsize : p ≤ stream.size)
    (h : climbWithin stream inner floor bound left p = .ok (e, q)) :
    p ≤ q ∧ q ≤ stream.size := by
  induction bound generalizing left p with
  | zero =>
    cases h
    exact ⟨Nat.le_refl _, hsize⟩
  | succ bound ih =>
    simp only [climbWithin, bind_eq_ok] at h
    obtain ⟨_ | ⟨longer, next⟩, hextend, h⟩ := h
    · cases h
      exact ⟨Nat.le_refl _, hsize⟩
    · have hstep := (extend_reads hextend).2.advances hadv
      have hclimb := ih hstep.2 h
      omega

theorem expressionWithin_advances (stream : Stream) (bound : Nat) :
    Advances stream (expressionWithin stream bound) := by
  induction bound with
  | zero =>
    intro floor p e q h
    cases h
  | succ bound ih =>
    intro floor p e q h
    simp only [expressionWithin, bind_eq_ok] at h
    obtain ⟨_ | ⟨left, next⟩, hprimary, h⟩ := h
    · cases h
    · obtain ⟨⟨e', q'⟩, hclimb, h⟩ := map_eq_ok.mp h
      cases h
      have hprimary := (primary_reads hprimary).advances ih
      have hclimb := climbWithin_advances ih hprimary.2 hclimb
      omega

theorem expression_advances (stream : Stream) : Advances stream (expression stream) :=
  fun floor p => expressionWithin_advances stream (stream.size - p) floor p

/-! ## Parsers that agree from a position on -/

/-- The two parsers give the same answers from position `n` on. -/
def AgreeFrom (n : Nat) (inner inner' : ExprParser) : Prop :=
  ∀ floor p, n ≤ p → inner floor p = inner' floor p

theorem AgreeFrom.mono (h : AgreeFrom n inner inner') (hle : n ≤ m) : AgreeFrom m inner inner' :=
  fun floor p hp => h floor p (Nat.le_trans hle hp)

theorem slot_congr (h : AgreeFrom n inner inner') (hp : n ≤ p) :
    slot stream inner p = slot stream inner' p := by
  simp only [slot, h _ p hp]

theorem slotsWithin_congr (hadv : Advances stream inner) (h : AgreeFrom n inner inner')
    (hp : n ≤ p) : slotsWithin stream inner bound p = slotsWithin stream inner' bound p := by
  induction bound generalizing p with
  | zero => rfl
  | succ bound ih =>
    simp only [slotsWithin]
    rw [← slot_congr h hp]
    refine bind_congr_ok ?_
    rintro ⟨element, next⟩ hslot
    have hle := ((slot_reads hslot).advances hadv).1
    simp only [ih (p := next + 1) (by omega)]

theorem list_congr (hadv : Advances stream inner) (h : AgreeFrom n inner inner') (hp : n ≤ p) :
    list stream inner p = list stream inner' p := by
  simp only [list, slotsWithin_congr hadv h hp]

theorem group_congr (h : AgreeFrom (p + 1) inner inner') :
    group stream inner p = group stream inner' p := by
  simp only [group, h _ (p + 1) (Nat.le_refl _)]

theorem array_congr (hadv : Advances stream inner) (h : AgreeFrom (p + 1) inner inner')
    (token : Token) : array stream inner token p = array stream inner' token p := by
  simp only [array, list_congr hadv h (Nat.le_refl _)]

theorem propertiesWithin_congr (hadv : Advances stream inner) (h : AgreeFrom n inner inner')
    (hp : n ≤ p) :
    propertiesWithin stream inner bound p = propertiesWithin stream inner' bound p := by
  induction bound generalizing p with
  | zero => rfl
  | succ bound ih =>
    simp only [propertiesWithin]
    rw [← h _ p hp]
    refine bind_congr_ok ?_
    rintro ⟨key, colon⟩ hkey
    have hcolon := (hadv _ _ _ _ (required_eq_ok.mp hkey)).1
    refine bind_congr_ok fun _ _ => ?_
    simp only
    rw [← h _ (colon + 1) (by omega)]
    refine bind_congr_ok ?_
    rintro ⟨value, next⟩ hvalue
    have hnext := (hadv _ _ _ _ (required_eq_ok.mp hvalue)).1
    simp only [ih (p := next + 1) (by omega)]

theorem object_congr (hadv : Advances stream inner) (h : AgreeFrom (p + 1) inner inner')
    (token : Token) : object stream inner token p = object stream inner' token p := by
  simp only [object, propertiesWithin_congr hadv h (Nat.le_refl _)]

theorem primary_congr (hadv : Advances stream inner) (h : AgreeFrom (p + 1) inner inner') :
    primary stream inner p = primary stream inner' p := by
  have hleading : ∀ token, leadingOperator inner token p = leadingOperator inner' token p := by
    intro token
    simp only [leadingOperator, h _ (p + 1) (Nat.le_refl _)]
  have hbracketed : ∀ token, bracketed stream inner token p = bracketed stream inner' token p := by
    intro token
    simp only [bracketed, group_congr h, array_congr hadv h, object_congr hadv h]
  simp only [primary, hleading, hbracketed]

theorem conditional_congr (hadv : Advances stream inner) (h : AgreeFrom p inner inner') :
    conditional stream inner floor left p = conditional stream inner' floor left p := by
  unfold conditional
  rw [← h _ (p + 1) (by omega)]
  split
  · refine bind_congr_ok ?_
    rintro ⟨consequent, colon⟩ hconsequent
    have hcolon := (hadv _ _ _ _ (required_eq_ok.mp hconsequent)).1
    simp only [h _ (colon + 1) (by omega)]
  · rfl

theorem extend_congr (hadv : Advances stream inner) (h : AgreeFrom p inner inner') :
    extend stream inner floor left p = extend stream inner' floor left p := by
  have hafter : AgreeFrom (p + 1) inner inner' := h.mono (Nat.le_succ p)
  have hindex : indexMember stream inner left p = indexMember stream inner' left p := by
    simp only [indexMember, hafter _ (p + 1) (Nat.le_refl _)]
  have hcall : call stream inner left p = call stream inner' left p := by
    simp only [call, list_congr hadv hafter (Nat.le_refl _)]
  have hbinary : binary stream inner floor left p = binary stream inner' floor left p := by
    simp only [binary, hafter _ (p + 1) (Nat.le_refl _)]
  have hconcat :
      concatenation stream inner floor left p = concatenation stream inner' floor left p := by
    simp only [concatenation, h _ p (Nat.le_refl _)]
  simp only [extend, hindex, hcall, hbinary, conditional_congr hadv h, hconcat]

theorem climbWithin_congr (hadv : Advances stream inner) (h : AgreeFrom n inner inner')
    (hp : n ≤ p) :
    climbWithin stream inner floor bound left p = climbWithin stream inner' floor bound left p := by
  induction bound generalizing left p with
  | zero => rfl
  | succ bound ih =>
    simp only [climbWithin]
    rw [← extend_congr hadv (h.mono hp)]
    refine bind_congr_ok fun outcome hextend => ?_
    rcases outcome with _ | ⟨longer, next⟩
    · rfl
    · have hlt := ((extend_reads hextend).2.advances hadv).1
      exact ih (by omega)

/-! ## The bounds are never reached -/

theorem extend_eq_absent_of_size_le (h : stream.size ≤ p) :
    extend stream inner floor left p = .ok none := by
  have hend : stream.continues p = false := by
    refine Bool.eq_false_iff.mpr fun hcontinues => ?_
    have := Stream.lt_size_of_continues hcontinues
    omega
  simp [extend, hend]

theorem climbWithin_bound (hadv : Advances stream inner) {bound' : Nat}
    (h : stream.size - p ≤ bound) (h' : stream.size - p ≤ bound') :
    climbWithin stream inner floor bound left p = climbWithin stream inner floor bound' left p := by
  induction bound generalizing bound' left p with
  | zero =>
    cases bound' with
    | zero => rfl
    | succ bound' =>
      simp only [climbWithin]
      rw [extend_eq_absent_of_size_le (by omega)]
      rfl
  | succ bound ih =>
    cases bound' with
    | zero =>
      simp only [climbWithin]
      rw [extend_eq_absent_of_size_le (by omega)]
      rfl
    | succ bound' =>
      simp only [climbWithin]
      refine bind_congr_ok fun outcome hextend => ?_
      rcases outcome with _ | ⟨longer, next⟩
      · rfl
      · have hlt := ((extend_reads hextend).2.advances hadv).1
        exact ih (by omega) (by omega)

/-- Climbing takes a step and goes on from there, until there is none. -/
theorem climb_eq (hadv : Advances stream inner) (floor : Floor) (left : Expr) (p : Nat) :
    climb stream inner floor left p = (do
      match ← extend stream inner floor left p with
      | none => .ok (left, p)
      | some (longer, next) => climb stream inner floor longer next) := by
  have hbound : climb stream inner floor left p =
      climbWithin stream inner floor (stream.size - p + 1) left p :=
    climbWithin_bound hadv (Nat.le_refl _) (by omega)
  rw [hbound]
  simp only [climbWithin, climb]
  refine bind_congr_ok fun outcome hextend => ?_
  rcases outcome with _ | ⟨longer, next⟩
  · rfl
  · have hlt := ((extend_reads hextend).2.advances hadv).1
    exact climbWithin_bound hadv (by omega) (Nat.le_refl _)

theorem expressionWithin_bound {bound' : Nat} (h : stream.size - p ≤ bound)
    (h' : stream.size - p ≤ bound') :
    expressionWithin stream bound floor p = expressionWithin stream bound' floor p := by
  have hend : ∀ inner, stream.size ≤ p → primary stream inner p = .ok none := by
    intro inner hle
    simp [primary, Stream.token?_eq_none hle]
  induction bound generalizing bound' floor p with
  | zero =>
    cases bound' with
    | zero => rfl
    | succ bound' =>
      simp only [expressionWithin]
      rw [hend _ (by omega)]
      rfl
  | succ bound ih =>
    cases bound' with
    | zero =>
      simp only [expressionWithin]
      rw [hend _ (by omega)]
      rfl
    | succ bound' =>
      have hadv := expressionWithin_advances stream bound
      have hagree : AgreeFrom (p + 1) (expressionWithin stream bound)
          (expressionWithin stream bound') := by
        intro floor p' hp'
        refine ih (by omega) (by omega) fun inner hle => ?_
        simp [primary, Stream.token?_eq_none hle]
      simp only [expressionWithin]
      rw [← primary_congr hadv hagree]
      refine bind_congr_ok fun outcome hprimary => ?_
      rcases outcome with _ | ⟨left, next⟩
      · rfl
      · have hlt := ((primary_reads hprimary).advances hadv).1
        simp only [climb]
        rw [climbWithin_congr hadv hagree (by omega)]

/-- An expression is a primary expression and what its climb adds, where the expressions inside are
read by the same parser. -/
theorem expression_eq (stream : Stream) (floor : Floor) (p : Nat) :
    expression stream floor p = (do
      match ← primary stream (expression stream) p with
      | none => absent
      | some (left, next) => some <$> climb stream (expression stream) floor left next) := by
  have hadv := expressionWithin_advances stream (stream.size - p)
  have hagree : AgreeFrom (p + 1) (expressionWithin stream (stream.size - p)) (expression stream) :=
    fun floor p' hp' => expressionWithin_bound (by omega) (Nat.le_refl _)
  have hbound : expression stream floor p =
      expressionWithin stream (stream.size - p + 1) floor p :=
    expressionWithin_bound (Nat.le_refl _) (by omega)
  rw [hbound]
  simp only [expressionWithin]
  rw [← primary_congr hadv hagree]
  refine bind_congr_ok fun outcome hprimary => ?_
  rcases outcome with _ | ⟨left, next⟩
  · rfl
  · have hlt := ((primary_reads hprimary).advances hadv).1
    simp only [climb]
    rw [climbWithin_congr hadv hagree (by omega)]

/-! ## The end of the stream -/

theorem climb_of_size_le (h : stream.size ≤ p) (floor : Floor) (left : Expr) :
    climb stream (expression stream) floor left p = .ok (left, p) := by
  rw [climb_eq (expression_advances stream), extend_eq_absent_of_size_le h]
  rfl

/-- A string is an expression if the stream ends with it. -/
theorem expression_of_string {token : Token} {value : Value}
    (htoken : stream.token? p = some token) (hkind : token.kind = .string)
    (hvalue : literalValue stream token p = .ok value) (hsize : stream.size = p + 1)
    (floor : Floor) :
    expression stream floor p =
      .ok (some (.literal { value, raw := token.text, span := token.span }, p + 1)) := by
  have hprimary : primary stream (expression stream) p =
      .ok (some (.literal { value, raw := token.text, span := token.span }, p + 1)) := by
    simp [primary, htoken, hkind, literal, hvalue, ok_bind]
  rw [expression_eq, hprimary, ok_bind]
  simp only [climb_of_size_le (Nat.le_of_eq hsize)]
  rfl

/-! ## The way up -/

/-- The expressions that start at `p` and are passed on the way up under a floor: a primary
expression, and what each step makes of the one before. -/
inductive Climbs (stream : Stream) (floor : Floor) (p : Nat) : Expr → Nat → Prop
  | start {e : Expr} {q : Nat} : Primary stream (expression stream) p e q →
      Climbs stream floor p e q
  | step {left e : Expr} {m q : Nat} : Climbs stream floor p left m →
      stream.continues m = true → Step stream (expression stream) floor left m e q →
      Climbs stream floor p e q

/-- No step leads on from the position under the floor. -/
def Stops (stream : Stream) (floor : Floor) (p : Nat) : Prop :=
  ∃ left, extend stream (expression stream) floor left p = .ok none

theorem climb_climbs (hleft : Climbs stream floor p left m)
    (h : climb stream (expression stream) floor left m = .ok (e, q)) :
    Climbs stream floor p e q ∧ Stops stream floor q := by
  induction hn : stream.size - m using Nat.strongRecOn generalizing left m with
  | ind n ih =>
    rw [climb_eq (expression_advances stream), bind_eq_ok] at h
    obtain ⟨_ | ⟨longer, next⟩, hextend, h⟩ := h
    · cases h
      exact ⟨hleft, _, hextend⟩
    · obtain ⟨hcontinues, hstep⟩ := extend_reads hextend
      have hadv := hstep.advances (expression_advances stream)
      exact ih (stream.size - next) (by omega) (.step hleft hcontinues hstep) h rfl

/-- An expression is reached by climbing from its first token to where no step leads on. -/
theorem expression_climbs (h : expression stream floor p = .ok (some (e, q))) :
    Climbs stream floor p e q ∧ Stops stream floor q := by
  rw [expression_eq, bind_eq_ok] at h
  obtain ⟨_ | ⟨left, next⟩, hprimary, h⟩ := h
  · cases h
  · obtain ⟨result, hclimb, h⟩ := map_eq_ok.mp h
    cases h
    exact climb_climbs (.start (primary_reads hprimary)) hclimb

end HotkeyScript.Grammar
