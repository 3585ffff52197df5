import HotkeyScript.Proofs.Grammar.StatementEquation
import HotkeyScript.Proofs.Stream.Touching

/-!
# Parts of statements and logical lines

Commands, older assignments and older comparisons are made for one logical line. The text in them
never goes on over the end of the line. An expression does, where one of its tokens asks for an
operand: the operand is taken from wherever the next token stands. So does the colon of a condition,
and so do the words of an older comparison, which are looked for without regard to lines.

## Main definitions

* `Operator.asksOperand` — an operand has to follow the text.
* `Stream.isSeam` — the places at which an expression goes on over the end of a line.
* `Grammar.KeepsLine` — what holds of the tokens of a part of a statement.

## Main results

* `parse_keeps_lines` — the tokens of commands, older assignments and older comparisons.
-/

namespace HotkeyScript

/-- An operand has to follow the text: an operator, a sign of a condition, or the percent sign in
front of an expression. -/
def Operator.asksOperand (text : String) : Bool :=
  (leading? text).isSome || (binary? text).isSome || text == "?" || text == ":" || text == "%"

namespace Stream

variable (stream : Stream)

/-- A bracket of any shape opens at a position. -/
def opensBracket (position : Nat) : Bool :=
  stream.reads position "(" || stream.reads position "[" || stream.reads position "\x7b"

/-- No bracket opens between two positions. -/
def Bare (p q : Nat) : Prop :=
  ∀ i, p ≤ i → i < q → stream.opensBracket i = false

/-- An expression or a list of them goes on at the position wherever that is: the token before it
asks for an operand, or the token is a sign that has to come or that is looked for in any case. -/
def isSeam (position : Nat) : Bool :=
  (stream.previous? position).any (Operator.asksOperand ·.text) ||
    stream.reads position ":" || stream.reads position "," || stream.reads position "*"

variable {stream} {p q m n i : Nat}

theorem Bare.mono (h : stream.Bare p q) (hp : p ≤ m) (hq : n ≤ q) : stream.Bare m n :=
  fun i hm hn => h i (Nat.le_trans hp hm) (Nat.lt_of_lt_of_le hn hq)

theorem Bare.not_reads (h : stream.Bare p q) {text : String} (hi : p ≤ i) (hi' : i < q)
    (htext : text = "(" ∨ text = "[" ∨ text = "\x7b") : stream.reads i text = false := by
  have hnone := h i hi hi'
  simp only [opensBracket, Bool.or_eq_false_iff] at hnone
  rcases htext with rfl | rfl | rfl
  · exact hnone.1.1
  · exact hnone.1.2
  · exact hnone.2

/-- A token that asks for an operand makes a seam of the place behind it. -/
theorem isSeam_succ {token : Token} (h : stream.token? p = some token)
    (hasks : Operator.asksOperand token.text = true) : stream.isSeam (p + 1) = true := by
  simp [isSeam, h, hasks]

theorem isSeam_succ_of_reads {text : String} (h : stream.reads p text = true)
    (hasks : Operator.asksOperand text = true) : stream.isSeam (p + 1) = true := by
  obtain ⟨token, htoken, rfl⟩ := reads_iff.mp h
  exact isSeam_succ htoken hasks

end Stream

namespace Grammar

open Node (ofExpr)

variable {stream : Stream} {floor : Floor} {left e : Expr} {p q m n : Nat}

/-! ## Expressions -/

/-- The token carries on its logical line, or stands at a seam. -/
def Kept (stream : Stream) (i : Nat) : Prop :=
  stream.continues i = true ∨ stream.isSeam i = true

/-- All expressions from position `n` on in which no bracket opens are kept behind their first
token. -/
def KeptFrom (stream : Stream) (n : Nat) : Prop :=
  ∀ floor p e q, n ≤ p → expression stream floor p = .ok (some (e, q)) → stream.Bare p q →
    ∀ i, p < i → i < q → Kept stream i

theorem Primary.kept (h : KeptFrom stream (p + 1)) (hbare : stream.Bare p q)
    (hprimary : Primary stream (expression stream) p e q) :
    ∀ i, p < i → i < q → Kept stream i := by
  have hadv := hprimary.advances (expression_advances stream)
  have hbracket : ∀ {token : Token} {text : String}, stream.token? p = some token →
      token.text = text → (text = "(" ∨ text = "[" ∨ text = "\x7b") → False := by
    intro token text htoken htext hopens
    have hreads := hbare.not_reads (Nat.le_refl p) hadv.1 hopens
    rw [Stream.reads_iff.mpr ⟨token, htoken, htext⟩] at hreads
    cases hreads
  intro i hp hq
  cases hprimary with
  | identifier htoken => omega
  | literal htoken => omega
  | leading htoken hprecedence hinner =>
    rcases Nat.eq_or_lt_of_le hp with rfl | hlt
    · exact .inr (Stream.isSeam_succ htoken (by simp [Operator.asksOperand, hprecedence]))
    · exact h _ _ _ _ (Nat.le_refl _) hinner (hbare.mono (Nat.le_succ p) (Nat.le_refl q)) i hlt hq
  | group hopen hinner hclose =>
    obtain ⟨token, htoken, htext⟩ :=
      Stream.reads_iff.mp (Expected.reads (c := '(') hopen (by decide) (by decide))
    exact (hbracket htoken htext (.inl rfl)).elim
  | array htoken hlist hclose htext => exact (hbracket htoken htext (.inr (.inl rfl))).elim
  | emptyObject htoken hbrace htext => exact (hbracket htoken htext (.inr (.inr rfl))).elim
  | object htoken hproperties htext => exact (hbracket htoken htext (.inr (.inr rfl))).elim

theorem Step.kept (h : KeptFrom stream (p + 1)) (hp : p < m) (hbare : stream.Bare m q)
    (hcontinues : stream.continues m = true)
    (hstep : Step stream (expression stream) floor left m e q) :
    ∀ i, m ≤ i → i < q → Kept stream i := by
  have hadv := hstep.advances (expression_advances stream)
  have hbracket : ∀ {text : String}, stream.reads m text = true →
      (text = "(" ∨ text = "[" ∨ text = "\x7b") → False := by
    intro text hreads hopens
    rw [hbare.not_reads (Nat.le_refl m) hadv.1 hopens] at hreads
    cases hreads
  intro i hm hq
  rcases Nat.eq_or_lt_of_le hm with rfl | hm
  · exact .inl hcontinues
  cases hstep with
  | dotMember hdot hname =>
    obtain rfl : i = m + 1 := by omega
    exact .inr (Stream.isSeam_succ_of_reads hdot (by decide))
  | indexMember hopen => exact (hbracket hopen (.inr (.inl rfl))).elim
  | call hopen => exact (hbracket hopen (.inl rfl)).elim
  | binary htoken hprecedence hadmits hinner =>
    rcases Nat.eq_or_lt_of_le hm with rfl | hm
    · exact .inr (Stream.isSeam_succ htoken (by simp [Operator.asksOperand, hprecedence]))
    · exact h _ _ _ _ (by omega) hinner (hbare.mono (Nat.le_succ m) (Nat.le_refl q)) i hm hq
  | trailing htoken => omega
  | @conditional _ _ colon _ hreads hadmits hconsequent hcolon halternate =>
    have hlt := (expression_advances stream _ _ _ _ hconsequent).1
    have hlt' := (expression_advances stream _ _ _ _ halternate).1
    have hcolon := Expected.reads (c := ':') hcolon (by decide) (by decide)
    rcases Nat.eq_or_lt_of_le hm with rfl | hm
    · exact .inr (Stream.isSeam_succ_of_reads hreads (by decide))
    rcases Nat.lt_trichotomy i colon with hi | rfl | hi
    · exact h _ _ _ _ (by omega) hconsequent (hbare.mono (Nat.le_succ m) (by omega)) i hm hi
    · exact .inr (by simp [Stream.isSeam, show stream.reads i ":" = true from hcolon])
    rcases Nat.eq_or_lt_of_le hi with rfl | hi
    · exact .inr (Stream.isSeam_succ_of_reads hcolon (by decide))
    · exact h _ _ _ _ (by omega) halternate (hbare.mono (by omega) (Nat.le_refl q)) i hi hq
  | concat hadmits hline hinner =>
    exact h _ _ _ _ (by omega) hinner (hbare.mono (Nat.le_refl m) (Nat.le_refl q)) i hm hq

theorem Climbs.keptFrom (h : KeptFrom stream (p + 1)) (hclimbs : Climbs stream floor p e q)
    (hbare : stream.Bare p q) : ∀ i, p < i → i < q → Kept stream i := by
  induction hclimbs with
  | start hprimary => exact hprimary.kept h hbare
  | @step _ _ m q hclimbs hcontinues hstep ih =>
    have hp := (hclimbs.written upholds_true).lt
    have hm := (hstep.advances (expression_advances stream)).1
    intro i hpi hiq
    rcases Nat.lt_or_ge i m with him | hmi
    · exact ih (hbare.mono (Nat.le_refl p) (Nat.le_of_lt hm)) i hpi him
    · exact hstep.kept h hp (hbare.mono (Nat.le_of_lt hp) (Nat.le_refl q)) hcontinues i hmi hiq

theorem expression_kept : KeptFrom stream n := by
  -- by induction on the number of tokens from the start on: the expressions inside start later
  suffices h : ∀ bound n, stream.size - n ≤ bound → KeptFrom stream n from
    h (stream.size - n) n (Nat.le_refl _)
  intro bound
  induction bound with
  | zero =>
    intro n hbound floor p e q hp hexpression
    have := expression_advances stream _ _ _ _ hexpression
    omega
  | succ bound ih =>
    intro n hbound floor p e q hp hexpression
    have hadv := expression_advances stream _ _ _ _ hexpression
    exact (expression_climbs hexpression).1.keptFrom (ih (p + 1) (by omega))

/-! ## Lists -/

variable {slot : Option Expr} {slots : List (Option Expr)}

theorem Slot.kept (hslot : Slot stream (expression stream) slot p q) (hbare : stream.Bare p q) :
    ∀ i, p < i → i < q → Kept stream i := by
  intro i hp hq
  cases hslot with
  | empty => omega
  | element hinner => exact expression_kept _ _ _ _ (Nat.le_refl p) hinner hbare i hp hq
  | @variadic _ _ m hinner hstar =>
    rcases Nat.lt_or_eq_of_le (Nat.le_of_lt_succ hq) with hi | rfl
    · exact expression_kept _ _ _ _ (Nat.le_refl p) hinner
        (hbare.mono (Nat.le_refl p) (Nat.le_succ m)) i hp hi
    · exact .inr (by simp [Stream.isSeam, hstar])

theorem Slots.kept (hslots : Slots stream (expression stream) slots p q)
    (hbare : stream.Bare p q) : ∀ i, p < i → i < q → Kept stream i := by
  induction hslots with
  | last hslot => exact hslot.kept hbare
  | @cons slot slots p m q hslot hcomma hrest ih =>
    have hpm := (hslot.advances (expression_advances stream)).1
    have hmq := (hrest.advances (expression_advances stream)).1
    intro i hp hq
    rcases Nat.lt_trichotomy i m with hi | rfl | hi
    · exact hslot.kept (hbare.mono (Nat.le_refl p) (by omega)) i hp hi
    · exact .inr (by simp [Stream.isSeam, hcomma])
    rcases Nat.eq_or_lt_of_le hi with rfl | hi
    · exact .inr (Stream.isSeam_succ_of_reads hcomma (by decide))
    · exact ih (hbare.mono (by omega) (Nat.le_refl q)) i hi hq

theorem expressionArguments_kept {arguments : List (Option Expr)}
    (h : expressionArguments stream p = .ok (arguments, q)) (hbare : stream.Bare p q) :
    ∀ i, p ≤ i → i < q → Kept stream i := by
  unfold expressionArguments at h
  split at h
  · next hcontinues =>
    simp only [bind_eq_ok] at h
    obtain ⟨⟨elements, next⟩, hlist, h⟩ := h
    simp only at h
    split at h
    · cases h
    · cases h
      intro i hp hq
      rcases Nat.eq_or_lt_of_le hp with rfl | hp
      · exact .inl hcontinues
      · rcases list_reads hlist with ⟨rfl, rfl⟩ | hslots
        · omega
        · exact hslots.kept hbare i hp hq
  · simp only [bind_eq_ok, Except.ok.injEq, exists_eq_left'] at h
    split at h
    · cases h
    · cases h
      intro i hp hq
      omega

/-! ## Literal text and parameters -/

theorem legacyText?_continues {halt : Nat → Bool} {text : LegacyLiteral}
    (h : legacyText? stream halt p = some (text, q)) :
    ∀ i, p ≤ i → i < q → stream.continues i = true := by
  simp only [legacyText?] at h
  split at h
  · cases h
  · cases h
    intro i hp hq
    have hskipped := stream.holds_of_lt_skip hp hq
    simp only [Bool.and_eq_true] at hskipped
    exact hskipped.1

/-- The position lies behind a percent sign, in the expression that the sign makes of an
argument. -/
def InForced (stream : Stream) (arguments : List (Option Expr)) (p q i : Nat) : Prop :=
  ∃ e a b, some e ∈ arguments ∧ p ≤ a ∧ b ≤ q ∧ stream.reads a "%" = true ∧
    expression stream (.above Operator.comma) (a + 1) = .ok (some (e, b)) ∧ a < i ∧ i < b

theorem InForced.mono {arguments arguments' : List (Option Expr)} {i p' q' : Nat}
    (h : InForced stream arguments p q i) (hsub : arguments ⊆ arguments') (hp : p' ≤ p)
    (hq : q ≤ q') : InForced stream arguments' p' q' i := by
  obtain ⟨e, a, b, hmem, ha, hb, hpercent, hexpression, hi, hi'⟩ := h
  exact ⟨e, a, b, hsub hmem, by omega, by omega, hpercent, hexpression, hi, hi'⟩

/-- Everything in an argument is on the line, apart from what stands in a forced expression. -/
theorem param_kept {halt : Nat → Bool} {first : Option Expr}
    (h : param stream halt p = .ok (first, q)) (hcontinues : stream.continues p = true) :
    ∀ i, p ≤ i → i < q → stream.continues i = true ∨ InForced stream [first] p q i := by
  intro i hp hq
  unfold param at h
  split at h
  · next hforces =>
    simp only [forcesExpression, Bool.and_eq_true] at hforces
    simp only [bind_eq_ok, required_eq_ok] at h
    obtain ⟨⟨e, next⟩, hexpression, h⟩ := h
    simp only at h
    split at h
    · cases h
    · cases h
      rcases Nat.eq_or_lt_of_le hp with rfl | hlt
      · exact .inl hcontinues
      · exact .inr ⟨e, p, q, List.mem_singleton.mpr rfl, Nat.le_refl p, Nat.le_refl q,
          hforces.1.1, hexpression, hlt, hq⟩
  · split at h
    · cases h
      omega
    · next text next htext =>
      cases h
      exact .inl (legacyText?_continues htext i hp hq)

theorem paramsWithin_kept {halt : Nat → Bool} {bound : Nat} {arguments : List (Option Expr)}
    (h : paramsWithin stream halt bound p = .ok (arguments, q)) :
    ∀ i, p ≤ i → i < q → stream.continues i = true ∨ InForced stream arguments p q i := by
  induction bound generalizing arguments p with
  | zero =>
    cases h
    intro i hp hq
    omega
  | succ bound ih =>
    intro i hp hq
    simp only [paramsWithin] at h
    split at h
    · cases h
      omega
    · next hguard =>
      simp only [Bool.not_eq_eq_eq_not, Bool.not_true, Bool.or_eq_true, not_or,
        Bool.not_eq_false, Bool.not_eq_true] at hguard
      split at h
      · obtain ⟨⟨rest, stop⟩, hrest, h⟩ := bind_eq_ok.mp h
        cases h
        rcases Nat.eq_or_lt_of_le hp with rfl | hlt
        · exact .inl hguard.1
        · refine (ih hrest i hlt hq).imp_right fun hforced => ?_
          exact hforced.mono (List.subset_cons_self _ _) (Nat.le_succ p) (Nat.le_refl _)
      · simp only [bind_eq_ok] at h
        obtain ⟨⟨first, next⟩, hfirst, ⟨rest, stop⟩, hrest, h⟩ := h
        cases h
        simp only at hrest
        have hle := (param_reads hfirst).bounds.1
        have hle' := (paramsWithin_reads hrest).bounds.1
        have hnext : next ≤ if isDelimiter stream next = true then next + 1 else next := by
          split <;> omega
        rcases Nat.lt_or_ge i next with hi | hi
        · refine (param_kept hfirst hguard.1 i hp hi).imp_right fun hforced => ?_
          exact hforced.mono (by simp) (Nat.le_refl p) (by omega)
        · split at hrest
          · next hdelimiter =>
            rcases Nat.eq_or_lt_of_le hi with rfl | hi
            · simp only [isDelimiter, Stream.continuesWith, Bool.and_eq_true] at hdelimiter
              exact .inl hdelimiter.1.1.1
            · refine (ih hrest i hi hq).imp_right fun hforced => ?_
              exact hforced.mono (List.subset_cons_self _ _) (by omega) (Nat.le_refl _)
          · refine (ih hrest i hi hq).imp_right fun hforced => ?_
            exact hforced.mono (List.subset_cons_self _ _) hle (Nat.le_refl _)

/-- No expression is literal text. -/
theorem kind_ne_legacyLiteral (h : expression stream floor p = .ok (some (e, q))) :
    e.kind ≠ .legacyLiteral := by
  cases (expression_climbs h).1 with
  | start hprimary => cases hprimary <;> exact nofun
  | step hclimbs hcontinues hstep => cases hstep <;> exact nofun

/-! ## Statements -/

variable {source : Source}

/-- What a command is made of: its name, which a hash may touch, and its arguments. -/
theorem command_parts {s : Stmt} (h : command stream p = .ok (some (s, q))) :
    ∃ head token hash arguments span, stream.token? head = some token ∧
      (head = p ∨ head = p + 1 ∧ stream.touchesPrevious (p + 1) = true) ∧
      s = .command (identifier token) hash arguments span ∧
      (if expressionCommands.any (token.is ·) then
          expressionArguments stream (skipComma stream (head + 1))
        else params stream (fun _ => false) (skipComma stream (head + 1))) = .ok (arguments, q) := by
  obtain ⟨token, arguments, htoken, -, harguments, rfl⟩ := exists_of_command h
  refine ⟨commandHead stream p, token, _, arguments, _, htoken, ?_, rfl, harguments⟩
  unfold commandHead
  split
  · next hhash =>
    simp only [isHash, Bool.and_eq_true] at hhash
    exact .inr ⟨rfl, hhash.2⟩
  · exact .inl rfl

/-- The line goes on up to the first argument of a command. -/
theorem continues_of_lt_skipComma {head i : Nat}
    (hhead : head = p ∨ head = p + 1 ∧ (Stream.ofSource source).touchesPrevious (p + 1) = true)
    (hp : p < i) (hi : i < skipComma (Stream.ofSource source) (head + 1)) :
    (Stream.ofSource source).continues i = true := by
  unfold skipComma at hi
  rcases Nat.lt_or_ge head i with hlt | hge
  · -- a comma behind the name
    split at hi
    · next hcomma =>
      simp only [Stream.continuesWith, Bool.and_eq_true] at hcomma
      obtain rfl : i = head + 1 := by omega
      exact hcomma.1
    · omega
  · -- the name behind a hash
    rcases hhead with rfl | ⟨rfl, htouches⟩
    · omega
    · obtain rfl : i = p + 1 := by omega
      exact Stream.continues_of_touchesPrevious htouches

/-- The command takes literal text, and none of its arguments is an expression. -/
def HasText (name : Identifier) (arguments : List (Option Expr)) : Prop :=
  expressionCommands.any (Text.sameText name.name ·) = false ∧
    ∀ e, some e ∈ arguments → e.kind = .legacyLiteral

theorem command_kept {name : Identifier} {hash : Bool} {arguments : List (Option Expr)}
    {span : Span}
    (h : command (Stream.ofSource source) p = .ok (some (.command name hash arguments span, q))) :
    (HasText name arguments → ∀ i, p < i → i < q → (Stream.ofSource source).continues i = true) ∧
    ((Stream.ofSource source).Bare p q →
      ∀ i, p < i → i < q → Kept (Stream.ofSource source) i) := by
  obtain ⟨head, token, _, _, _, htoken, hhead, heq, harguments⟩ := command_parts h
  cases heq
  have hfront := @continues_of_lt_skipComma p source head
  have hskip := skipComma_bounds (Stream.lt_size_of_token? htoken)
  generalize skipComma (Stream.ofSource source) (head + 1) = start at harguments hfront hskip
  split at harguments
  · next hexpressions =>
    refine ⟨fun htext => ?_, fun hbare i hp hq => ?_⟩
    · rw [show expressionCommands.any (token.is ·) = false from htext.1] at hexpressions
      cases hexpressions
    · rcases Nat.lt_or_ge i start with hi | hi
      · exact .inl (hfront hhead hp hi)
      · exact expressionArguments_kept harguments (hbare.mono (by omega) (Nat.le_refl q)) i hi hq
  · have hkept := paramsWithin_kept harguments
    refine ⟨fun htext i hp hq => ?_, fun hbare i hp hq => ?_⟩
    · rcases Nat.lt_or_ge i start with hi | hi
      · exact hfront hhead hp hi
      · refine (hkept i hi hq).resolve_right ?_
        rintro ⟨e, a, b, hmem, -, -, -, hexpression, -⟩
        exact kind_ne_legacyLiteral hexpression (htext.2 e hmem)
    · rcases Nat.lt_or_ge i start with hi | hi
      · exact .inl (hfront hhead hp hi)
      · rcases hkept i hi hq with hcontinues | ⟨e, a, b, -, ha, hb, hpercent, hexpression, hai, hib⟩
        · exact .inl hcontinues
        rcases Nat.eq_or_lt_of_le hai with rfl | hai
        · exact .inr (Stream.isSeam_succ_of_reads hpercent (by decide))
        · exact expression_kept _ _ _ _ (Nat.zero_le _) hexpression
            (hbare.mono (by omega) hb) i hai hib

theorem legacyAssignment_continues
    (h : legacyAssignment stream p = some (e, q)) :
    ∀ i, p < i → i < q → stream.continues i = true := by
  intro i hp hq
  unfold legacyAssignment at h
  split at h
  · cases h
  split at h
  · next hguard =>
    simp only [Bool.and_eq_true, Stream.continuesWith] at hguard
    rcases Nat.eq_or_lt_of_le hp with rfl | hp
    · exact hguard.2.1
    rcases htext : legacyText? stream (fun _ => false) (p + 2) with _ | ⟨text, next⟩
    · simp only [htext] at h
      cases h
      omega
    · simp only [htext] at h
      cases h
      exact legacyText?_continues htext i hp hq
  · cases h

/-- A word of an older comparison stands at a position. -/
def isComparisonWord (stream : Stream) (position : Nat) : Bool :=
  comparisonWords.flatten.any fun word => (stream.token? position).any (·.is word)

theorem isComparisonWord_of_readsWords {words : List String} {i : Nat}
    (h : stream.readsWords p words = true) (hwords : words ⊆ comparisonWords.flatten)
    (hp : p ≤ i) (hi : i < p + words.length) : isComparisonWord stream i = true := by
  induction words generalizing p with
  | nil =>
    simp only [List.length_nil] at hi
    omega
  | cons word words ih =>
    simp only [Stream.readsWords, Bool.and_eq_true, List.length_cons] at h hi
    rcases Nat.eq_or_lt_of_le hp with rfl | hp
    · exact List.any_eq_true.mpr ⟨word, hwords List.mem_cons_self, h.1⟩
    · exact ih h.2 (fun _ hmem => hwords (List.mem_cons_of_mem _ hmem)) hp (by omega)

theorem legacyComparison_continues
    (h : legacyComparison stream p = .ok (some (e, q))) :
    ∀ i, p < i → i < q →
      stream.continues i = true ∨ i ≤ p + 2 ∧ isComparisonWord stream i = true := by
  intro i hp hq
  unfold legacyComparison at h
  split at h
  · cases h
  split at h
  · split at h
    · cases h
    · next words hwords =>
      have hmem := List.mem_of_find?_eq_some hwords
      have hreads := List.find?_some hwords
      have hlength : words.length ≤ 2 := by
        have hall : ∀ words ∈ comparisonWords, words.length ≤ 2 := by decide
        exact hall words hmem
      simp only at h
      split at h
      · cases h
      · next right stop hright =>
        cases h
        rcases Nat.lt_or_ge i (p + 1 + words.length) with hi | hi
        · refine .inr ⟨by omega, isComparisonWord_of_readsWords hreads ?_ hp hi⟩
          exact fun word hword => List.mem_flatten.mpr ⟨words, hmem, hword⟩
        · exact .inl (legacyText?_continues hright i hi hq)
  · cases h

/-- What a part of a statement keeps on its line; other nodes are free. -/
def KeepsLine (stream : Stream) : Node → Nat → Nat → Prop
  | .expr (.legacyAssignment ..), p, q => ∀ i, p < i → i < q → stream.continues i = true
  | .expr (.legacyComparison ..), p, q => ∀ i, p < i → i < q →
      stream.continues i = true ∨ i ≤ p + 2 ∧ isComparisonWord stream i = true
  | .stmt (.command name _ arguments _), p, q =>
      (HasText name arguments → ∀ i, p < i → i < q → stream.continues i = true) ∧
      (stream.Bare p q → ∀ i, p < i → i < q → Kept stream i)
  | _, _, _ => True

theorem upholds_keepsLine :
    Upholds (Stream.ofSource source) (KeepsLine (Stream.ofSource source)) where
  primary hprimary := by cases hprimary <;> trivial
  step _ _ hstep := by cases hstep <;> trivial
  name _ := trivial
  text _ := trivial
  key _ := trivial
  block _ _ _ := trivial
  command := command_kept
  hotkey _ := trivial
  assignment := legacyAssignment_continues
  comparison := legacyComparison_continues
  plain {node _ _} hplain := by
    cases node with
    | stmt s => cases s <;> trivial
    | expr e => cases e <;> trivial
    | _ => trivial

end Grammar

open Grammar

variable {source : Source} {script : Script}

/-- An older assignment stands on one logical line. So does an older comparison, apart from its
words. So does a command with literal text. A command with an expression in which no bracket opens
stands on one line too, apart from the seams of the expression. -/
theorem parse_keeps_lines (h : parse source = .ok script) :
    (∀ name right span, (Node.script script).Within (.expr (.legacyAssignment name right span)) →
      ∃ p q, (Stream.ofSource source).Covers span p q ∧
        ∀ i, p < i → i < q → (Stream.ofSource source).continues i = true) ∧
    (∀ operator name right span,
      (Node.script script).Within (.expr (.legacyComparison operator name right span)) →
      ∃ p q, (Stream.ofSource source).Covers span p q ∧
        ∀ i, p < i → i < q → (Stream.ofSource source).continues i = true ∨
          i ≤ p + 2 ∧ isComparisonWord (Stream.ofSource source) i = true) ∧
    ∀ name hash arguments span,
      (Node.script script).Within (.stmt (.command name hash arguments span)) →
      ∃ p q, (Stream.ofSource source).Covers span p q ∧
        (HasText name arguments →
          ∀ i, p < i → i < q → (Stream.ofSource source).continues i = true) ∧
        ((Stream.ofSource source).Bare p q →
          ∀ i, p < i → i < q → (Stream.ofSource source).continues i = true ∨
            (Stream.ofSource source).isSeam i = true) := by
  obtain ⟨hwritten, -⟩ := parse_written upholds_keepsLine h
  have hrun : ∀ node, (Node.script script).Within node → node ≠ .script script →
      ∃ p q, (Stream.ofSource source).Covers node.span p q ∧
        KeepsLine (Stream.ofSource source) node p q := by
    intro node hwithin hne
    obtain ⟨p, q, hnode⟩ := (hwritten.of_within hwithin).resolve_left hne
    exact ⟨p, q, hnode.covers, hnode.holds⟩
  exact ⟨fun _ _ _ hwithin => hrun _ hwithin nofun, fun _ _ _ _ hwithin => hrun _ hwithin nofun,
    fun _ _ _ _ hwithin => hrun _ hwithin nofun⟩

/-- A comparison with its words on its line, and commands with text and with an expression. -/
theorem parse_keeps_lines_mixed :
    ∃ script, parse "x = a\n. b\nif x in y\nMsgBox, c\nreturn b +\nc".toList = .ok script ∧
      script.body.map Stmt.kind = [.legacyAssignment, .branch, .command] ∧
      ∀ name right span, (Node.script script).Within (.expr (.legacyAssignment name right span)) →
        ∃ p q, (Stream.ofSource "x = a\n. b\nif x in y\nMsgBox, c\nreturn b +\nc".toList).Covers
          span p q ∧ ∀ i, p < i → i < q → (Stream.ofSource
            "x = a\n. b\nif x in y\nMsgBox, c\nreturn b +\nc".toList).continues i = true := by
  have hkinds : (parse "x = a\n. b\nif x in y\nMsgBox, c\nreturn b +\nc".toList).toOption.map
      (·.body.map Stmt.kind) = some [.legacyAssignment, .branch, .command] := by decide +kernel
  obtain ⟨script, h, hbody⟩ := exists_of_toOption_map hkinds
  exact ⟨script, h, hbody, (parse_keeps_lines h).1⟩

/-- The word of a comparison is taken from the line below, and so is an operand of a command,
although neither carries on the line above. -/
theorem parse_crosses_lines :
    (∃ script node, parse "if x\nin y\nz".toList = .ok script ∧
      (Node.script script).Within node ∧ node.kind = .legacyComparison ∧
      (Stream.ofSource "if x\nin y\nz".toList).Covers node.span 1 4 ∧
      (Stream.ofSource "if x\nin y\nz".toList).continues 2 = false) ∧
    ∃ script node, parse "return a +\nb".toList = .ok script ∧
      (Node.script script).Within node ∧ node.kind = .command ∧
      (Stream.ofSource "return a +\nb".toList).Covers node.span 0 4 ∧
      (Stream.ofSource "return a +\nb".toList).Bare 0 4 ∧
      (Stream.ofSource "return a +\nb".toList).continues 3 = false := by
  have hword : (parse "if x\nin y\nz".toList).toOption.map (fun script =>
      (script.body.flatMap fun s => (Node.ofStmt s).children).map fun node =>
        (node.kind, node.span)) =
      some [(.legacyComparison, ⟨3, 9, 0, 3⟩), (.command, ⟨10, 11, 2, 0⟩)] := by decide +kernel
  have hoperand : (parse "return a +\nb".toList).toOption.map (fun script =>
      (script.body.map Node.ofStmt).map fun node => (node.kind, node.span)) =
      some [(.command, ⟨0, 12, 0, 0⟩)] := by decide +kernel
  constructor
  · obtain ⟨script, h, hnodes⟩ := exists_of_toOption_map hword
    obtain ⟨node, hnode, hview⟩ := List.mem_map.mp (hnodes ▸ List.mem_cons_self)
    obtain ⟨s, hs, hnode⟩ := List.mem_flatMap.mp hnode
    obtain ⟨hkind, hspan⟩ := Prod.mk.inj hview
    refine ⟨script, node, h, .child (.child .self (List.mem_map_of_mem hs)) hnode, hkind, ?_,
      by decide +kernel⟩
    rw [hspan]
    exact ⟨by decide, ⟨.word, "x", ⟨3, 4, 0, 3⟩, false⟩, ⟨.word, "y", ⟨8, 9, 1, 3⟩, false⟩,
      by decide +kernel, by decide +kernel, rfl⟩
  · obtain ⟨script, h, hnodes⟩ := exists_of_toOption_map hoperand
    obtain ⟨node, hnode, hview⟩ := List.mem_map.mp (hnodes ▸ List.mem_cons_self)
    obtain ⟨hkind, hspan⟩ := Prod.mk.inj hview
    have hbare : ∀ i < 4, (Stream.ofSource "return a +\nb".toList).opensBracket i = false := by
      decide +kernel
    refine ⟨script, node, h, .child .self hnode, hkind, ?_, fun i _ hi => hbare i hi,
      by decide +kernel⟩
    rw [hspan]
    exact ⟨by decide, ⟨.word, "return", ⟨0, 6, 0, 0⟩, true⟩, ⟨.word, "b", ⟨11, 12, 1, 0⟩, true⟩,
      by decide +kernel, by decide +kernel, rfl⟩

end HotkeyScript
