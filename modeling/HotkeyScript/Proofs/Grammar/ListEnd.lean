import HotkeyScript.Proofs.Grammar.Operand
import HotkeyScript.Tree.Node

/-!
# Where a list ends

A list of expressions takes a comma, a star behind an element and an operand wherever they stand: it
never asks whether the line goes on. So whether it reads on at a position follows from the token
there and from its last place. Behind an element a star makes it variadic; behind a variadic element
an operand turns the star into a product; an empty place takes an operand.

## Main definitions

* `Grammar.readsOn` — a list with given elements reads on at a position.
-/

namespace HotkeyScript.Grammar

variable {stream : Stream} {p q : Nat} {floor : Floor} {e : Expr} {element : Option Expr}
  {elements : List (Option Expr)}

/-- The last place of a list reads on at a position. -/
def slotReadsOn (stream : Stream) (element : Option Expr) (p : Nat) : Bool :=
  if element.all (·.kind = .variadic) then startsOperand stream p else stream.reads p "*"

/-- A list with the given elements reads on at a position. -/
def readsOn (stream : Stream) (elements : List (Option Expr)) (p : Nat) : Bool :=
  stream.reads p "," || slotReadsOn stream elements.getLast?.join p

@[simp] theorem slotReadsOn_none (stream : Stream) (p : Nat) :
    slotReadsOn stream none p = startsOperand stream p := rfl

theorem readsOn_singleton (stream : Stream) (element : Option Expr) (p : Nat) :
    readsOn stream [element] p = (stream.reads p "," || slotReadsOn stream element p) := rfl

theorem readsOn_cons (stream : Stream) (element : Option Expr) (h : elements ≠ []) (p : Nat) :
    readsOn stream (element :: elements) p = readsOn stream elements p := by
  obtain ⟨next, rest, rfl⟩ := List.exists_cons_of_ne_nil h
  rw [readsOn, List.getLast?_cons_cons, readsOn]

/-! ## The star behind an element -/

/-- No expression is variadic by itself. -/
theorem kind_ne_variadic (h : expression stream floor p = .ok (some (e, q))) :
    e.kind ≠ .variadic := by
  obtain ⟨hclimbs, -⟩ := expression_climbs h
  cases hclimbs with
  | start hprimary => cases hprimary <;> exact nofun
  | step _ _ hstep => cases hstep <;> exact nofun

theorem Slot.reads_star (h : Slot stream (expression stream) (some e) p q)
    (hvariadic : e.kind = .variadic) : stream.reads (q - 1) "*" = true := by
  cases h with
  | element hinner => exact absurd hvariadic (kind_ne_variadic hinner)
  | variadic _ hstar => exact hstar

/-- An expression that ends before a star on its line has no operand behind the star. -/
theorem startsOperand_of_stops {precedence : Nat}
    (h : Stops stream (.above precedence) p) (hcontinues : stream.continues p = true)
    (hstar : stream.reads p "*" = true) (hprecedence : precedence < 13) :
    startsOperand stream (p + 1) = false := by
  obtain ⟨left, h⟩ := h
  obtain ⟨token, htoken, htext⟩ := Stream.reads_iff.mp hstar
  have hbinary : Operator.binary? token.text = some 13 := by rw [htext]; decide
  have hadmits : (Floor.above precedence).admitsBinary 13 = true := by
    simp [Floor.admitsBinary, hprecedence]
  simp only [extend, hcontinues, if_true, orTry_eq_absent] at h
  obtain ⟨-, -, -, h, -⟩ := h
  simp only [binary, htoken, hbinary, hadmits, if_true, bind_eq_ok] at h
  obtain ⟨_ | ⟨right, next⟩, hright, h⟩ := h
  · exact (expression_eq_none_iff stream _ _).mp hright
  · cases h

/-! ## The end -/

theorem slotReadsOn_of_slot (h : slot stream (expression stream) p = .ok (element, q))
    (hcontinues : stream.continues (q - 1) = true) : slotReadsOn stream element q = false := by
  simp only [slot, bind_eq_ok] at h
  obtain ⟨_ | ⟨e, next⟩, hinner, h⟩ := h
  · cases h
    exact (expression_eq_none_iff stream _ _).mp hinner
  · simp only at h
    split at h
    · next hstar =>
      cases h
      exact startsOperand_of_stops (expression_climbs hinner).2 hcontinues hstar (by decide)
    · next hstar =>
      cases h
      simpa [slotReadsOn, kind_ne_variadic hinner] using hstar

theorem slots_ne_nil {inner : ExprParser} (h : Slots stream inner elements p q) :
    elements ≠ [] := by
  cases h <;> exact List.cons_ne_nil _ _

/-- A list ends where it does not read on, if its last token carries on the line. -/
theorem readsOn_of_slots (h : slots stream (expression stream) p = .ok (elements, q))
    (hcontinues : stream.continues (q - 1) = true) : readsOn stream elements q = false := by
  induction hn : stream.size - p using Nat.strongRecOn generalizing p elements with
  | ind n ih =>
    rw [slots_eq (expression_advances stream), slotsRound, bind_eq_ok] at h
    obtain ⟨⟨element, next⟩, hslot, h⟩ := h
    have hbounds := (slot_reads hslot).advances (expression_advances stream)
    simp only at h
    split at h
    · next hcomma =>
      have hlt := Stream.lt_size_of_reads hcomma
      obtain ⟨⟨rest, stop⟩, hrest, h⟩ := bind_eq_ok.mp h
      cases h
      rw [readsOn_cons _ _ (slots_ne_nil (slotsWithin_reads hrest))]
      exact ih _ (by omega) hrest rfl
    · next hcomma =>
      cases h
      rw [readsOn_singleton, slotReadsOn_of_slot hslot hcontinues]
      simpa using hcomma

theorem readsOn_of_list (h : list stream (expression stream) p = .ok (elements, q))
    (hne : elements ≠ []) (hcontinues : stream.continues (q - 1) = true) :
    readsOn stream elements q = false := by
  rw [list_eq, bind_eq_ok] at h
  obtain ⟨⟨places, stop⟩, hslots, h⟩ := h
  split at h
  · cases h
    exact absurd rfl hne
  · next heq =>
    cases heq
    cases h
    exact readsOn_of_slots hslots hcontinues

/-- The last place of a list is empty only behind a comma. -/
theorem Slots.reads_comma {inner : ExprParser} (h : Slots stream inner elements p q)
    (hlast : elements.getLast?.join = none) :
    q = p ∨ stream.reads (q - 1) "," = true := by
  induction h with
  | last hslot =>
    cases hslot with
    | empty => exact .inl rfl
    | _ => cases hlast
  | @cons slot slots p m q _ hcomma hrest ih =>
    obtain ⟨next, rest, rfl⟩ := List.exists_cons_of_ne_nil (slots_ne_nil hrest)
    rw [List.getLast?_cons_cons] at hlast
    rcases ih hlast with rfl | hreads
    · exact .inr hcomma
    · exact .inr hreads

/-- A list whose last element is variadic ends with a star. -/
theorem Slots.reads_star (h : Slots stream (expression stream) elements p q)
    (hlast : elements.getLast?.join = some e) (hvariadic : e.kind = .variadic) :
    stream.reads (q - 1) "*" = true := by
  induction h with
  | last hslot =>
    cases hlast
    exact hslot.reads_star hvariadic
  | cons _ _ hrest ih =>
    obtain ⟨next, rest, rfl⟩ := List.exists_cons_of_ne_nil (slots_ne_nil hrest)
    rw [List.getLast?_cons_cons] at hlast
    exact ih hlast

end HotkeyScript.Grammar
