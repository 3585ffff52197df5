import HotkeyScript.Grammar.Outcome
import HotkeyScript.Proofs.Stream.Positions
import HotkeyScript.Proofs.Text.Caseless

/-!
# Inversion of outcomes

What is known of the parts of a rule once the outcome of the whole is known. Each law takes one
combinator of the grammar apart, so a rule is inverted by rewriting with the laws of the combinators
that it is made of.

## Main definitions

* `Grammar.Expected` — the token that a rule asks for stands at a position.
-/

namespace HotkeyScript.Grammar

variable {α β : Type}

theorem bind_eq_ok {x : Checked α} {f : α → Checked β} {b : β} :
    x >>= f = .ok b ↔ ∃ a, x = .ok a ∧ f a = .ok b := by
  cases x <;> simp [bind, Except.bind]

theorem ok_bind (a : α) (f : α → Checked β) : (.ok a : Checked α) >>= f = f a := rfl

theorem exists_of_toOption_map {α β : Type} {outcome : Checked α} {f : α → β} {b : β}
    (h : outcome.toOption.map f = some b) : ∃ a, outcome = .ok a ∧ f a = b := by
  cases outcome with
  | error error => cases h
  | ok a => exact ⟨a, rfl, Option.some.inj h⟩

theorem map_eq_ok {x : Checked α} {f : α → β} {b : β} :
    f <$> x = .ok b ↔ ∃ a, x = .ok a ∧ f a = b := by
  cases x <;> simp [Functor.map, Except.map]

/-- Two continuations that agree on the result agree on the whole. -/
theorem bind_congr_ok {x : Checked α} {f g : α → Checked β} (h : ∀ a, x = .ok a → f a = g a) :
    x >>= f = x >>= g := by
  cases x with
  | error e => rfl
  | ok a => exact h a rfl

theorem required_eq_ok {outcome : Checked (Option (Read α))} {missing : SyntaxError}
    {result : Read α} :
    required outcome missing = .ok result ↔ outcome = .ok (some result) := by
  rcases outcome with error | _ | result' <;> simp [required]

theorem orTry_eq_found {outcome : Checked (Option (Read α))}
    {next : Unit → Checked (Option (Read α))} {result : Read α} :
    orTry outcome next = .ok (some result) ↔
      outcome = .ok (some result) ∨ outcome = .ok none ∧ next () = .ok (some result) := by
  rcases outcome with error | _ | result' <;> simp [orTry]

theorem orTry_eq_absent {outcome : Checked (Option (Read α))}
    {next : Unit → Checked (Option (Read α))} :
    orTry outcome next = .ok none ↔ outcome = .ok none ∧ next () = .ok none := by
  rcases outcome with error | _ | result' <;> simp [orTry]

/-- A token with this text, without regard to case, stands at the position. -/
def Expected (stream : Stream) (position : Nat) (text : String) : Prop :=
  ∃ token, stream.token? position = some token ∧ token.is text = true

theorem Expected.lt_size {stream : Stream} {position : Nat} {text : String}
    (h : Expected stream position text) : position < stream.size := by
  obtain ⟨token, htoken, -⟩ := h
  exact Stream.lt_size_of_token? htoken

/-- Case does not matter for a sign that is no letter. -/
theorem Expected.reads {stream : Stream} {position : Nat} {c : Char}
    (h : Expected stream position (String.singleton c)) (hc : ¬ ('a' ≤ c ∧ c ≤ 'z'))
    (hlower : c.toLower = c) : stream.reads position (String.singleton c) = true := by
  obtain ⟨token, htoken, his⟩ := h
  exact Stream.reads_iff.mpr ⟨token, htoken, Text.eq_singleton_of_sameText his hc hlower⟩

theorem expect_eq_ok {stream : Stream} {position : Nat} {text : String} {u : Unit} :
    expect stream position text = .ok u ↔ Expected stream position text := by
  cases h : stream.token? position <;> simp [expect, Expected, h]

theorem Expected.expect {stream : Stream} {position : Nat} {text : String}
    (h : Expected stream position text) : expect stream position text = .ok () :=
  expect_eq_ok.mpr h

theorem guard_eq_found {c : Prop} [Decidable c] {a b : α} {error : SyntaxError} {p q : Nat}
    (h : (if c then found a p else .error error) = .ok (some (b, q))) : c ∧ b = a ∧ q = p := by
  split at h
  · next hc =>
    cases h
    exact ⟨hc, rfl, rfl⟩
  · cases h

@[simp] theorem absent_eq : (absent : Checked (Option (Read α))) = .ok none := rfl

@[simp] theorem found_eq (result : α) (position : Nat) :
    found result position = .ok (some (result, position)) := rfl

end HotkeyScript.Grammar
