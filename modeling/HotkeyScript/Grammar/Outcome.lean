import HotkeyScript.Stream.Cursor

/-!
# Outcomes of grammar rules

A rule reads tokens from a position on. It either matches, and then gives its result and the
position behind what it read; or it does not apply, and then reads nothing; or it has committed
itself and fails, because a part that it needs is missing. The outcome of a rule that may not apply
is thus a `Checked (Option (Read α))`, and that of a rule that has to apply a `Checked (Read α)`.

## Main definitions

* `Grammar.Checked`, `Grammar.Read` — the parts of an outcome.
* `Grammar.orTry`, `Grammar.required` — what to do when a rule does not apply.
* `Grammar.expect` — the token that has to come next.
-/

namespace HotkeyScript.Grammar

/-- A result, or the error with which a rule fails. -/
abbrev Checked : Type → Type := Except SyntaxError

/-- What a rule has read, and the position behind it. -/
abbrev Read (α : Type) : Type := α × Nat

variable {α : Type}

/-- The rule does not apply. -/
def absent : Checked (Option (Read α)) := .ok none

/-- The rule matches up to the given position. -/
def found (result : α) (position : Nat) : Checked (Option (Read α)) := .ok (some (result, position))

/-- Tries another rule if the first one does not apply. -/
def orTry (outcome : Checked (Option (Read α))) (next : Unit → Checked (Option (Read α))) :
    Checked (Option (Read α)) :=
  match outcome with
  | .ok none => next ()
  | .ok (some result) => .ok (some result)
  | .error error => .error error

/-- Fails if the rule does not apply. -/
def required (outcome : Checked (Option (Read α))) (missing : SyntaxError) : Checked (Read α) :=
  match outcome with
  | .ok none => .error missing
  | .ok (some result) => .ok result
  | .error error => .error error

@[simp] theorem orTry_absent (next : Unit → Checked (Option (Read α))) :
    orTry absent next = next () := rfl

@[simp] theorem orTry_found (result : α) (position : Nat)
    (next : Unit → Checked (Option (Read α))) :
    orTry (found result position) next = found result position := rfl

@[simp] theorem orTry_error (error : SyntaxError) (next : Unit → Checked (Option (Read α))) :
    orTry (.error error) next = .error error := rfl

@[simp] theorem required_absent (missing : SyntaxError) :
    required (absent : Checked (Option (Read α))) missing = .error missing := rfl

@[simp] theorem required_found (result : α) (position : Nat) (missing : SyntaxError) :
    required (found result position) missing = .ok (result, position) := rfl

@[simp] theorem required_error (error missing : SyntaxError) :
    required (.error error : Checked (Option (Read α))) missing = .error error := rfl

/-- Fails unless the token at a position has this text, without regard to case. -/
def expect (stream : Stream) (position : Nat) (text : String) : Checked Unit :=
  if (stream.token? position).any (·.is text) then .ok () else .error (stream.errorAt position)

end HotkeyScript.Grammar
