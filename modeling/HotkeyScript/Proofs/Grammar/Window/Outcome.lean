import HotkeyScript.Proofs.Grammar.Operand
import HotkeyScript.Proofs.Stream.Window

/-!
# Outcomes in a window

A rule that reads tokens of a window should give on the outer stream what it gives on the inner one,
at a later position and with later spans. It may give more where the tokens of the window run out in
the middle of an expression and an operand follows; the inner stream is then left with operators
that lack an operand. `Window.Carries` allows for such outcomes, which `lost` describes, and each
law takes one combinator of the grammar apart.

## Main definitions

* `Grammar.carry` — what is read from a window, and the position behind it, in the outer stream.
* `Grammar.Yields` — one rule gives the outcome of another one, unless it is lost.
* `Stream.Window.Supplied` — an operand follows the window.
* `Stream.Window.Carries` — the outer stream gives the outcome of the inner one, unless it is lost
  because an operand follows.
-/

namespace HotkeyScript

/-- What was read, moved with `f`, and the position behind it, further on by `n`. -/
abbrev Grammar.carry {α β : Type} (n : Nat) (f : α → β) (read : Grammar.Read α) : Grammar.Read β :=
  (f read.1, n + read.2)

@[simp] theorem Grammar.carry_mk {α β : Type} (n : Nat) (f : α → β) (a : α) (q : Nat) :
    Grammar.carry n f (a, q) = (f a, n + q) := rfl

namespace Grammar

variable {α β γ δ : Type}

/-- What the first rule gives, the second one gives too, moved by `f`; or the outcome is lost. -/
def Yields (lost : α → Prop) (f : α → β) (x : Checked α) (y : Checked β) : Prop :=
  ∀ a, x = .ok a → lost a ∨ y = .ok (f a)

namespace Yields

variable {lost lost' : α → Prop} {f : α → β} {x : Checked α} {y : Checked β} {a : α}

theorem ok (h : y = .ok (f a)) : Yields lost f (.ok a) y := by
  rintro _ ⟨⟩
  exact .inr h

theorem error (e : SyntaxError) : Yields lost f (.error e) y := by
  rintro _ ⟨⟩

theorem mono (h : Yields lost f x y) (hlost : ∀ a, x = .ok a → lost a → lost' a) :
    Yields lost' f x y :=
  fun a ha => (h a ha).imp_left (hlost a ha)

/-- A lost part is made up for by the rest, or the whole is lost. -/
theorem bind {lost' : γ → Prop} {g : γ → δ} {k : α → Checked γ} {k' : β → Checked δ}
    (h : Yields lost f x y) (hlost : ∀ a, x = .ok a → lost a → ∀ c, k a = .ok c → lost' c)
    (hnext : ∀ a, x = .ok a → Yields lost' g (k a) (k' (f a))) :
    Yields lost' g (x >>= k) (y >>= k') := by
  intro c hc
  obtain ⟨a, ha, hka⟩ := bind_eq_ok.mp hc
  rcases h a ha with hla | hy
  · exact .inl (hlost a ha hla c hka)
  · rw [hy, ok_bind]
    exact hnext a ha c hka

end Yields

end Grammar

namespace Stream.Window

open Grammar

variable {inner outer : Stream} {n lines : Nat} {before after : Source} {α β γ δ : Type}

/-- An operand follows the window, which operators at its end may lack. -/
def Supplied (_ : Window inner outer n lines before after) : Prop :=
  startsOperand outer (n + inner.size) = true

/-- What the rule on the inner stream gives, the rule on the outer stream gives too, moved by `f`;
or an operand follows the window and the outcome is lost. -/
def Carries (w : Window inner outer n lines before after) (lost : α → Prop) (f : α → β)
    (x : Checked α) (y : Checked β) : Prop :=
  Yields (fun a => w.Supplied ∧ lost a) f x y

/-- Every outcome on the inner stream is one on the outer stream. -/
abbrev CarriesAll (w : Window inner outer n lines before after) (f : α → β) (x : Checked α)
    (y : Checked β) : Prop :=
  w.Carries (fun _ => False) f x y

namespace Carries

variable {w : Window inner outer n lines before after} {lost lost' : α → Prop} {f : α → β}
  {x : Checked α} {y : Checked β} {a : α}

theorem ok (h : y = .ok (f a)) : w.Carries lost f (.ok a) y :=
  Yields.ok h

theorem error (e : SyntaxError) : w.Carries lost f (.error e) y :=
  Yields.error e

theorem mono (h : w.Carries lost f x y)
    (hlost : ∀ a, x = .ok a → w.Supplied → lost a → lost' a) : w.Carries lost' f x y :=
  Yields.mono h fun a ha hlosta => ⟨hlosta.1, hlost a ha hlosta.1 hlosta.2⟩

theorem weaken (h : w.CarriesAll f x y) : w.Carries lost f x y :=
  h.mono fun _ _ _ => False.elim

theorem bind {lost' : γ → Prop} {g : γ → δ} {k : α → Checked γ} {k' : β → Checked δ}
    (h : w.Carries lost f x y)
    (hlost : ∀ a, x = .ok a → w.Supplied → lost a → ∀ c, k a = .ok c → lost' c)
    (hnext : ∀ a, x = .ok a → w.Carries lost' g (k a) (k' (f a))) :
    w.Carries lost' g (x >>= k) (y >>= k') :=
  Yields.bind h (fun a ha hlosta c hc => ⟨hlosta.1, hlost a ha hlosta.1 hlosta.2 c hc⟩) hnext

theorem bindAll {lost' : γ → Prop} {g : γ → δ} {k : α → Checked γ} {k' : β → Checked δ}
    (h : w.CarriesAll f x y) (hnext : ∀ a, x = .ok a → w.Carries lost' g (k a) (k' (f a))) :
    w.Carries lost' g (x >>= k) (y >>= k') :=
  h.bind (fun _ _ _ => False.elim) hnext

theorem expect {i : Nat} {text : String}
    (h : Expected inner i text → w.Carries lost f x y) :
    w.Carries lost f (Grammar.expect inner i text >>= fun _ => x)
      (Grammar.expect outer (n + i) text >>= fun _ => y) := by
  intro a ha
  obtain ⟨_, hexpected, ha⟩ := bind_eq_ok.mp ha
  rw [expect_eq_ok] at hexpected
  rw [(w.expected hexpected).expect, ok_bind]
  exact h hexpected a ha

variable {lost lost' : Option (Read α) → Prop} {f : Read α → Read β}
  {x : Checked (Option (Read α))} {y : Checked (Option (Read β))}

theorem absent (h : y = .ok none) : w.Carries lost (Option.map f) Grammar.absent y :=
  .ok h

theorem found {q : Nat} {b : β} {q' : Nat} (h : f (a, q) = (b, q')) :
    w.Carries lost (Option.map f) (Grammar.found a q) (Grammar.found b q') :=
  .ok (by simp [h])

theorem required (h : w.Carries lost (Option.map f) x y) (missing missing' : SyntaxError) :
    w.Carries (fun read => lost (some read)) f (required x missing) (required y missing') := by
  intro read hread
  rw [required_eq_ok] at hread ⊢
  exact h (some read) hread

theorem some_map {x : Checked (Read α)} {y : Checked (Read β)}
    (h : w.Carries (fun read => lost (some read)) f x y) :
    w.Carries lost (Option.map f) (some <$> x) (some <$> y) := by
  intro read hread
  obtain ⟨a, ha, rfl⟩ := map_eq_ok.mp hread
  rcases h a ha with hlost | hy
  · exact .inl hlost
  · exact .inr (map_eq_ok.mpr ⟨f a, hy, rfl⟩)

/-- Rules tried one after the other: if the first is lost without a result, the others decide. -/
theorem orTry {next : Unit → Checked (Option (Read α))} {next' : Unit → Checked (Option (Read β))}
    (h : w.Carries lost (Option.map f) x y)
    (hfound : ∀ read, x = .ok (some read) → lost (some read) → lost' (some read))
    (habsent : x = .ok none → w.Supplied → lost none →
      ∀ outcome, next () = .ok outcome → lost' outcome)
    (hnext : x = .ok none → w.Carries lost' (Option.map f) (next ()) (next' ())) :
    w.Carries lost' (Option.map f) (orTry x next) (orTry y next') := by
  rcases x with error | _ | read
  · exact .error error
  · intro outcome houtcome
    rw [show Grammar.orTry (.ok none) next = next () from rfl] at houtcome
    rcases h none rfl with ⟨hsupplied, hlost⟩ | rfl
    · exact .inl ⟨hsupplied, habsent rfl hsupplied hlost outcome houtcome⟩
    · exact hnext rfl outcome houtcome
  · rintro _ ⟨⟩
    rcases h (some read) rfl with ⟨hsupplied, hlost⟩ | rfl
    · exact .inl ⟨hsupplied, hfound read rfl hlost⟩
    · exact .inr rfl

theorem orTryAll {next : Unit → Checked (Option (Read α))}
    {next' : Unit → Checked (Option (Read β))} (h : w.CarriesAll (Option.map f) x y)
    (hnext : x = .ok none → w.Carries lost' (Option.map f) (next ()) (next' ())) :
    w.Carries lost' (Option.map f) (Grammar.orTry x next) (Grammar.orTry y next') :=
  h.orTry (fun _ _ => False.elim) (fun _ _ => False.elim) hnext

end Carries

end Stream.Window

end HotkeyScript
