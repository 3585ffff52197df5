import HotkeyScript.Text.Digit
import HotkeyScript.Text.Folding

/-!
# Folding

Folding changes few characters, so a fact about it is checked for these and holds of the others
because they stay. What is stripped from a text is a beginning that folds to the one asked for.

## Main definitions

* `Text.foldedChars` — the characters that folding changes.
-/

namespace HotkeyScript.Text

variable {cs rest : List Char}

/-- The characters that folding changes. -/
def foldedChars : List Char :=
  "abcdefghijklmnopqrstuvwxyz\u017f\u212a".toList

theorem fold_eq_self_or_mem (c : Char) : fold c = c ∨ c ∈ foldedChars := by
  by_cases hlower : c.val ≥ 'a'.val ∧ c.val ≤ 'z'.val
  · have hlow : 97 ≤ c.toNat := UInt32.le_iff_toNat_le.mp hlower.1
    have hhigh : c.toNat ≤ 122 := UInt32.le_iff_toNat_le.mp hlower.2
    have hall : ∀ n ∈ List.range' 97 26, Char.ofNat n ∈ foldedChars := by decide
    rw [← Char.ofNat_toNat c]
    exact .inr (hall c.toNat (List.mem_range'_1.mpr ⟨hlow, by omega⟩))
  · unfold fold
    split
    · next hs => exact .inr (hs ▸ by decide)
    · split
      · next hk => exact .inr (hk ▸ by decide)
      · exact .inl (dif_neg hlower)

/-- What holds of the characters that stay and of those that change holds of all. -/
theorem fold_cases {P : Char → Prop} [DecidablePred P] (hself : ∀ c, fold c = c → P c)
    (hfolded : foldedChars.all (decide <| P ·) = true) (c : Char) : P c :=
  (fold_eq_self_or_mem c).elim (hself c) fun hc =>
    of_decide_eq_true (List.all_eq_true.mp hfolded c hc)

@[simp] theorem isDecimalDigit_fold : ∀ c, isDecimalDigit (fold c) = isDecimalDigit c :=
  fold_cases (fun _ hself => congrArg isDecimalDigit hself) (by decide)

/-- The beginning is taken away if the text starts with a spelling of it. -/
theorem stripStart?_eq_some_iff {start : List Char} :
    stripStart? start cs = some rest ↔ ∃ spelt, cs = spelt ++ rest ∧ spelt.map fold = start := by
  induction start generalizing cs with
  | nil => simp [stripStart?, eq_comm]
  | cons k start ih =>
    cases cs with
    | nil => simp [stripStart?]
    | cons c cs =>
      rw [stripStart?]
      split
      · next hfold =>
        rw [ih]
        constructor
        · rintro ⟨spelt, rfl, hspelt⟩
          exact ⟨c :: spelt, rfl, by rw [List.map_cons, hfold, hspelt]⟩
        · rintro ⟨spelt, hcs, hspelt⟩
          obtain ⟨e, others, rfl, -, hothers⟩ := List.map_eq_cons_iff.mp hspelt
          exact ⟨others, (List.cons.inj hcs).2, hothers⟩
      · next hfold =>
        refine ⟨nofun, ?_⟩
        rintro ⟨spelt, hcs, hspelt⟩
        obtain ⟨e, others, rfl, he, -⟩ := List.map_eq_cons_iff.mp hspelt
        exact absurd ((List.cons.inj hcs).1 ▸ he) hfold

/-- No beginning is found in a text whose first character folds to another one. -/
theorem stripStart?_eq_none {c k : Char} {start : List Char} (h : fold c ≠ k) :
    stripStart? (k :: start) (c :: cs) = none :=
  if_neg h

end HotkeyScript.Text
