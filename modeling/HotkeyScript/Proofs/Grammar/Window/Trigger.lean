import HotkeyScript.Proofs.Grammar.Window.Text

/-!
# Triggers and labels in a window

The heads of hotkeys, hotstrings and labels are runs of tokens on one line. They never reach behind
the window, where a new line starts, so a head in a window is the same head in the outer stream.

## Main definitions

* `Grammar.Trigger.mapSpan` — the trigger with changed spans.
-/

namespace HotkeyScript.Grammar

open HotkeyScript.Stream (Window)
open Source (byteLength)

/-- The trigger with each span in it changed. -/
def Trigger.mapSpan (f : Span → Span) (trigger : Trigger) : Trigger :=
  { trigger with
    first := trigger.first.map (Key.mapSpan f)
    key := trigger.key.mapSpan f }

variable {inner outer : Stream} {n lines : Nat} {before after : Source}
  (w : Window inner outer n lines before after) {p q i : Nat}

include w

theorem linked_window (hi : i ≤ inner.size) : linked outer (n + i) = linked inner i := by
  rw [linked, w.startsLine hi, w.touchesPrevious hi, linked]

theorem linked_edge : linked outer (n + inner.size) = false := by
  rw [linked_window w (Nat.le_refl _), linked_of_size_le (Nat.le_refl _)]

theorem closesTrigger_window (hi : i ≤ inner.size) :
    closesTrigger outer (n + i) = closesTrigger inner i := by
  rw [closesTrigger, w.continues hi, closesTrigger]
  rcases Nat.eq_or_lt_of_le hi with rfl | hlt
  · rw [Stream.continues_of_size_le (Nat.le_refl _), Bool.false_and, Bool.false_and]
  · rw [w.isDoubleColon hlt]

/-! ## Keys -/

theorem numberedKey_window (hlt : p < inner.size) :
    numberedKey outer (n + p) = (numberedKey inner p).map (carry n (Key.mapSpan w.move)) := by
  obtain ⟨token, htoken⟩ := Stream.exists_token_of_lt hlt
  have htouches := w.touchesPrevious (show p + 1 ≤ inner.size from hlt)
  simp only [numberedKey, htoken, w.token htoken, Nat.add_assoc]
  by_cases hnext : p + 1 < inner.size
  · obtain ⟨next, hnext⟩ := Stream.exists_token_of_lt hnext
    simp only [hnext, w.token hnext, Token.touches_shift, Token.shift_text, Token.shift_kind]
    by_cases hnumber : token.kind = .number
    · simp only [hnumber, decide_true]
      split <;> rfl
    · simp [hnumber]
  · -- the token behind the window touches none
    rw [Stream.touchesPrevious_of_size_le (show inner.size ≤ p + 1 by omega)] at htouches
    rw [show inner.token? (p + 1) = none from Stream.token?_eq_none (by omega)]
    cases hafter : outer.token? (n + (p + 1)) with
    | none => rfl
    | some next =>
      have hprevious : outer.previous? (n + (p + 1)) =
          some (token.shift (byteLength before) lines) := w.token htoken
      simp only [Stream.touchesPrevious, hprevious, hafter] at htouches
      simp [htouches]

theorem namedKey_window (hlt : p < inner.size) :
    namedKey outer (n + p) = (namedKey inner p).map (carry n (Key.mapSpan w.move)) := by
  obtain ⟨token, htoken⟩ := Stream.exists_token_of_lt hlt
  have hup : (outer.continues (n + p + 1) &&
        (outer.token? (n + p + 1)).any fun next => next.kind = .word && next.is "up") =
      (inner.continues (p + 1) &&
        (inner.token? (p + 1)).any fun next => next.kind = .word && next.is "up") := by
    rw [Nat.add_assoc, w.continues (show p + 1 ≤ inner.size from hlt)]
    by_cases hnext : p + 1 < inner.size
    · rw [w.token? hnext, Option.any_map]
      rfl
    · rw [Stream.continues_of_size_le (by omega), Bool.false_and, Bool.false_and]
  simp only [namedKey, htoken, w.token htoken, Token.shift_text, hup]
  split
  · split
    · next hguard =>
      have hsize := Stream.lt_size_of_continues (Bool.and_eq_true_iff.mp hguard).1
      simp only [Option.map_some, carry_mk, Key.mapSpan, Token.shift_span, Nat.add_assoc]
      rw [← w.spanTo (show 0 < p + 2 by omega) (show p + 2 ≤ inner.size by omega)]
      rfl
    · simp only [Option.map_some, carry_mk, Key.mapSpan, Token.shift_span, Nat.add_assoc]
      rw [← w.spanTo (Nat.succ_pos p) hlt]
      rfl
  · rfl

theorem key_window (hlt : p < inner.size) :
    key outer (n + p) = (key inner p).map (carry n (Key.mapSpan w.move)) := by
  rw [key, numberedKey_window w hlt, namedKey_window w hlt, key]
  cases numberedKey inner p <;> rfl

theorem combination_window (hlt : p < inner.size) :
    combination outer (n + p) = (combination inner p).map
      (carry n fun keys => (keys.1.map (Key.mapSpan w.move), keys.2.mapSpan w.move)) := by
  simp only [combination, key_window w hlt]
  cases hfirst : key inner p with
  | none => rfl
  | some read =>
    obtain ⟨first, next⟩ := read
    have hnext := ((key_reads hfirst).written upholds_true).le_size
    simp only [Option.map_some, carry_mk, Option.bind_eq_bind, Option.bind_some, Nat.add_assoc,
      w.continuesWith hnext]
    split
    · next hampersand =>
      have hlt' := Stream.lt_size_of_continues (Bool.and_eq_true_iff.mp hampersand).1
      rw [w.startsLine (show next + 1 ≤ inner.size from hlt')]
      split
      · rfl
      · next hline =>
        have hsize : next + 1 < inner.size := by
          refine Nat.lt_of_le_of_ne hlt' fun heq => hline ?_
          rw [Stream.startsLine_of_size_le (by omega)]
        rw [key_window w hsize]
        rcases key inner (next + 1) with _ | ⟨second, stop⟩ <;> rfl
    · rfl

/-! ## Triggers of hotkeys -/

theorem modifiersEnd_window (hlt : p < inner.size) :
    modifiersEnd outer (n + p) = n + modifiersEnd inner p := by
  rw [modifiersEnd_eq, modifiersEnd_eq]
  refine w.skip (Nat.le_of_lt hlt) (fun i _ hi => ?_) ?_
  · have hfirst : (n + i == n + p) = (i == p) := by
      rw [Bool.eq_iff_iff]
      simp
    rw [inModifiers, hfirst, linked_window w (Nat.le_of_lt hi), w.token? hi, Option.any_map,
      inModifiers]
    rfl
  · have hfirst : (n + inner.size == n + p) = false := by
      simp only [beq_eq_false_iff_ne]
      omega
    rw [inModifiers, hfirst, linked_edge w]
    rfl

theorem joinedText_window (hq : q ≤ inner.size) :
    joinedText outer (n + p) (n + q) = joinedText inner p q := by
  rw [joinedText, range'_window, List.flatMap_map, joinedText]
  refine congrArg String.ofList (List.flatMap_congr fun i hi => ?_)
  simp only [List.mem_range'_1] at hi
  exact w.textAt (by omega)

theorem trigger_window (hlt : p < inner.size) :
    trigger outer (n + p) = (trigger inner p).map (carry n (Trigger.mapSpan w.move)) := by
  have hstop : modifiersEnd inner p ≤ inner.size := by
    rw [modifiersEnd_eq]
    exact inner.skip_le_size (Nat.le_of_lt hlt)
  have hle : p ≤ modifiersEnd inner p := by
    rw [modifiersEnd_eq]
    exact inner.le_skip _ p
  have hmodified : (n + modifiersEnd inner p != n + p) = (modifiersEnd inner p != p) := by
    rw [Bool.eq_iff_iff]
    simp
  simp only [trigger, modifiersEnd_window w hlt, hmodified]
  generalize modifiersEnd inner p = stop at hstop hle ⊢
  rcases Nat.eq_or_lt_of_le hstop with rfl | hstop
  · -- a line starts behind the window
    have hne : (inner.size != p) = true := by
      simp only [bne_iff_ne, ne_eq]
      omega
    rw [Stream.token?_eq_none (Nat.le_refl _)]
    cases outer.token? (n + inner.size) with
    | none => rfl
    | some token => simp [hne, w.startsLine_edge]
  · obtain ⟨token, htoken⟩ := Stream.exists_token_of_lt hstop
    simp only [htoken, w.token htoken, w.startsLine (Nat.le_of_lt hstop),
      w.touchesPrevious (Nat.le_of_lt hstop), closesTrigger_window w (Nat.le_of_lt hstop),
      Nat.add_assoc, closesTrigger_window w (show stop + 1 ≤ inner.size from hstop),
      Token.shift_text, joinedText_window w (Nat.le_of_lt hstop)]
    split
    · rfl
    · split
      · next hguard =>
        have hpos : p ≠ stop := by
          rintro rfl
          simp at hguard
        have hlast : n + stop - 1 = n + (stop - 1) := by omega
        rw [hlast, w.token? (by omega), joinedText_window w (by omega)]
        cases inner.token? (stop - 1) <;> rfl
      · split
        · rfl
        · split
          · rw [combination_window w hstop]
            rcases hcombination : combination inner stop with _ | ⟨⟨first, second⟩, next⟩
            · rfl
            · obtain ⟨m, m', -, -, hsecond⟩ := combination_reads hcombination
              have hnext := (hsecond.written upholds_true).le_size
              simp only [Option.map_some, carry_mk, Option.bind_eq_bind, Option.bind_some,
                closesTrigger_window w hnext]
              split <;> rfl
          · rfl

/-! ## Heads of hotstrings -/

theorem optionsEnd?_window (hlt : p < inner.size) :
    optionsEnd? outer (n + p) = (optionsEnd? inner p).map (n + ·) := by
  have hskip : outer.skip (inOptions outer) (n + (p + 1)) =
      n + inner.skip (inOptions inner) (p + 1) := by
    refine w.skip hlt (fun i _ hi => ?_) (by simp [inOptions, linked_edge w])
    rw [inOptions, linked_window w (Nat.le_of_lt hi), w.reads hi, inOptions]
  have hstop : inner.skip (inOptions inner) (p + 1) ≤ inner.size := inner.skip_le_size hlt
  simp only [optionsEnd?_eq, Nat.add_assoc, hskip, linked_window w hstop]
  rcases Nat.eq_or_lt_of_le hstop with heq | hstop
  · rw [heq, linked_of_size_le (Nat.le_refl _)]
    rfl
  · rw [w.reads hstop]
    split <;> rfl

theorem triggerEnd?_window (escaped : Bool) (hp : p ≤ inner.size) :
    triggerEnd? outer escaped (n + p) = (triggerEnd? inner escaped p).map (n + ·) := by
  induction hn : inner.size - p using Nat.strongRecOn generalizing p escaped with
  | ind m ih =>
    rw [triggerEnd?_eq, triggerEnd?_eq, triggerRound, triggerRound, w.startsLine hp,
      w.touchesPrevious hp, Nat.add_assoc]
    split
    · rfl
    · next hline =>
      have hlt : p < inner.size := by
        refine Nat.lt_of_le_of_ne hp fun heq => hline ?_
        rw [Stream.startsLine_of_size_le (by omega)]
      rw [w.isDoubleColon hlt, w.reads hlt]
      split
      · exact ih _ (by omega) false hlt rfl
      · split
        · rfl
        · exact ih _ (by omega) _ hlt rfl

theorem hotstringHead_window (hlt : p < inner.size) :
    hotstringHead outer (n + p) = (hotstringHead inner p).map
      (carry n fun head => (head.1, head.2.mapSpan w.move)) := by
  simp only [hotstringHead, optionsEnd?_window w hlt]
  cases hclose : optionsEnd? inner p with
  | none => rfl
  | some close =>
    have hsize : close < inner.size := by
      rw [optionsEnd?_eq] at hclose
      simp only at hclose
      split at hclose
      · next hguard =>
        cases hclose
        exact Stream.lt_size_of_reads (Bool.and_eq_true_iff.mp hguard).2
      · cases hclose
    have hslice : Source.slice outer.source (outer.spanAt (n + p)).stop
          (outer.spanAt (n + close)).start =
        Source.slice inner.source (inner.spanAt p).stop (inner.spanAt close).start := by
      rw [w.spanAt hlt, w.spanAt hsize]
      exact w.slice (w.isBoundary_stop hlt) (w.isBoundary_start hsize).le_byteLength
    simp only [Option.map_some, Option.bind_eq_bind, Option.bind_some, hslice, Nat.add_assoc]
    cases HotstringOption.split
        (Source.slice inner.source (inner.spanAt p).stop (inner.spanAt close).start) with
    | none => rfl
    | some options =>
      have hend := triggerEnd?_window w false (show close + 1 ≤ inner.size from hsize)
      simp only [triggerEnd?] at hend
      simp only [Option.bind_some, hend]
      cases hstop : triggerEndWithin? inner (inner.size - (close + 1)) false (close + 1) with
      | none => rfl
      | some stop =>
        have hbounds := triggerEndWithin?_reads hstop
        simp only [Option.map_some, Option.bind_some, Nat.add_left_cancel_iff]
        split
        · rfl
        · rw [assemble_window w (by omega) (by omega)]
          rfl

/-! ## Labels -/

theorem isLabelPart_window (hi : i < inner.size) :
    isLabelPart outer (n + i) = isLabelPart inner i := by
  rw [isLabelPart, w.token? hi, Option.any_map, isLabelPart]
  rfl

theorem labelEnd?_window (hlt : p < inner.size) :
    labelEnd? outer (n + p) = (labelEnd? inner p).map (n + ·) := by
  have hskip : outer.skip (inLabel outer) (n + (p + 1)) =
      n + inner.skip (inLabel inner) (p + 1) := by
    refine w.skip hlt (fun i _ hi => ?_) (by simp [inLabel, linked_edge w])
    rw [inLabel, linked_window w (Nat.le_of_lt hi), isLabelPart_window w hi, inLabel]
  have hstop : inner.skip (inLabel inner) (p + 1) ≤ inner.size := inner.skip_le_size hlt
  simp only [labelEnd?_eq, isLabelPart_window w hlt, Nat.add_assoc, hskip, w.startsLine hstop]
  rcases Nat.eq_or_lt_of_le hstop with heq | hstop
  · have hline : inner.startsLine inner.size = true := Stream.startsLine_of_size_le (Nat.le_refl _)
    rw [heq, hline]
    split <;> rfl
  · rw [w.reads hstop, w.endsLine hstop]
    split
    · split <;> rfl
    · rfl

end HotkeyScript.Grammar
