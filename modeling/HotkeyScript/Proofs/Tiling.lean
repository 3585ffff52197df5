import HotkeyScript.Proofs.Grammar.WrittenStatement

/-!
# Statements leave out no token

The statements of a script are read from runs of tokens that follow each other from the first token
of the source to the last. No token is passed over and none is read twice, although the rules are
tried one after the other at the same token. The same holds between the braces of every block.

## Main definitions

* `Grammar.TiledBraces` — a block whose statements leave out no token between its braces.
-/

namespace HotkeyScript.Grammar

open Node (ofExpr)

variable {stream : Stream} {p q : Nat}

/-- The tokens from `p` up to, and without, `q` are braces and the statements between them. -/
def TiledBraces (stream : Stream) (braces : Block) (p q : Nat) : Prop :=
  stream.reads p "\x7b" = true ∧ stream.reads (q - 1) "\x7d" = true ∧
    Tiled stream (braces.body.map Stmt.span) (p + 1) (q - 1)

/-- What a block has to satisfy; other nodes are free. -/
def BracesTiled (stream : Stream) : Node → Nat → Nat → Prop
  | .block braces, p, q => TiledBraces stream braces p q
  | _, _, _ => True

theorem bracesTiled_ofExpr (e : Expr) : BracesTiled stream (ofExpr e) p q := by
  cases e <;> trivial

theorem upholds_bracesTiled : Upholds stream (BracesTiled stream) where
  primary _ := bracesTiled_ofExpr _
  step _ _ _ := bracesTiled_ofExpr _
  name _ := trivial
  text _ := trivial
  key _ := trivial
  block hopen htiled hclose :=
    ⟨hopen, Expected.reads (c := '\x7d') hclose (by decide) (by decide), htiled⟩
  command _ := trivial
  hotkey _ := trivial
  assignment _ := trivial
  comparison _ := trivial
  plain {node _ _} hplain := by
    cases node <;> trivial

end HotkeyScript.Grammar

namespace HotkeyScript

open Grammar

variable {source : Source} {script : Script}

theorem parse_tiled (h : parse source = .ok script) :
    Tiled (Stream.ofSource source) (script.body.map Stmt.span) 0 (Stream.ofSource source).size ∧
    (∀ braces, (Node.script script).Within (.block braces) →
      ∃ p q, (Stream.ofSource source).Covers braces.span p q ∧
        TiledBraces (Stream.ofSource source) braces p q) ∧
    script.span =
      if (Stream.ofSource source).size = 0 then { start := 0, stop := Source.byteLength source }
      else
        { start := ((Stream.ofSource source).spanAt 0).start
          stop := ((Stream.ofSource source).spanAt ((Stream.ofSource source).size - 1)).stop } := by
  obtain ⟨hwritten, htiled⟩ := parse_written upholds_bracesTiled h
  obtain ⟨-, -, -, hspan⟩ := parse_reads h
  refine ⟨htiled, ?_, ?_⟩
  · intro braces hwithin
    rcases hwritten.of_within hwithin with hroot | ⟨p, q, hbraces⟩
    · cases hroot
    · exact ⟨p, q, hbraces.covers, hbraces.holds⟩
  · rw [hspan]
    exact scriptSpan_eq htiled

/-- A block in a block, and a statement behind them. -/
theorem parse_tiled_nested :
    ∃ script, parse "\x7b\n\x7b\nf()\n\x7d\n\x7d\nx".toList = .ok script ∧
      script.body.length = 2 ∧
      Tiled (Stream.ofSource "\x7b\n\x7b\nf()\n\x7d\n\x7d\nx".toList)
        (script.body.map Stmt.span) 0 8 := by
  have hlength : (parse "\x7b\n\x7b\nf()\n\x7d\n\x7d\nx".toList).toOption.map (·.body.length) =
      some 2 := by decide +kernel
  have hsize : (Stream.ofSource "\x7b\n\x7b\nf()\n\x7d\n\x7d\nx".toList).size = 8 := by
    decide +kernel
  obtain ⟨script, h, hbody⟩ := exists_of_toOption_map hlength
  have htiled := (parse_tiled h).1
  rw [hsize] at htiled
  exact ⟨script, h, hbody, htiled⟩

end HotkeyScript
