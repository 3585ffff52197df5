import HotkeyScript.Proofs.Composition
import HotkeyScript.Proofs.Grammar.RuleOrder
import HotkeyScript.Proofs.Stream.OneLine

/-!
# A hotkey below a command

A hotkey may start with a sign that is an operator elsewhere, as in `*a::b`. The double colon on its
line keeps the sign from carrying on the line above, so a hotkey or a hotstring below a command is a
statement of its own.

There is one way to miss it. The arguments of a few commands are a list of expressions, and a list
never asks whether the line goes on: it takes a comma, a star behind its last element, and an
operand behind a comma or a star. If the line of the hotkey starts with what the list would take,
the list takes it, and the two lines are not the two statements that they are alone. Nothing else
joins them.

## Main definitions

* `Grammar.carriesOn` — the token at a position carries on the arguments of a command.
-/

namespace HotkeyScript

open Source (byteLength)
open Text (lineBreaks)

namespace Grammar

open HotkeyScript.Stream (Window)

variable {stream inner outer : Stream} {n lines : Nat} {before after source : Source}
  {s : Stmt} {p q : Nat}

/-- The token at a position carries on the arguments of a command: they are a list of expressions,
and the list reads on there. -/
def carriesOn (stream : Stream) (p : Nat) : Stmt → Bool
  | .command name _ arguments _ =>
    expressionCommands.any (Text.sameText name.name ·) && !arguments.isEmpty &&
      readsOn stream arguments p
  | _ => false

/-! ## Windows -/

section Window

variable (w : Window inner outer n lines before after)
include w

theorem Unclaimed.window (h : Unclaimed inner p) (hlt : p < inner.size) :
    Unclaimed outer (n + p) where
  hotstring := by
    have hhead := hotstring_eq_none_iff.mp h.hotstring
    rw [hotstring_eq_none_iff, w.reads hlt, hotstringHead_window w hlt]
    split at hhead
    · rw [hhead]
      exact ite_self none
    · next hcolon => rw [if_neg hcolon]
  hotkey := by
    rw [hotkey_eq_none_iff, trigger_window w hlt, hotkey_eq_none_iff.mp h.hotkey]
    rfl
  label := (label_window w hlt none h.label).resolve_left And.right
  block := by
    rw [blockStatement_eq_none_iff, w.reads hlt]
    exact blockStatement_eq_none_iff.mp h.block
  flow := by
    rw [flow_eq_none_iff, w.keyword hlt]
    exact flow_eq_none_iff.mp h.flow

variable (hend : outer.size = n + inner.size)
include hend

/-- An operand starts in a window as it does in the stream behind which nothing follows. -/
theorem startsOperand_window (hp : p ≤ inner.size) :
    startsOperand outer (n + p) = startsOperand inner p := by
  have hnone : outer.token? (n + inner.size) = none :=
    Stream.token?_eq_none (Nat.le_of_eq hend)
  have hskip : outer.skip (atLeading outer) (n + p) = n + inner.skip (atLeading inner) p := by
    refine w.skip hp (fun i _ hi => ?_) (by simp [atLeading, hnone])
    simp only [atLeading, w.token? hi, Option.any_map]
    rfl
  have hstop : inner.skip (atLeading inner) p ≤ inner.size := inner.skip_le_size hp
  rw [startsOperand, hskip, startsOperand]
  rcases Nat.eq_or_lt_of_le hstop with heq | hlt
  · rw [heq, opensOperand, hnone, opensOperand, Stream.token?_eq_none (Nat.le_refl _)]
    rfl
  · rw [opensOperand, w.token? hlt, Option.any_map, w.endsLine hlt, opensOperand]
    rfl

theorem carriesOn_window (hlt : p < inner.size) (s : Stmt) :
    carriesOn outer (n + p) s = carriesOn inner p s := by
  cases s with
  | command name hash arguments span =>
    simp only [carriesOn, readsOn, slotReadsOn, w.reads hlt,
      startsOperand_window w hend (Nat.le_of_lt hlt)]
  | _ => rfl

end Window

/-! ## Statements of a source -/

/-- The statements of a source on the lines below another one. -/
theorem body_below {a b : Source} {scriptB : Script} (h : Stream.Stacked a b)
    (hb : parse b = .ok scriptB) :
    body (Stream.ofSource (a ++ '\n' :: b)) (statement (Stream.ofSource (a ++ '\n' :: b)))
      (Stream.ofSource a).size =
      .ok (scriptB.body.map (Stmt.mapSpan (Span.shift (byteLength a + 1) (lineBreaks a + 1))),
        (Stream.ofSource (a ++ '\n' :: b)).size) := by
  have hend : body (Stream.ofSource (a ++ '\n' :: b))
      (statement (Stream.ofSource (a ++ '\n' :: b)))
      ((Stream.ofSource a).size + (Stream.ofSource b).size) =
      .ok ([], (Stream.ofSource (a ++ '\n' :: b)).size) := by
    rw [← h.size]
    exact (lacking_of_size_le (Nat.le_refl _)).dangling.body
  have hmove : h.window_right.move = Span.shift (byteLength a + 1) (lineBreaks a + 1) := by
    rw [Stream.Window.move, Source.byteLength_append]
    rfl
  have hbody := body_append h.window_right (Nat.zero_le _) (body_of_parse hb) hend
  rwa [hmove, List.append_nil] at hbody

/-! ## Commands -/

theorem not_reads_paren_of_command (h : command (Stream.ofSource source) p = .ok (some (s, q))) :
    (Stream.ofSource source).reads p "(" = false := by
  obtain ⟨name, arguments, hname, hkind, -, -⟩ := exists_of_command h
  rw [Bool.eq_false_iff]
  intro hparen
  obtain ⟨token, htoken, htext⟩ := Stream.reads_iff.mp hparen
  unfold commandHead at hname
  split at hname
  · next hhash => simp [isHash, Stream.reads, htoken, htext] at hhash
  · cases htoken.symm.trans hname
    have hchars := (Stream.ofSource_placed htoken).kinded.word hkind
    rw [htext] at hchars
    exact absurd (hchars '(' (by decide)) (by decide)

theorem span_of_command (h : command stream p = .ok (some (s, q))) :
    s.span = stream.spanTo (stream.spanAt p) q := by
  obtain ⟨name, arguments, -, -, -, rfl⟩ := exists_of_command h
  rfl

/-- A command ends where nothing carries on its arguments, if its last token carries on the line. -/
theorem carriesOn_of_command (h : command stream p = .ok (some (s, q)))
    (hends : stream.continues q = false)
    (hcontinues : ∀ i, p < i → i < q → stream.continues i = true) :
    carriesOn stream q s = false := by
  obtain ⟨name, arguments, -, -, harguments, rfl⟩ := exists_of_command h
  by_cases hcommand : expressionCommands.any (name.is ·) = true
  · rw [commandArguments, if_pos hcommand, expressionArguments_eq, bind_eq_ok] at harguments
    obtain ⟨⟨elements, next⟩, hlist, harguments⟩ := harguments
    simp only at harguments
    split at harguments
    · cases harguments
    cases harguments
    unfold argumentsOnLine at hlist
    split at hlist
    · next hline =>
      have hhead : p ≤ commandHead stream p := by
        unfold commandHead
        split <;> omega
      have hstart := le_skipComma stream (commandHead stream p + 1)
      have hle := (list_advances (expression_advances stream) hlist).1
      have hlt : skipComma stream (commandHead stream p + 1) ≠ q := by
        rintro heq
        rw [heq, hends] at hline
        cases hline
      cases arguments with
      | nil => simp [carriesOn]
      | cons element elements =>
        have hends := readsOn_of_list hlist (List.cons_ne_nil _ _)
          (hcontinues _ (by omega) (by omega))
        simp [carriesOn, hends]
    · cases hlist
      simp [carriesOn]
  · have hname : expressionCommands.any (Text.sameText (identifier name).name ·) = false :=
      Bool.eq_false_iff.mpr hcommand
    simp [carriesOn, hname]

/-- A command of one line at the start of a longer stream is the same one there, exactly if nothing
carries on its arguments. -/
theorem statement_eq_command_iff_carriesOn (w : Window inner outer 0 0 [] after)
    (hs : statement inner 0 = .ok (some (s, inner.size))) (hkind : s.kind = .command)
    (hline : ∀ i, 0 < i → i < inner.size → inner.continues i = true) :
    statement outer 0 = .ok (some (s, inner.size)) ↔ carriesOn outer inner.size s = false := by
  have hlt := (statement_advances inner _ _ _ hs).1
  obtain ⟨hunclaimed, hread⟩ := (statement_eq_command_iff hkind).mp hs
  rw [statement_eq_command_iff hkind]
  constructor
  · rintro ⟨-, hread'⟩
    refine carriesOn_of_command hread' (by simpa using w.ends) fun i hpos hi => ?_
    rw [← Nat.zero_add i, w.continues (Nat.le_of_lt hi)]
    exact hline i hpos hi
  · intro hcarries
    refine ⟨by simpa using hunclaimed.window w hlt, ?_⟩
    rcases command_window w hlt _ hread with hlost | hread'
    · obtain ⟨name, arguments, -, -, -, rfl⟩ := exists_of_command hread
      rcases hlost with ⟨-, -, hlt⟩ | ⟨-, hname, hreadsOn, start, -, hslots⟩
      · exact absurd hlt (Nat.lt_irrefl _)
      · have hne : arguments.isEmpty = false := by simpa using slots_ne_nil hslots
        rw [Nat.zero_add] at hreadsOn
        simp [carriesOn, hname, hne, hreadsOn] at hcarries
    · have hstay : w.move = id := rfl
      simpa [hstay, Stmt.mapSpan_id] using hread'

end Grammar

open Grammar

variable {a b : Source} {scriptA scriptB : Script} {command line : Stmt}

/-- A hotkey or a hotstring below a command is a statement of its own, and the command is what it is
alone, exactly if the line does not carry on a list of arguments. -/
theorem parse_hotkeyLine_iff (ha : parse a = .ok scriptA) (hb : parse b = .ok scriptB)
    (hbodyA : scriptA.body = [command]) (hbodyB : scriptB.body = [line])
    (hcommand : command.kind = .command) (hline : line.kind = .hotkey ∨ line.kind = .hotstring)
    (hlineA : lineBreaks a = 0) (hlineB : lineBreaks b = 0)
    (hmark : b.head? ≠ some Source.byteOrderMark) :
    (∃ script, parse (a ++ '\n' :: b) = .ok script ∧
      script.body = [command, line.mapSpan (Span.shift (byteLength a + 1) 1)]) ↔
      carriesOn (Stream.ofSource b) 0 command = false := by
  have hsA := statement_of_parse ha hbodyA
  have hsB := statement_of_parse hb hbodyB
  have hsize := (statement_advances _ _ _ _ hsA).1
  have hread := ((statement_eq_command_iff hcommand).mp hsA).2
  obtain ⟨colons, hcolons⟩ := exists_isDoubleColon_of_statement hsB hline
  have hstacked := Stream.stacked_of_oneLine hlineA hlineB hmark hsize
    (not_reads_paren_of_command hread)
  have hleft := hstacked.window_left (hstacked.ends_of_isDoubleColon hlineB hcolons)
  have hright := hstacked.window_right
  -- the first statement decides, and the token below it is the first of the second line
  have hfirst := statement_eq_command_iff_carriesOn hleft hsA hcommand
    fun i hpos hi => Stream.continues_of_oneLine hlineA hpos hi
  have hbelow := carriesOn_window hright.toWindow hstacked.size
    (statement_advances _ _ _ _ hsB).1 command
  rw [Nat.add_zero] at hbelow
  rw [← hbelow, ← hfirst]
  constructor
  · rintro ⟨script, hparse, hbody⟩
    have hs := body_of_parse hparse
    rw [hbody, body_eq_cons_iff] at hs
    obtain ⟨next, hs, -⟩ := hs
    have hnext := statement_advances _ _ _ _ hs
    have hread' := ((statement_eq_command_iff hcommand).mp hs).2
    have hend := congrArg Span.stop ((span_of_command hread').symm.trans (span_of_command hread))
    have hsame := hleft.endBefore hsize (Nat.le_refl _)
    rw [Nat.zero_add] at hsame
    have heq := Stream.eq_of_endBefore_eq hnext.1 hnext.2 hsize (by rw [hstacked.size]; omega)
      (hend.trans hsame.symm)
    rw [hs, heq]
  · intro hs
    refine exists_parse_of_body (body_eq_cons_iff.mpr ⟨_, hs, ?_⟩)
    have hstarts := hleft.startsLine_edge
    rw [Nat.zero_add] at hstarts
    rw [if_pos hstarts, body_below hstacked hb, hbodyB, hlineA]
    rfl

/-- The caret of a hotkey is an operator, and the list above it ends with a star that could take an
operand. -/
theorem parse_hotkeyLine_caret :
    let a := "return \"é\", x* ; c".toList
    let b := "^a::Send, b".toList
    ∃ scriptA scriptB command line script, parse a = .ok scriptA ∧ parse b = .ok scriptB ∧
      scriptA.body = [command] ∧ command.kind = .command ∧
      scriptB.body = [line] ∧ line.kind = .hotkey ∧
      parse (a ++ '\n' :: b) = .ok script ∧
      script.body = [command, line.mapSpan (Span.shift 20 1)] := by
  intro a b
  have ha : (parse a).toOption.map (·.body.map fun s =>
      (s.kind, carriesOn (Stream.ofSource b) 0 s)) = some [(.command, false)] := by decide +kernel
  have hb : (parse b).toOption.map (·.body.map Stmt.kind) = some [.hotkey] := by decide +kernel
  obtain ⟨scriptA, ha, hkindsA⟩ := exists_of_toOption_map ha
  obtain ⟨scriptB, hb, hkindsB⟩ := exists_of_toOption_map hb
  obtain ⟨command, hbodyA, hcommand⟩ := List.map_eq_singleton_iff.mp hkindsA
  obtain ⟨line, hbodyB, hline⟩ := List.map_eq_singleton_iff.mp hkindsB
  obtain ⟨hkind, hcarries⟩ := Prod.mk.inj hcommand
  obtain ⟨script, hscript, hbody⟩ := (parse_hotkeyLine_iff ha hb hbodyA hbodyB hkind (.inl hline)
    (by decide +kernel) (by decide +kernel) (by decide +kernel)).mpr hcarries
  have hbytes : byteLength a + 1 = 20 := by decide +kernel
  rw [hbytes] at hbody
  exact ⟨scriptA, scriptB, command, line, script, ha, hb, hbodyA, hkind, hbodyB, hline, hscript,
    hbody⟩

/-- The star of a hotkey is taken for the mark of a variadic argument: each line is one statement
alone, and the two together are no script. -/
theorem parse_hotkeyLine_lost :
    let a := "return x".toList
    let b := "*a::b".toList
    (parse a).toOption.map (·.body.map Stmt.kind) = some [.command] ∧
      (parse b).toOption.map (·.body.map Stmt.kind) = some [.hotkey] ∧
      lineBreaks a = 0 ∧ lineBreaks b = 0 ∧
      (∀ token ∈ (Stream.ofSource a).tokens.getLast?, token.text ≠ ",") ∧
      b.head? ≠ some Source.byteOrderMark ∧ (parse (a ++ '\n' :: b)).toOption.isNone = true := by
  decide +kernel

end HotkeyScript
