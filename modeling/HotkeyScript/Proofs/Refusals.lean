import HotkeyScript.Proofs.Remarks
import HotkeyScript.Proofs.Grammar.Errors
import HotkeyScript.Proofs.Stream.Origin
import HotkeyScript.Proofs.Token.Number

/-!
# What a syntax error names

A source is refused at a token of its stream or behind the last one, by the script parser and by the
expression parser alike, and a source without tokens is never refused. A literal is not the reason:
whatever the lexer takes for a literal has a value.
-/

namespace HotkeyScript

open HotkeyScript.Stream (ofSource)

variable {source : Source} {stream : Stream} {token : Token} {p : Nat}

/-! ## Errors of a stream -/

namespace Stream

theorem mem_tokens_of_token? (h : stream.token? p = some token) : token ∈ stream.tokens := by
  obtain ⟨item, hitem, rfl⟩ := Option.map_eq_some_iff.mp h
  exact List.mem_map_of_mem (Array.mem_toList_iff.mpr (Array.mem_of_getElem? hitem))

/-- The error at a position of a stream with tokens names one of them, or the end of the last. -/
theorem errorAt_cases (hsize : stream.size ≠ 0) (p : Nat) :
    (∃ token ∈ stream.tokens, stream.errorAt p = .atToken token) ∨
      ∃ last, stream.tokens.getLast? = some last ∧ stream.errorAt p = .atEnd (some last) := by
  unfold errorAt
  split
  · next token htoken => exact .inl ⟨token, mem_tokens_of_token? htoken, rfl⟩
  · have hback : stream.items.back?.map (·.token) = stream.tokens.getLast? := by
      simp [tokens]
    have hne : stream.tokens ≠ [] := by
      simpa [tokens, size] using hsize
    obtain ⟨last, hlast⟩ := Option.ne_none_iff_exists'.mp (mt List.getLast?_eq_none_iff.mp hne)
    rw [hback, hlast]
    exact .inr ⟨last, rfl, rfl⟩

end Stream

namespace Grammar

/-- What the lexer takes for a literal has a value. -/
theorem exists_literalValue (h : (ofSource source).token? p = some token)
    (hkind : token.kind = .number ∨ token.kind = .boolean ∨ token.kind = .string) :
    ∃ value, literalValue (ofSource source) token p = .ok value := by
  unfold literalValue
  rcases hkind with hkind | hkind | hkind
  · have hlexed : Token.Lexed source token := Stream.lexed_of_token? h (by simp [hkind])
    obtain ⟨value, hvalue⟩ := Option.isSome_iff_exists.mp (hlexed.value?_isSome hkind)
    exact ⟨.number value, by simp only [hkind, hvalue]⟩
  · exact ⟨_, by rw [hkind]⟩
  · exact ⟨_, by rw [hkind]⟩

theorem parseExpression_eq_of_size_eq_zero (h : (ofSource source).size = 0) :
    parseExpression source = .ok none := by
  simp [parseExpression, expression, expressionWithin, absent, h, ok_bind]

/-- An outcome that cannot fail without tokens fails at a token or at the end of the last. -/
theorem FailsInStream.cases {α : Type} {outcome : Checked α} {error : SyntaxError}
    (h : FailsInStream stream outcome) (hsize : stream.size = 0 → ∃ a, outcome = .ok a)
    (herror : outcome = .error error) :
    (∃ token ∈ stream.tokens, error = .atToken token) ∨
      ∃ last, stream.tokens.getLast? = some last ∧ error = .atEnd (some last) := by
  obtain ⟨p, rfl⟩ := h error herror
  refine Stream.errorAt_cases (fun hzero => ?_) p
  obtain ⟨a, hok⟩ := hsize hzero
  cases hok.symm.trans herror

end Grammar

open Grammar

/-- A syntax error of a script or of an expression names a token of the stream with its span, or the
end of the last token, and a stream without tokens gives none. Every number of the stream has a
value, so no literal is refused for want of one. -/
theorem parse_refusals (source : Source) :
    (∀ error, parse source = .error error ∨ parseExpression source = .error error →
      (∃ token ∈ (ofSource source).tokens,
        error = { cause := .unexpectedToken token.text, span := token.span }) ∨
      ∃ last, (ofSource source).tokens.getLast? = some last ∧ error.cause = .unexpectedEnd ∧
        error.span.start = last.span.stop ∧ error.span.stop = last.span.stop) ∧
    ((ofSource source).tokens = [] →
      (∃ script, parse source = .ok script) ∧ parseExpression source = .ok none) ∧
    (∀ token ∈ (ofSource source).tokens, token.kind = .number →
      (Number.value? token.text.toList).isSome = true) ∧
    ∀ p token, (ofSource source).token? p = some token →
      token.kind = .number ∨ token.kind = .boolean ∨ token.kind = .string →
        ∃ value, literalValue (ofSource source) token p = .ok value := by
  have hscript : (ofSource source).size = 0 → ∃ script, parse source = .ok script := by
    intro hsize
    obtain ⟨script, hparse, -⟩ := parse_eq_of_size_eq_zero hsize
    exact ⟨script, hparse⟩
  have hexpression : (ofSource source).size = 0 → parseExpression source = .ok none :=
    parseExpression_eq_of_size_eq_zero
  refine ⟨fun error herror => ?_, fun htokens => ?_, fun token htoken hkind => ?_, ?_⟩
  · have hcases : (∃ token ∈ (ofSource source).tokens, error = .atToken token) ∨
        ∃ last, (ofSource source).tokens.getLast? = some last ∧ error = .atEnd (some last) := by
      rcases herror with herror | herror
      · exact (parse_fails source).cases hscript herror
      · exact (parseExpression_fails source).cases (fun hsize => ⟨_, hexpression hsize⟩) herror
    rcases hcases with htoken | ⟨last, hlast, rfl⟩
    · exact .inl htoken
    · exact .inr ⟨last, hlast, rfl, rfl, rfl⟩
  · have hsize : (ofSource source).size = 0 := by simpa [Stream.tokens, Stream.size] using htokens
    exact ⟨hscript hsize, hexpression hsize⟩
  · obtain ⟨item, hitem, rfl⟩ := List.mem_map.mp htoken
    rcases Stream.ofSource_fromLexer source item (Array.mem_toList_iff.mp hitem) with
      hlexed | ⟨hstring, -⟩
    · exact hlexed.value?_isSome hkind
    · exact absurd (hkind.symm.trans hstring) (by decide)
  · exact fun _ _ => exists_literalValue

/-- A hexadecimal number in a call that is not closed, and a source of comments. -/
theorem parse_refusals_open_call :
    (∃ error last, parse "f(0xFf".toList = .error error ∧
      (ofSource "f(0xFf".toList).tokens.getLast? = some last ∧
      (Number.value? last.text.toList).isSome = true ∧
      error.cause = .unexpectedEnd ∧ error.span.start = last.span.stop) ∧
    parseExpression "/* a */\n; b".toList = .ok none := by
  obtain ⟨hnamed, -, hnumbers, -⟩ := parse_refusals "f(0xFf".toList
  have hcause : (match parse "f(0xFf".toList with
      | .error error => some error.cause
      | .ok _ => none) = some .unexpectedEnd := by decide +kernel
  have hkind : ∀ last, (ofSource "f(0xFf".toList).tokens.getLast? = some last →
      last.kind = .number := by decide +kernel
  have hempty : (ofSource "/* a */\n; b".toList).tokens = [] := by decide +kernel
  refine ⟨?_, ((parse_refusals "/* a */\n; b".toList).2.1 hempty).2⟩
  cases h : parse "f(0xFf".toList with
  | ok script =>
    rw [h] at hcause
    cases hcause
  | error error =>
    rw [h] at hcause
    rcases hnamed error (.inl h) with ⟨token, -, rfl⟩ | ⟨last, hlast, hend, hstart, -⟩
    · cases hcause
    · exact ⟨error, last, rfl, hlast,
        hnumbers last (List.mem_of_getLast? hlast) (hkind last hlast), hend, hstart⟩

end HotkeyScript
