import HotkeyScript.Proofs.Grammar.StatementEquation
import HotkeyScript.Tree.Node

/-!
# The rule that a statement comes from

The rules for statements are tried in a fixed order, and each gives statements of its own kinds. So
the kind of a statement tells the rule that it comes from, and that all rules before it found
nothing. A rule finds nothing by the tokens at its start alone, before it asks for a statement
inside.

## Main definitions

* `Grammar.Unclaimed` — the rules before the one for commands find nothing.
-/

namespace HotkeyScript.Grammar

variable {stream stream' : Stream} {statement statement' : StmtParser} {s : Stmt} {p q : Nat}

/-! ## Kinds of statements -/

/-- The keywords that start a statement. -/
def flowKeywords : List Keyword :=
  [.ifWord, .whileWord, .loopWord, .forWord, .tryWord]

/-- The kinds of the statements that start with a keyword. -/
def flowKinds : List NodeKind :=
  [.branch, .whileLoop, .loop, .forLoop, .attempt]

theorem kind_of_hotstring (h : hotstring stream statement p = .ok (some (s, q))) :
    s.kind = .hotstring := by
  rw [hotstring_eq] at h
  split at h
  · cases h
  · obtain ⟨⟨rest, stop⟩, -, h⟩ := bind_eq_ok.mp h
    obtain ⟨-, rfl, -⟩ := guard_eq_found h
    rfl

theorem kind_of_hotkey (h : hotkey stream statement p = .ok (some (s, q))) : s.kind = .hotkey := by
  rw [hotkey_eq] at h
  split at h
  · cases h
  · simp only at h
    split at h
    · obtain ⟨-, rfl, -⟩ := guard_eq_found h
      rfl
    · obtain ⟨⟨a, stop⟩, -, h⟩ := bind_eq_ok.mp h
      obtain ⟨-, rfl, -⟩ := guard_eq_found h
      rfl

theorem kind_of_label (h : label stream p = .ok (some (s, q))) : s.kind = .label := by
  unfold label at h
  split at h
  · cases h
  · cases h
    rfl

theorem kind_of_blockStatement (h : blockStatement stream statement p = .ok (some (s, q))) :
    s.kind = .block := by
  obtain ⟨_ | ⟨braces, stop⟩, -, h⟩ := bind_eq_ok.mp h
  · cases h
  · cases h
    rfl

theorem kind_of_flow (h : flow stream statement p = .ok (some (s, q))) : s.kind ∈ flowKinds := by
  rcases flow_cases h with h | h | h | h | h
  · simp only [ifStatement_eq, bind_eq_ok] at h
    obtain ⟨_, -, _, -, _, -, ⟨⟩⟩ := h
    simp [Stmt.kind, flowKinds]
  · simp only [whileStatement, bind_eq_ok] at h
    obtain ⟨_, -, _, -, ⟨⟩⟩ := h
    simp [Stmt.kind, flowKinds]
  · simp only [loopStatement_eq, bind_eq_ok] at h
    obtain ⟨_, -, _, -, _, -, ⟨⟩⟩ := h
    simp [Stmt.kind, flowKinds]
  · simp only [forStatement_eq, forRest, bind_eq_ok] at h
    obtain ⟨_, -, _, -, h⟩ := h
    split at h
    · simp only [bind_eq_ok] at h
      obtain ⟨_, -, _, -, _, -, ⟨⟩⟩ := h
      simp [Stmt.kind, flowKinds]
    · cases h
  · simp only [tryStatement, bind_eq_ok] at h
    obtain ⟨_, -, _, -, _, -, ⟨⟩⟩ := h
    simp [Stmt.kind, flowKinds]

theorem kind_of_command (h : command stream p = .ok (some (s, q))) : s.kind = .command := by
  obtain ⟨name, arguments, -, -, -, rfl⟩ := exists_of_command h
  rfl

/-- The last rule gives functions and expressions. -/
theorem function_or_expression_of_expressionStatement
    (h : expressionStatement stream statement p = .ok (some (s, q))) :
    s.kind = .function ∨ ∃ e, s = .expression e := by
  unfold expressionStatement at h
  split at h
  · cases h
    exact .inr ⟨_, rfl⟩
  · obtain ⟨_ | ⟨e, next⟩, -, h⟩ := bind_eq_ok.mp h
    · cases h
    · simp only at h
      split at h
      · cases h
        exact .inr ⟨e, rfl⟩
      · obtain ⟨⟨braces, stop⟩, -, h⟩ := bind_eq_ok.mp h
        cases h
        exact .inl rfl

/-! ## Rules that find nothing -/

theorem hotstring_eq_none_iff : hotstring stream statement p = .ok none ↔
    (if stream.reads p ":" then hotstringHead stream p else none) = none := by
  rw [hotstring_eq]
  cases hhead : (if stream.reads p ":" then hotstringHead stream p else none) with
  | none => simp
  | some head =>
    simp only [reduceCtorEq, iff_false, bind_eq_ok]
    rintro ⟨⟨rest, stop⟩, -, h⟩
    simp only at h
    split at h <;> cases h

theorem hotkey_eq_none_iff :
    hotkey stream statement p = .ok none ↔ trigger stream p = none := by
  rw [hotkey_eq]
  cases htrigger : trigger stream p with
  | none => simp
  | some read =>
    simp only [reduceCtorEq, iff_false]
    intro h
    split at h
    · simp only [ok_bind] at h
      split at h <;> cases h
    · obtain ⟨⟨a, stop⟩, -, h⟩ := bind_eq_ok.mp h
      simp only at h
      split at h <;> cases h

theorem blockStatement_eq_none_iff :
    blockStatement stream statement p = .ok none ↔ stream.reads p "\x7b" = false := by
  simp only [blockStatement, block]
  split
  · next hopen =>
    simp only [hopen, Bool.true_eq_false, iff_false, bind_eq_ok]
    rintro ⟨_ | read, h, h'⟩
    · obtain ⟨_, -, _, -, h⟩ := h
      cases h
    · cases h'
  · next hopen => simpa [ok_bind] using hopen

/-- Whether a keyword starts a statement is a matter of the keyword. -/
theorem flow_eq_none_iff : flow stream statement p = .ok none ↔
    ∀ keyword ∈ flowKeywords, (stream.token? p).bind Keyword.ofToken? ≠ some keyword := by
  simp only [flow]
  cases (stream.token? p).bind Keyword.ofToken? with
  | none => simp
  | some keyword => cases keyword <;> simp [flowKeywords, map_eq_ok]

/-! ## Commands -/

/-- The rules before the one for commands find nothing at a position. -/
structure Unclaimed (stream : Stream) (p : Nat) : Prop where
  hotstring : hotstring stream (Grammar.statement stream) p = .ok none
  hotkey : hotkey stream (Grammar.statement stream) p = .ok none
  label : label stream p = .ok none
  block : blockStatement stream (Grammar.statement stream) p = .ok none
  flow : flow stream (Grammar.statement stream) p = .ok none

/-- A statement comes from one of the rules, and the rules before the one for commands find nothing
where that one gives it. -/
theorem statement_cases (h : Grammar.statement stream p = .ok (some (s, q))) :
    hotstring stream (Grammar.statement stream) p = .ok (some (s, q)) ∨
      hotkey stream (Grammar.statement stream) p = .ok (some (s, q)) ∨
      label stream p = .ok (some (s, q)) ∨
      blockStatement stream (Grammar.statement stream) p = .ok (some (s, q)) ∨
      flow stream (Grammar.statement stream) p = .ok (some (s, q)) ∨
      (Unclaimed stream p ∧ command stream p = .ok (some (s, q))) ∨
      expressionStatement stream (Grammar.statement stream) p = .ok (some (s, q)) := by
  rw [statement_eq, statementRules] at h
  rcases orTry_eq_found.mp h with h | ⟨hhotstring, h⟩
  · exact .inl h
  rcases orTry_eq_found.mp h with h | ⟨hhotkey, h⟩
  · exact .inr (.inl h)
  rcases orTry_eq_found.mp h with h | ⟨hlabel, h⟩
  · exact .inr (.inr (.inl h))
  rcases orTry_eq_found.mp h with h | ⟨hblock, h⟩
  · exact .inr (.inr (.inr (.inl h)))
  rcases orTry_eq_found.mp h with h | ⟨hflow, h⟩
  · exact .inr (.inr (.inr (.inr (.inl h))))
  rcases orTry_eq_found.mp h with h | ⟨-, h⟩
  · exact .inr (.inr (.inr (.inr (.inr (.inl ⟨⟨hhotstring, hhotkey, hlabel, hblock, hflow⟩, h⟩)))))
  · exact .inr (.inr (.inr (.inr (.inr (.inr h)))))

theorem kind_of_expressionStatement
    (h : expressionStatement stream statement p = .ok (some (s, q))) :
    s.kind ≠ .hotstring ∧ s.kind ≠ .hotkey := by
  rcases function_or_expression_of_expressionStatement h with hfunction | ⟨e, rfl⟩
  · simp [hfunction]
  · cases e <;> simp [Stmt.kind, Expr.kind]

/-- A hotstring comes from the first rule. -/
theorem hotstring_of_statement (h : Grammar.statement stream p = .ok (some (s, q)))
    (hkind : s.kind = .hotstring) :
    hotstring stream (Grammar.statement stream) p = .ok (some (s, q)) := by
  rcases statement_cases h with h | h | h | h | h | ⟨-, h⟩ | h
  · exact h
  · cases (kind_of_hotkey h).symm.trans hkind
  · cases (kind_of_label h).symm.trans hkind
  · cases (kind_of_blockStatement h).symm.trans hkind
  · have hmem := kind_of_flow h
    simp [hkind, flowKinds] at hmem
  · cases (kind_of_command h).symm.trans hkind
  · exact absurd hkind (kind_of_expressionStatement h).1

/-- A hotkey comes from the second. -/
theorem hotkey_of_statement (h : Grammar.statement stream p = .ok (some (s, q)))
    (hkind : s.kind = .hotkey) :
    hotkey stream (Grammar.statement stream) p = .ok (some (s, q)) := by
  rcases statement_cases h with h | h | h | h | h | ⟨-, h⟩ | h
  · cases (kind_of_hotstring h).symm.trans hkind
  · exact h
  · cases (kind_of_label h).symm.trans hkind
  · cases (kind_of_blockStatement h).symm.trans hkind
  · have hmem := kind_of_flow h
    simp [hkind, flowKinds] at hmem
  · cases (kind_of_command h).symm.trans hkind
  · exact absurd hkind (kind_of_expressionStatement h).2

/-- A statement of one of the kinds that start with a keyword comes from the rule for them. -/
theorem flow_of_statement (h : Grammar.statement stream p = .ok (some (s, q)))
    (hkind : s.kind ∈ flowKinds) :
    flow stream (Grammar.statement stream) p = .ok (some (s, q)) := by
  rcases statement_cases h with h | h | h | h | h | ⟨-, h⟩ | h
  · simp [kind_of_hotstring h, flowKinds] at hkind
  · simp [kind_of_hotkey h, flowKinds] at hkind
  · simp [kind_of_label h, flowKinds] at hkind
  · simp [kind_of_blockStatement h, flowKinds] at hkind
  · exact h
  · simp [kind_of_command h, flowKinds] at hkind
  · rcases function_or_expression_of_expressionStatement h with hfunction | ⟨e, rfl⟩
    · simp [hfunction, flowKinds] at hkind
    · cases e <;> simp [Stmt.kind, Expr.kind, flowKinds] at hkind

/-- A command is what the rule for commands gives, and no rule before it finds anything. -/
theorem statement_eq_command_iff (hkind : s.kind = .command) :
    Grammar.statement stream p = .ok (some (s, q)) ↔
      Unclaimed stream p ∧ command stream p = .ok (some (s, q)) := by
  constructor
  · intro h
    rcases statement_cases h with h | h | h | h | h | h | h
    · cases (kind_of_hotstring h).symm.trans hkind
    · cases (kind_of_hotkey h).symm.trans hkind
    · cases (kind_of_label h).symm.trans hkind
    · cases (kind_of_blockStatement h).symm.trans hkind
    · have hmem := kind_of_flow h
      simp [hkind, flowKinds] at hmem
    · exact h
    · rcases function_or_expression_of_expressionStatement h with hfunction | ⟨e, rfl⟩
      · cases hfunction.symm.trans hkind
      · cases e <;> cases hkind
  · rintro ⟨hunclaimed, h⟩
    rw [statement_eq, statementRules, hunclaimed.hotstring, hunclaimed.hotkey, hunclaimed.label,
      hunclaimed.block, hunclaimed.flow, h]
    rfl

/-! ## Words -/

section Word

variable {token next : Token} (htoken : stream.token? p = some token) (hkind : token.kind = .word)
  (hchars : ∀ c ∈ token.text.toList, Token.isWordChar c = true)
  (hkeyword : ∀ keyword ∈ flowKeywords, Keyword.ofToken? token ≠ some keyword)
  (hnext : stream.token? (p + 1) = some next)

theorem reads_eq_false {text : String} (htoken : stream.token? p = some token)
    (h : token.text ≠ text) : stream.reads p text = false := by
  simp [Stream.reads, htoken, h]

include htoken hchars in
theorem reads_of_isWordChar {text : String} (h : text.toList.any (!Token.isWordChar ·) = true) :
    stream.reads p text = false := by
  refine reads_eq_false htoken ?_
  rintro rfl
  obtain ⟨c, hc, hno⟩ := List.any_eq_true.mp h
  simp [hchars c hc] at hno

section Next

variable (hcolon : next.text ≠ ":") (hand : next.text ≠ "&") (hup : next.is "up" = false)

include htoken hkind hnext hcolon hand hup in
/-- A word starts no hotkey if the next token is no part of one. -/
theorem trigger_of_word : trigger stream p = none := by
  have hlt := Stream.lt_size_of_token? htoken
  have hmodifiers : modifiersEnd stream p = p := by
    refine Stream.skip_eq_of (Nat.le_refl p) (Nat.le_of_lt hlt) (fun j hle hlt => by omega) ?_
    simp [htoken, isModifier, hkind]
  have hcloses : closesTrigger stream (p + 1) = false := by
    simp [closesTrigger, Stream.isDoubleColon, reads_eq_false hnext hcolon]
  have hnumbered : numberedKey stream p = none := by
    simp only [numberedKey, htoken]
    split <;> simp_all
  have hkey : key stream p = none ∨ ∃ k, key stream p = some (k, p + 1) := by
    simp only [key, hnumbered, Option.none_or, namedKey, htoken, hnext, Option.any_some, hup,
      Bool.and_false, Bool.false_eq_true, if_false]
    split
    · exact .inr ⟨_, rfl⟩
    · exact .inl rfl
  have hcombined : stream.continuesWith (p + 1) "&" = false := by
    simp [Stream.continuesWith, reads_eq_false hnext hand]
  rcases hkey with hkey | ⟨k, hkey⟩ <;>
    simp [trigger, hmodifiers, htoken, hcloses, combination, hkey, hcombined]

include htoken hkind hchars hkeyword hnext hcolon hand hup in
/-- No rule before the one for commands finds anything at a word that is no keyword that starts a
statement, if the next token is part neither of a hotkey nor of a label. -/
theorem unclaimed_of_word
    (hlabel : endsLabel next.text = true ∨ stream.touchesPrevious (p + 1) = false) :
    Unclaimed stream p where
  hotstring := by
    rw [hotstring_eq_none_iff, reads_of_isWordChar htoken hchars (by decide)]
    rfl
  hotkey := hotkey_eq_none_iff.mpr (trigger_of_word htoken hkind hnext hcolon hand hup)
  label := by
    have hlt := Stream.lt_size_of_token? hnext
    have hstop : stream.skip (fun i => (!stream.startsLine i && stream.touchesPrevious i) &&
        (stream.token? i).any fun token => !endsLabel token.text) (p + 1) = p + 1 := by
      refine Stream.skip_eq_of (Nat.le_refl _) (Nat.le_of_lt hlt) (fun j hle hlt => by omega) ?_
      rcases hlabel with hlabel | hlabel <;> simp [hnext, hlabel]
    simp [label, labelEnd?, hstop, reads_eq_false hnext hcolon]
  block := blockStatement_eq_none_iff.mpr (reads_of_isWordChar htoken hchars (by decide))
  flow := by
    rw [flow_eq_none_iff, htoken]
    exact hkeyword

end Next

end Word

/-! ## Double colons -/

theorem closesTrigger_of_trigger {read : Trigger} {colons : Nat}
    (h : trigger stream p = some (read, colons)) : closesTrigger stream colons = true := by
  simp only [trigger] at h
  split at h
  · cases h
  split at h
  · cases h
  split at h
  · next hcloses =>
    obtain ⟨last, -, ⟨⟩⟩ := Option.map_eq_some_iff.mp h
    exact (Bool.and_eq_true_iff.mp hcloses).2
  split at h
  · next hcloses =>
    cases h
    simp only [Bool.and_eq_true] at hcloses
    exact hcloses.1.1
  split at h
  · simp only [Option.bind_eq_bind, Option.bind_eq_some_iff] at h
    obtain ⟨⟨⟨first, second⟩, next⟩, -, h⟩ := h
    simp only at h
    split at h
    · next hcloses =>
      cases h
      exact hcloses
    · cases h
  · cases h

theorem isDoubleColon_of_triggerEndWithin? {bound : Nat} {escaped : Bool} {colons : Nat}
    (h : triggerEndWithin? stream bound escaped p = some colons) :
    stream.isDoubleColon colons = true := by
  fun_induction triggerEndWithin? stream bound escaped p with
  | case1 => cases h
  | case2 => cases h
  | case3 bound escaped p _ _ ih => exact ih h
  | case4 bound escaped p _ _ hcolons =>
    cases h
    exact hcolons
  | case5 bound escaped p _ _ _ ih => exact ih h

theorem isDoubleColon_of_hotstringHead {head : List String × LegacyLiteral} {colons : Nat}
    (h : hotstringHead stream p = some (head, colons)) : stream.isDoubleColon colons = true := by
  simp only [hotstringHead, Option.bind_eq_bind, Option.bind_eq_some_iff] at h
  obtain ⟨close, -, options, -, stop, hstop, h⟩ := h
  split at h
  · cases h
  · cases h
    exact isDoubleColon_of_triggerEndWithin? hstop

theorem exists_isDoubleColon_of_hotstring (h : hotstring stream statement p = .ok (some (s, q))) :
    ∃ colons, stream.isDoubleColon colons = true := by
  cases hhead : (if stream.reads p ":" then hotstringHead stream p else none) with
  | none => cases h.symm.trans (hotstring_eq_none_iff.mpr hhead)
  | some head =>
    split at hhead
    · exact ⟨head.2, isDoubleColon_of_hotstringHead hhead⟩
    · cases hhead

theorem exists_isDoubleColon_of_hotkey (h : hotkey stream statement p = .ok (some (s, q))) :
    ∃ colons, stream.isDoubleColon colons = true := by
  cases htrigger : trigger stream p with
  | none => cases h.symm.trans (hotkey_eq_none_iff.mpr htrigger)
  | some read =>
    have hcloses := closesTrigger_of_trigger htrigger
    exact ⟨read.2, (Bool.and_eq_true_iff.mp hcloses).2⟩

/-- There is a double colon in a hotkey or a hotstring. -/
theorem exists_isDoubleColon_of_statement (h : Grammar.statement stream p = .ok (some (s, q)))
    (hkind : s.kind = .hotkey ∨ s.kind = .hotstring) :
    ∃ colons, stream.isDoubleColon colons = true := by
  rcases hkind with hkind | hkind
  · exact exists_isDoubleColon_of_hotkey (hotkey_of_statement h hkind)
  · exact exists_isDoubleColon_of_hotstring (hotstring_of_statement h hkind)

end HotkeyScript.Grammar
