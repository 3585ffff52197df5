import HotkeyScript.Grammar.Hotkey
import HotkeyScript.Proofs.Grammar.Loops
import HotkeyScript.Proofs.Stream.Plain
import HotkeyScript.Proofs.Token.Symbol

/-!
# Runs of modifiers

The modifiers of a hotkey are written without spaces, but the lexer does not read them one by one.
Some are operators elsewhere, and two of these in a row may be one token; an equals sign behind them
may be joined to the last. So a run of modifiers ends where it was meant to end, unless the key
behind it is an equals sign.

## Main definitions

* `Grammar.modifierPairs` — the modifiers that are two characters and one token.
* `Grammar.joinsEquals` — an equals sign behind the modifiers is read together with the last.
* `Grammar.Modified` — tokens that are modifiers, each touching the one before, and their text.
-/

namespace HotkeyScript.Grammar

open HotkeyScript.Stream (ofSource Plain Flush)
open Text (isBlank)
open Token (isWordChar operatorLength operators)

variable {source : Source} {stream : Stream} {before m rest : List Char} {c d : Char}
  {i j p q : Nat} {token : Token}

/-! ## Single modifiers -/

theorem of_mem_modifierChars (h : c ∈ modifierChars) :
    isWordChar c = false ∧ c ≠ ';' ∧ c ≠ '"' ∧ isBlank c = false ∧ Text.isLineBreak c = false ∧
      c ≠ ':' ∧ c ≠ Source.byteOrderMark := by
  have hall : modifierChars.all fun c => isWordChar c = false ∧ c ≠ ';' ∧ c ≠ '"' ∧
      isBlank c = false ∧ Text.isLineBreak c = false ∧ c ≠ ':' ∧ c ≠ Source.byteOrderMark := by
    decide
  exact of_decide_eq_true (List.all_eq_true.mp hall c h)

theorem isModifier_iff : isModifier token = true ↔
    token.kind = .symbol ∧ ∀ c ∈ token.text.toList, c ∈ modifierChars := by
  simp [isModifier]

/-- The modifiers that are two characters and one token. -/
def modifierPairs : List String :=
  ["++", "**", "<<", ">>", "<>"]

/-- A modifier is a single character or one of the pairs. -/
theorem text_of_isModifier (h : Token.Lexed source token) (hmodifier : isModifier token = true) :
    token.text.length = 1 ∨ token.text ∈ modifierPairs := by
  have hoperators : ∀ op ∈ operators, op.toList ⊆ modifierChars → op ∈ modifierPairs := by decide
  obtain ⟨hkind, hchars⟩ := isModifier_iff.mp hmodifier
  rcases h.text_of_symbol hkind with hlength | hoperator | hword
  · exact .inl (by rwa [String.length_toList] at hlength)
  · exact .inr (hoperators _ hoperator hchars)
  · obtain ⟨c, cs, htext, -⟩ := h.first
    have hc : c ∈ token.text.toList := by simp [htext]
    have hno := (of_mem_modifierChars (hchars c hc)).1
    exact absurd ((hword c hc).symm.trans hno) Bool.noConfusion

/-! ## Operators among modifiers -/

/-- An operator that starts a text has its first two characters. -/
theorem exists_cons_of_operator {op : String} (hop : op ∈ operators)
    (hstarts : op.toList <+: c :: d :: rest) :
    ∃ more, op.toList = c :: d :: more ∧ more <+: rest := by
  have htwo : ∀ op ∈ operators, 2 ≤ op.toList.length := by decide
  have hlength := htwo op hop
  match hop' : op.toList with
  | [] | [_] => simp [hop'] at hlength
  | e :: e' :: more =>
    rw [hop', List.cons_prefix_cons, List.cons_prefix_cons] at hstarts
    obtain ⟨rfl, rfl, hmore⟩ := hstarts
    exact ⟨more, rfl, hmore⟩

section Operators

variable (hc : c ∈ modifierChars)
include hc

/-- A modifier and what the lexer reads with it is one symbol. -/
theorem lexeme_modifier (before : Option Char) (fresh : Bool) (cs : List Char) :
    Token.lexeme before fresh (c :: cs) = (.symbol, max 1 (operatorLength (c :: cs))) := by
  obtain ⟨hword, hsemicolon, hquote, -⟩ := of_mem_modifierChars hc
  exact Token.lexeme_of_symbol hword hsemicolon hquote before fresh cs

/-- Two modifiers that are no pair are two tokens. -/
theorem operatorLength_unpaired (hd : d ∈ modifierChars)
    (hpair : String.ofList [c, d] ∉ modifierPairs) (rest : List Char) :
    operatorLength (c :: d :: rest) = 0 := by
  have hoperators : ∀ op ∈ operators, op.toList.take 2 ⊆ modifierChars →
      String.ofList (op.toList.take 2) ∈ modifierPairs := by decide
  refine Token.operatorLength_eq_zero fun op hop hstarts => hpair ?_
  obtain ⟨more, hop', -⟩ := exists_cons_of_operator hop hstarts
  have htake : op.toList.take 2 = [c, d] := by simp [hop']
  have hpair' := hoperators op hop
  rw [htake] at hpair'
  exact hpair' (by simp [hc, hd])

/-- A modifier is a token by itself, if what follows is no modifier and no equals sign that makes it
an operator. -/
theorem operatorLength_last (hd : d ∉ modifierChars)
    (hequals : d = '=' → String.ofList [c, '='] ∉ operators) (rest : List Char) :
    operatorLength (c :: d :: rest) = 0 := by
  have hoperators : ∀ op ∈ operators, op.toList.take 1 ⊆ modifierChars →
      op.toList.take 2 ⊆ modifierChars ∨ op.toList.drop 1 = ['='] := by decide
  refine Token.operatorLength_eq_zero fun op hop hstarts => ?_
  obtain ⟨more, hop', -⟩ := exists_cons_of_operator hop hstarts
  rcases hoperators op hop (by simp [hop', hc]) with htwo | hlast
  · exact hd (htwo (by simp [hop']))
  · obtain ⟨rfl, rfl⟩ : d = '=' ∧ more = [] := by simpa [hop'] using hlast
    exact hequals rfl (by rwa [← hop', String.ofList_toList])

end Operators

/-- A pair is one token, if it is no operator together with an equals sign behind it. -/
theorem operatorLength_pair (hpair : String.ofList [c, d] ∈ modifierPairs)
    (hrest : rest.head? = some '=' → String.ofList [c, d, '='] ∉ operators) :
    operatorLength (c :: d :: rest) = 2 := by
  have hoperators : ∀ pair ∈ modifierPairs, pair ∈ operators := by decide
  have hthird : ∀ op ∈ operators, op.toList.length ≤ 2 ∨ op.toList.drop 2 = ['='] := by decide
  have hlength : (String.ofList [c, d]).length = 2 := by rw [← String.length_toList]; simp
  rw [← hlength]
  refine Token.operatorLength_eq_length (hoperators _ hpair) (by simp) fun op hop hstarts => ?_
  obtain ⟨more, hop', hmore⟩ := exists_cons_of_operator hop hstarts
  rcases hthird op hop with hshort | hequals
  · rw [hlength, ← String.length_toList]
    exact hshort
  · obtain rfl : more = ['='] := by simpa [hop'] using hequals
    obtain ⟨rest', rfl⟩ := hmore
    refine absurd ?_ (hrest rfl)
    rwa [← hop', String.ofList_toList]

/-- An operator that ends with an equals sign is read as a whole. -/
theorem operatorLength_joined (hop : String.ofList (m ++ ['=']) ∈ operators) (rest : List Char) :
    operatorLength (m ++ '=' :: rest) = m.length + 1 := by
  have hlonger : ∀ op ∈ operators, op.toList.getLast? = some '=' →
      ∀ other ∈ operators, op.toList <+: other.toList → other.length ≤ op.length := by decide
  have hlength : (String.ofList (m ++ ['='])).length = m.length + 1 := by
    rw [← String.length_toList]
    simp
  rw [← hlength]
  refine Token.operatorLength_eq_length hop (by simp) fun other hother hstarts => ?_
  rcases Nat.le_total other.length (String.ofList (m ++ ['='])).length with hle | hle
  · exact hle
  · refine hlonger _ hop (by simp) other hother (List.prefix_of_prefix_length_le ?_ hstarts ?_)
    · simp
    · rwa [String.length_toList, String.length_toList]

/-! ## Runs -/

/-- An equals sign behind the modifiers is read together with the last of them. Pairs are read from
the left, and an equals sign is joined to what makes an operator with it. -/
def joinsEquals : List Char → Bool
  | c :: d :: cs =>
    if String.ofList [c, d] ∈ modifierPairs then
      (cs.isEmpty && String.ofList [c, d, '='] ∈ operators) || joinsEquals cs
    else joinsEquals (d :: cs)
  | [c] => String.ofList [c, '='] ∈ operators
  | [] => false

/-- The tokens from `i` up to, and without, `j` are modifiers with the text `m` in all. None of them
starts apart from the token before it. -/
inductive Modified (stream : Stream) : List Char → Nat → Nat → Prop
  | nil {i : Nat} : Modified stream [] i i
  | cons {token : Token} {m : List Char} {i j : Nat} : stream.token? i = some token →
      isModifier token = true → (0 < i → stream.touchesPrevious i = true) →
      Modified stream m (i + 1) j → Modified stream (token.text.toList ++ m) i j

theorem Modified.le (h : Modified stream m i j) : i ≤ j := by
  induction h with
  | nil => exact Nat.le_refl _
  | cons _ _ _ _ ih => omega

theorem Modified.inModifiers (h : Modified stream m i j)
    (hline : ∀ k, 0 < k → k < stream.size → stream.startsLine k = false) {k : Nat} (hle : i ≤ k)
    (hlt : k < j) : Grammar.inModifiers stream 0 k = true := by
  induction h with
  | nil => omega
  | @cons token m i j htoken hmodifier htouches _ ih =>
    rcases Nat.eq_or_lt_of_le hle with rfl | hlt'
    · rcases Nat.eq_zero_or_pos i with rfl | hpos
      · simp [Grammar.inModifiers, htoken, hmodifier]
      · have hstarts := hline i hpos (Stream.lt_size_of_token? htoken)
        simp [Grammar.inModifiers, htoken, hmodifier, linked, hstarts, htouches hpos]
    · exact ih hlt' hlt

theorem Modified.flatMap_textAt (h : Modified stream m i j) :
    (List.range' i (j - i)).flatMap stream.textAt = m := by
  induction h with
  | nil => simp
  | @cons token m i j htoken hmodifier htouches hrest ih =>
    have hle := hrest.le
    obtain ⟨n, hn⟩ : ∃ n, j - i = n + 1 := ⟨j - i - 1, by omega⟩
    have hn' : j - (i + 1) = n := by omega
    rw [hn, List.range'_succ, List.flatMap_cons, ← hn', ih, Stream.textAt, htoken]
    rfl

theorem eq_nil_of_head? {cs : List Char} (hcs : ∀ c ∈ cs, c ∈ modifierChars)
    (h : (cs ++ rest).head? = some '=') : cs = [] := by
  cases cs with
  | nil => rfl
  | cons c cs =>
    cases h
    exact absurd (hcs '=' List.mem_cons_self) (by decide)

section Reading

variable (plain : Plain source)
include plain

/-- Where the lexer reads some modifiers and no more, they are one token of the run. -/
theorem modified_append {text : List Char} (h : Flush source before (text ++ rest) i)
    (htext : ∀ c ∈ text, c ∈ modifierChars) (hne : text ≠ [])
    (hlength : max 1 (operatorLength (text ++ rest)) = text.length) :
    (∀ m j, Modified (ofSource source) m (i + 1) j →
      Modified (ofSource source) (text ++ m) i j) ∧
      Flush source (before ++ text) rest (i + 1) := by
  obtain ⟨c, cs, rfl⟩ := List.exists_cons_of_ne_nil hne
  have hc := htext c List.mem_cons_self
  have hlexeme := fun before fresh => lexeme_modifier hc before fresh (cs ++ rest)
  obtain ⟨token, htoken, htoken', ⟨before', fresh, hkind⟩, htouches, hnext⟩ :=
    h.next plain ⟨c, rfl, (of_mem_modifierChars hc).2.2.2.1⟩
      fun before fresh => by rw [List.cons_append, hlexeme, ← List.cons_append, hlength]
  rw [List.cons_append, hlexeme] at hkind
  refine ⟨fun m j hrest => ?_, hnext⟩
  have hmodifier : isModifier token = true := isModifier_iff.mpr ⟨hkind, by rwa [htoken']⟩
  exact htoken' ▸ .cons htoken hmodifier htouches hrest

theorem modified_single (h : Flush source before (c :: rest) i) (hc : c ∈ modifierChars)
    (hlength : operatorLength (c :: rest) = 0) :
    (∀ m j, Modified (ofSource source) m (i + 1) j → Modified (ofSource source) (c :: m) i j) ∧
      Flush source (before ++ [c]) rest (i + 1) :=
  modified_append plain (show Flush source before ([c] ++ rest) i from h) (by simpa using hc)
    (List.cons_ne_nil c []) (by simp [hlength])

theorem modified_pair (h : Flush source before (c :: d :: rest) i) (hc : c ∈ modifierChars)
    (hd : d ∈ modifierChars) (hpair : String.ofList [c, d] ∈ modifierPairs)
    (hrest : rest.head? = some '=' → String.ofList [c, d, '='] ∉ operators) :
    (∀ m j, Modified (ofSource source) m (i + 1) j →
      Modified (ofSource source) (c :: d :: m) i j) ∧
      Flush source (before ++ [c, d]) rest (i + 1) :=
  modified_append plain (show Flush source before ([c, d] ++ rest) i from h)
    (by simpa using ⟨hc, hd⟩) (List.cons_ne_nil c [d]) (by simp [operatorLength_pair hpair hrest])

/-- The lexer reads a run of modifiers to its end, if what follows is not joined to the last. -/
theorem exists_modified (hm : ∀ c ∈ m, c ∈ modifierChars) (hd : d ∉ modifierChars)
    (hjoins : d = '=' → joinsEquals m = false) (h : Flush source before (m ++ d :: rest) i) :
    ∃ j, Modified (ofSource source) m i j ∧ Flush source (before ++ m) (d :: rest) j := by
  fun_induction joinsEquals m generalizing before i with
  | case1 c e cs hpair ih =>
    simp only [Bool.or_eq_false_iff] at hjoins
    have hcs : ∀ c ∈ cs, c ∈ modifierChars := fun c hc => hm c (by simp [hc])
    have hrest : (cs ++ d :: rest).head? = some '=' → String.ofList [c, e, '='] ∉ operators := by
      intro hhead
      obtain rfl := eq_nil_of_head? hcs hhead
      cases hhead
      simpa using (hjoins rfl).1
    obtain ⟨happend, hnext⟩ :=
      modified_pair plain h (hm c (by simp)) (hm e (by simp)) hpair hrest
    obtain ⟨j, hmodified, hflush⟩ := ih hcs (fun heq => (hjoins heq).2) hnext
    exact ⟨j, happend _ _ hmodified, by simpa using hflush⟩
  | case2 c e cs hpair ih =>
    have hc := hm c (by simp)
    obtain ⟨happend, hnext⟩ := modified_single plain h hc
      (operatorLength_unpaired hc (hm e (by simp)) hpair (cs ++ d :: rest))
    obtain ⟨j, hmodified, hflush⟩ := ih (fun c hc => hm c (List.mem_cons_of_mem _ hc)) hjoins hnext
    exact ⟨j, happend _ _ hmodified, by simpa using hflush⟩
  | case3 c =>
    have hc := hm c (by simp)
    obtain ⟨happend, hnext⟩ := modified_single plain h hc
      (operatorLength_last hc hd (by simpa using hjoins) rest)
    exact ⟨i + 1, happend _ _ .nil, hnext⟩
  | case4 => exact ⟨i, .nil, by simpa using h⟩

/-- Modifiers that make an operator with the equals sign behind them are one token with it. -/
theorem exists_operator (h : Flush source before (m ++ '=' :: rest) i)
    (hm : ∀ c ∈ m, c ∈ modifierChars) (hne : m ≠ [])
    (hoperator : String.ofList (m ++ ['=']) ∈ operators) :
    ∃ token, (ofSource source).token? i = some token ∧
      (0 < i → (ofSource source).touchesPrevious i = true) ∧ token.kind = .symbol ∧
      token.text ∈ operators ∧ '=' ∈ token.text.toList := by
  obtain ⟨c, cs, rfl⟩ := List.exists_cons_of_ne_nil hne
  have hc := hm c List.mem_cons_self
  have hlength := operatorLength_joined hoperator rest
  have hlexeme := fun before fresh => lexeme_modifier hc before fresh (cs ++ '=' :: rest)
  have hsplit : (c :: cs ++ ['=']) ++ rest = c :: (cs ++ '=' :: rest) := by simp
  obtain ⟨token, htoken, htext, ⟨before', fresh, hkind⟩, htouches, -⟩ :=
    (show Flush source before ((c :: cs ++ ['=']) ++ rest) i from hsplit ▸ h).next plain
      ⟨c, rfl, (of_mem_modifierChars hc).2.2.2.1⟩ fun before fresh => by
        rw [hsplit, hlexeme, ← List.cons_append, hlength]
        simp
  rw [hsplit, hlexeme] at hkind
  rw [← htext, String.ofList_toList] at hoperator
  exact ⟨token, htoken, htouches, hkind, hoperator, by simp [htext]⟩

/-- Where an equals sign is joined to the last modifiers, the run ends in front of these. -/
theorem exists_joined (hm : ∀ c ∈ m, c ∈ modifierChars) (hjoins : joinsEquals m = true)
    (h : Flush source before (m ++ '=' :: rest) i) :
    ∃ text j token, Modified (ofSource source) text i j ∧
      (ofSource source).token? j = some token ∧
      (0 < j → (ofSource source).touchesPrevious j = true) ∧ token.kind = .symbol ∧
      token.text ∈ operators ∧ '=' ∈ token.text.toList := by
  fun_induction joinsEquals m generalizing before i with
  | case1 c e cs hpair ih =>
    have hcs : ∀ c ∈ cs, c ∈ modifierChars := fun c hc => hm c (by simp [hc])
    rcases Bool.or_eq_true_iff.mp hjoins with hlast | hjoins
    · simp only [Bool.and_eq_true, List.isEmpty_iff, decide_eq_true_eq] at hlast
      obtain ⟨rfl, hoperator⟩ := hlast
      obtain ⟨token, htoken⟩ := exists_operator plain h hm (List.cons_ne_nil _ _) hoperator
      exact ⟨[], i, token, .nil, htoken⟩
    · have hrest : (cs ++ '=' :: rest).head? = some '=' →
          String.ofList [c, e, '='] ∉ operators := by
        intro hhead
        obtain rfl := eq_nil_of_head? hcs hhead
        cases hjoins
      obtain ⟨happend, hnext⟩ :=
        modified_pair plain h (hm c (by simp)) (hm e (by simp)) hpair hrest
      obtain ⟨text, j, token, hmodified, htoken⟩ := ih hcs hjoins hnext
      exact ⟨_, j, token, happend _ _ hmodified, htoken⟩
  | case2 c e cs hpair ih =>
    have hc := hm c (by simp)
    obtain ⟨happend, hnext⟩ := modified_single plain h hc
      (operatorLength_unpaired hc (hm e (by simp)) hpair (cs ++ '=' :: rest))
    obtain ⟨text, j, token, hmodified, htoken⟩ :=
      ih (fun c hc => hm c (List.mem_cons_of_mem _ hc)) hjoins hnext
    exact ⟨_, j, token, happend _ _ hmodified, htoken⟩
  | case3 c =>
    obtain ⟨token, htoken⟩ :=
      exists_operator plain h hm (List.cons_ne_nil _ _) (by simpa using hjoins)
    exact ⟨[], i, token, .nil, htoken⟩
  | case4 => cases hjoins

end Reading

end HotkeyScript.Grammar
