import HotkeyScript.Proofs.Composition
import HotkeyScript.Proofs.Grammar.Modifiers
import HotkeyScript.Proofs.Grammar.RuleOrder
import HotkeyScript.Proofs.Text.Folding
import HotkeyScript.Proofs.Token.Kind
import HotkeyScript.Proofs.Token.Number

/-!
# Triggers of hotkeys

Modifiers, a key and a double colon are a hotkey. The parser sees none of these characters, only the
tokens that the lexer makes of them: two modifiers may be one token, a name may be a number and a
word, and neither a quote nor a slash may start what it starts elsewhere. The characters are found
again in all cases but one. An equals sign that the lexer joins to a modifier is not seen as a key.

## Main definitions

* `Grammar.IsKeyText` — what can be written as a key: a name of word characters, or a character.
-/

namespace HotkeyScript

open Text (isBlank)
open Token (isWordChar)

/-! ## Names that start with a number -/

namespace KeyName

/-- Only the control of a joystick has a number in front. -/
theorem exists_joystick {k : List Char} {c : Char} (hvalid : isValid (String.ofList k) = true)
    (hlength : 2 ≤ k.length) (hc : k.head? = some c) (hdigit : c.isDigit = true) :
    ∃ digits control d, k = digits ++ control ∧ digits ≠ [] ∧
      (∀ c ∈ digits, c.isDigit = true) ∧ control.head? = some d ∧ Text.fold d = 'J' := by
  obtain ⟨cs, rfl⟩ := List.head?_eq_some_iff.mp hc
  have hlower := (Token.toLower_of_isDigit hdigit).1
  have hshort : ((String.ofList (c :: cs)).length == 1) = false := by
    rw [beq_eq_false_iff_ne, ← String.length_toList, String.toList_ofList]
    omega
  simp only [isValid, hshort, Bool.false_or, String.toList_ofList, dropJoystick] at hvalid
  split at hvalid
  · next hguard =>
    simp only [Bool.and_eq_true, isNumberUpTo, Bool.or_eq_true, beq_iff_eq] at hguard
    obtain ⟨⟨⟨⟨hnumber, hdigits⟩, -⟩, -⟩, hcontrol⟩ := hguard
    obtain ⟨rest, hrest⟩ := Option.isSome_iff_exists.mp hcontrol
    obtain ⟨spelt, hsplit, hspelt⟩ := Text.stripStart?_eq_some_iff.mp hrest
    obtain ⟨d, others, rfl, hd, -⟩ := List.map_eq_cons_iff.mp hspelt
    refine ⟨(c :: cs).takeWhile Text.isDecimalDigit, (c :: cs).dropWhile Text.isDecimalDigit, d,
      List.takeWhile_append_dropWhile.symm, ?_, List.all_eq_true.mp hdigits, by rw [hsplit]; rfl,
      hd⟩
    intro hnil
    simp [hnil] at hnumber
  · -- no other name starts with a digit
    have hnames : ∀ name ∈ names,
        (name.toList.map Char.toLower).head?.any Char.isDigit = false := by decide +kernel
    have hstrip : ∀ k start, Text.isDecimalDigit k = false →
        Text.stripStart? (k :: start) (c :: cs) = none := by
      refine fun k start hk => Text.stripStart?_eq_none fun hfold => ?_
      rw [← hfold, Text.isDecimalDigit_fold, Text.isDecimalDigit_of_isDigit hdigit] at hk
      cases hk
    have hname : names.any (Text.sameText · (String.ofList (c :: cs))) = false := by
      rw [List.any_eq_false]
      intro name hmem hsame
      have heq : name.toList.map Char.toLower = (c :: cs).map Char.toLower := by
        simpa [Text.sameText] using hsame
      have hhead := hnames name hmem
      simp [heq, hlower, hdigit] at hhead
    have hletters : ∀ k ∈ "FJNSV".toList, Text.isDecimalDigit k = false := by
      have hall : "FJNSV".toList.all (!Text.isDecimalDigit ·) = true := by decide
      simpa using hall
    rw [hname] at hvalid
    simp [isNumbered, isCode, isCodeOf, hstrip, hletters] at hvalid

end KeyName

namespace Grammar

open HotkeyScript.Stream (ofSource Plain Flush flush_start)

/-! ## Tokens of a trigger -/

section Trigger

variable {stream : Stream} {m : List Char} {j p q colons : Nat} {token : Token}

/-- A trigger whose modifiers end in front of a token that touches them. -/
theorem trigger_of_modified (hrun : Modified stream m 0 j)
    (hline : ∀ k, 0 < k → k < stream.size → stream.startsLine k = false)
    (htoken : stream.token? j = some token) (hmodifier : isModifier token = false)
    (htouches : 0 < j → stream.touchesPrevious j = true) (hcolon : token.text ≠ ":") :
    trigger stream 0 =
      if closesTrigger stream (j + 1) && token.text.length == 1 then
        some ({ modifiers := String.ofList m, first := none, key := keyOf token }, j + 1)
      else
        (combination stream j).bind fun ((first, second), next) =>
          if closesTrigger stream next then
            some ({ modifiers := String.ofList m, first, key := second }, next)
          else none := by
  have hlt := Stream.lt_size_of_token? htoken
  have hend : modifiersEnd stream 0 = j := by
    rw [modifiersEnd_eq]
    refine Stream.skip_eq_of (Nat.zero_le j) (Nat.le_of_lt hlt)
      (fun k hle hlt => hrun.inModifiers hline hle hlt) fun _ => ?_
    simp [inModifiers, htoken, hmodifier]
  have hcloses : closesTrigger stream j = false := by
    simp [closesTrigger, Stream.isDoubleColon, reads_eq_false htoken hcolon]
  have htext : joinedText stream 0 j = String.ofList m := by
    rw [joinedText, hrun.flatMap_textAt]
  have hjoined : (!(j != 0) || stream.touchesPrevious j) = true ∧
      (j != 0 && stream.startsLine j) = false := by
    rcases Nat.eq_zero_or_pos j with rfl | hpos
    · simp
    · simp [htouches hpos, hline j hpos hlt]
  simp only [trigger, hend, htoken, hjoined, hcloses, htext, Bool.and_false, Bool.and_true,
    Bool.false_eq_true, if_false, if_true]
  rfl

/-- A name in front of a colon is a key. -/
theorem key_of_name {colon : Token} (htoken : stream.token? p = some token)
    (hkind : token.kind ≠ .number) (hvalid : KeyName.isValid token.text = true)
    (hcolon : stream.token? (p + 1) = some colon) (hcolon' : colon.text = ":") :
    key stream p = some (⟨token.text, false, stream.spanTo token.span (p + 1)⟩, p + 1) := by
  have hup : Text.sameText ":" "up" = false := by decide
  simp [key, numberedKey, namedKey, htoken, hcolon, hcolon', hkind, hvalid, Token.is, hup]

/-- A number and the control that touches it are a key. -/
theorem key_of_numbered {control : Token} (htoken : stream.token? p = some token)
    (hkind : token.kind = .number) (hcontrol : stream.token? (p + 1) = some control)
    (htouches : stream.touchesPrevious (p + 1) = true)
    (hvalid : KeyName.isValid (token.text ++ control.text) = true) :
    key stream p =
      some (⟨token.text ++ control.text, false, token.span.to control.span.stop⟩, p + 2) := by
  have htouch : token.touches control = true := by
    simpa [Stream.touchesPrevious, htoken, hcontrol] using htouches
  simp [key, numberedKey, htoken, hcontrol, hkind, htouch, hvalid]

theorem combination_of_key {k : Key} (hkey : key stream p = some (k, q))
    (hand : stream.reads q "&" = false) : combination stream p = some ((none, k), q) := by
  simp [combination, hkey, Stream.continuesWith, hand]

/-- The trigger takes all tokens but the double colon. -/
theorem hotkey_of_trigger {statement : StmtParser} {read : Trigger}
    (h : trigger stream p = some (read, colons)) (hsize : colons + 2 = stream.size) :
    hotkey stream statement p = .ok (some (.hotkey read.modifiers read.first read.key none
      (stream.spanTo (stream.spanAt p) stream.size), stream.size)) := by
  have hstarts : stream.startsLine stream.size = true :=
    Stream.startsLine_of_size_le (Nat.le_refl _)
  rw [hotkey_eq, h]
  simp [hsize, hstarts, ok_bind, found]

theorem statement_of_hotkey {s : Stmt} (hcolon : stream.reads p ":" = false)
    (h : hotkey stream (statement stream) p = .ok (some (s, q))) :
    statement stream p = .ok (some (s, q)) := by
  have hhotstring : hotstring stream (statement stream) p = .ok none :=
    hotstring_eq_none_iff.mpr (by rw [hcolon]; rfl)
  rw [statement_eq, statementRules, hhotstring, h]
  rfl

end Trigger

/-! ## Texts of keys -/

/-- What can be written as a key: a name that is made of word characters, or a character that is
neither a modifier nor part of the layout of a line. -/
inductive IsKeyText : List Char → Prop
  | name {k : List Char} : (∀ c ∈ k, isWordChar c = true) →
      KeyName.isValid (String.ofList k) = true → IsKeyText k
  | character {c : Char} : isBlank c = false → c ≠ ';' → c ≠ ':' → c ≠ Source.byteOrderMark →
      c ∉ modifierChars → IsKeyText [c]

variable {m k before rest : List Char} {c : Char} {source : Source} {i j q : Nat}

namespace IsKeyText

theorem of_mem (h : IsKeyText k) (hc : c ∈ k) : isBlank c = false ∧ c ≠ ';' ∧ c ≠ ':' ∧
    c ≠ Source.byteOrderMark ∧ c ∉ modifierChars := by
  cases h with
  | name hword hvalid =>
    have hc := hword c hc
    refine ⟨Token.isBlank_of_isWordChar hc, ?_, ?_, ?_, fun hmodifier =>
      absurd (hc.symm.trans (of_mem_modifierChars hmodifier).1) Bool.noConfusion⟩
    all_goals
      rintro rfl
      exact absurd hc (by decide)
  | character hblank hsemicolon hcolon hmark hmodifier =>
    obtain rfl := List.mem_singleton.mp hc
    exact ⟨hblank, hsemicolon, hcolon, hmark, hmodifier⟩

theorem ne_nil (h : IsKeyText k) : k ≠ [] := by
  cases h with
  | name hword hvalid =>
    rintro rfl
    exact absurd hvalid (by decide +kernel)
  | character => exact List.cons_ne_nil _ _

/-- A key that is more than a character is a name. -/
theorem singleton_or_name (h : IsKeyText k) : (∃ c, k = [c]) ∨ 2 ≤ k.length ∧
    (∀ c ∈ k, isWordChar c = true) ∧ KeyName.isValid (String.ofList k) = true := by
  cases h with
  | name hword hvalid =>
    rcases Nat.lt_or_ge k.length 2 with hlt | hge
    · have hpos := List.length_pos_iff.mpr (IsKeyText.name hword hvalid).ne_nil
      exact .inl (List.length_eq_one_iff.mp (by omega))
    · exact .inr ⟨hge, hword, hvalid⟩
  | character => exact .inl ⟨_, rfl⟩

theorem count_quote (h : IsKeyText k) : k.count '"' ≤ 1 := by
  rcases h.singleton_or_name with ⟨c, rfl⟩ | ⟨-, hword, -⟩
  · exact List.count_le_length
  · have hquote : '"' ∉ k := fun hmem => absurd (hword _ hmem) (by decide)
    rw [List.count_eq_zero.mpr hquote]
    exact Nat.zero_le 1

end IsKeyText

/-- The text of a hotkey without an action. -/
def triggerText (m k : List Char) : Source :=
  m ++ (k ++ [':', ':'])

section TriggerText

variable (hm : ∀ c ∈ m, c ∈ modifierChars) (hk : IsKeyText k)
include hm hk

/-- The first character of a hotkey is not part of the layout of a line. -/
theorem exists_cons_triggerText : ∃ c rest, triggerText m k = c :: rest ∧ isBlank c = false ∧
    c ≠ ':' ∧ c ≠ Source.byteOrderMark ∧ (c = '/' → '*' ∉ triggerText m k) := by
  cases m with
  | nil =>
    obtain ⟨d, more, rfl⟩ := List.exists_cons_of_ne_nil hk.ne_nil
    obtain ⟨hblank, -, hcolon, hmark, -⟩ := hk.of_mem List.mem_cons_self
    refine ⟨d, _, rfl, hblank, hcolon, hmark, fun _ hstar => ?_⟩
    rw [triggerText, List.nil_append] at hstar
    rcases List.mem_append.mp hstar with hstar | hstar
    · exact (hk.of_mem hstar).2.2.2.2 (by decide)
    · exact absurd hstar (by decide)
  | cons c m =>
    have hc := hm c List.mem_cons_self
    obtain ⟨-, -, -, hblank, -, hcolon, hmark⟩ := of_mem_modifierChars hc
    refine ⟨c, _, rfl, hblank, hcolon, hmark, ?_⟩
    rintro rfl
    exact absurd hc (by decide)

theorem plain_triggerText : Plain (triggerText m k) := by
  have hchars : ∀ c ∈ triggerText m k, c ∈ modifierChars ∨ c ∈ k ∨ c = ':' := by
    intro c hc
    simp only [triggerText, List.mem_append, List.mem_cons, List.not_mem_nil, or_false,
      or_self] at hc
    exact hc.imp_left (hm c)
  refine Stream.plain_of_chars (fun c hc => ?_) ?_ (fun hc => ?_) ?_
  · rcases hchars c hc with hmodifier | hkey | rfl
    · exact (of_mem_modifierChars hmodifier).2.2.2.2.1
    · rw [Bool.eq_false_iff]
      intro hbreak
      cases (Text.isBlank_of_isLineBreak hbreak).symm.trans (hk.of_mem hkey).1
    · decide
  · have hquote : '"' ∉ m := fun hmem => (of_mem_modifierChars (hm _ hmem)).2.2.1 rfl
    simpa [triggerText, List.count_append, List.count_eq_zero.mpr hquote] using hk.count_quote
  · rcases hchars ';' hc with hmodifier | hkey | hcolon
    · exact (of_mem_modifierChars hmodifier).2.1 rfl
    · exact (hk.of_mem hkey).2.1 rfl
    · cases hcolon
  · obtain ⟨c, rest, hsource, hblank, -, hmark, hstar⟩ := exists_cons_triggerText hm hk
    exact ⟨c, by rw [hsource]; rfl, hblank, hmark, hstar⟩

theorem flush_triggerText : Flush (triggerText m k) [] (m ++ (k ++ [':', ':'])) 0 := by
  obtain ⟨c, rest, hsource, -, -, hmark, -⟩ := exists_cons_triggerText hm hk
  refine flush_start fun hhead => hmark ?_
  rw [hsource] at hhead
  exact Option.some.inj hhead

/-- A hotkey does not start with a colon. -/
theorem not_reads_colon_triggerText : (ofSource (triggerText m k)).reads 0 ":" = false := by
  obtain ⟨c, rest, hsource, hblank, hcolon, -⟩ := exists_cons_triggerText hm hk
  have hflush := flush_triggerText hm hk
  rw [show m ++ (k ++ [':', ':']) = c :: rest from hsource] at hflush
  refine hflush.toAhead.reads_eq_false (plain_triggerText hm hk) hblank fun hhead => hcolon ?_
  exact (Option.some.inj hhead).symm

end TriggerText

/-! ## Reading keys -/

/-- The lexer reads a single character as a token by itself in front of a double colon. -/
theorem length_lexeme_character (hc : IsKeyText [c]) (before : Option Char) (fresh : Bool) :
    (Token.lexeme before fresh ([c] ++ [':', ':'])).2 = 1 := by
  obtain ⟨-, hsemicolon, -, -, -⟩ := hc.of_mem List.mem_cons_self
  by_cases hdigit : c.isDigit = true
  · rw [Token.lexeme_of_isDigit (List.cons_ne_nil c []) (by simpa using hdigit) (by simp)]
    rfl
  by_cases hword : isWordChar c = true
  · rw [Token.lexeme_of_isWordChar (by simpa using hdigit) (List.cons_ne_nil c [])
      (by simpa using hword) before fresh (by simp [isWordChar])]
    rfl
  by_cases hquote : c = '"'
  · subst hquote
    have hlengths : Token.numberLength ['"', ':', ':'] = 0 ∧ Token.wordLength ['"', ':', ':'] = 0 ∧
        Token.commentLength ['"', ':', ':'] = 0 ∧ Token.operatorLength ['"', ':', ':'] = 0 ∧
        Token.stringLength ['"', ':', ':'] = 0 := by decide
    simp [Token.lexeme, hlengths]
  · -- the colon is no second character of an operator
    have hsecond : ∀ op ∈ Token.operators, op.toList[1]? ≠ some ':' := by decide
    have hoperator : Token.operatorLength (c :: [':', ':']) = 0 := by
      refine Token.operatorLength_eq_zero fun op hop hprefix => hsecond op hop ?_
      obtain ⟨more, hop', -⟩ := exists_cons_of_operator hop hprefix
      simp [hop']
    rw [List.singleton_append, Token.lexeme_of_symbol (by simpa using hword) hsemicolon hquote,
      hoperator]
    rfl

/-- The token at a double colon. -/
theorem exists_colon_of_closesTrigger {stream : Stream} (h : closesTrigger stream q = true) :
    ∃ token, stream.token? q = some token ∧ token.text = ":" := by
  simp only [closesTrigger, Stream.isDoubleColon, Bool.and_eq_true] at h
  exact Stream.reads_iff.mp h.2.1.1

/-- A key with the text `k` stands in front of the double colon at the end of the line. It starts
with the token at `j`, which the parser does not take for all of the key. -/
structure ReadsKey (stream : Stream) (k : List Char) (j : Nat) (token : Token) (read : Key)
    (colons : Nat) : Prop where
  starts : stream.token? j = some token
  begins : token.text.toList <+: k
  ne_nil : token.text.toList ≠ []
  touches : 0 < j → stream.touchesPrevious j = true
  long : (closesTrigger stream (j + 1) && token.text.length == 1) = false
  reads : key stream j = some (read, colons)
  name : read.name = String.ofList k
  up : read.up = false
  closes : closesTrigger stream colons = true
  size : colons + 2 = stream.size

section Reading

variable (plain : Plain source)
include plain

/-- A double colon at the end of the line closes a trigger. -/
theorem closesTrigger_of_flush (h : Flush source before [':', ':'] q) (hpos : 0 < q) :
    closesTrigger (ofSource source) q = true ∧ q + 2 = (ofSource source).size := by
  obtain ⟨hcolons, hend⟩ := h.isDoubleColon plain (by simp)
  have hlt := Stream.add_one_lt_size_of_isDoubleColon hcolons
  have hcontinues := Stream.continues_of_oneLine plain.oneLine hpos (Nat.lt_of_succ_lt hlt)
  exact ⟨by simp [closesTrigger, hcontinues, hcolons], hend.toAhead.eq_size plain⟩

omit plain in
theorem isWordChar_of_colons : ∀ d, [':', ':'].head? = some d → isWordChar d = false := by
  rintro d ⟨⟩
  decide

/-- A name that does not start with a digit is one token. -/
theorem exists_named (hlength : 2 ≤ k.length) (hword : ∀ c ∈ k, isWordChar c = true)
    (hvalid : KeyName.isValid (String.ofList k) = true) (hc : k.head? = some c)
    (hdigit : c.isDigit = false) (h : Flush source before (k ++ [':', ':']) j) :
    ∃ token read colons, ReadsKey (ofSource source) k j token read colons := by
  have hne : k ≠ [] := by
    rintro rfl
    cases hc
  have hlexeme : ∀ before fresh, Token.lexeme before fresh (k ++ [':', ':']) =
      (Token.wordKind before (String.ofList k), k.length) := fun before fresh =>
    Token.lexeme_of_isWordChar (by simp [hc, hdigit]) hne hword before fresh isWordChar_of_colons
  obtain ⟨token, htoken, htext, ⟨before', fresh, hkind⟩, htouches, hnext⟩ :=
    h.next plain ⟨c, hc, Token.isBlank_of_isWordChar (hword c (List.mem_of_mem_head? hc))⟩
      fun before fresh => by rw [hlexeme]
  rw [hlexeme] at hkind
  obtain ⟨hcloses, hsize⟩ := closesTrigger_of_flush plain hnext (Nat.succ_pos j)
  obtain ⟨colon, hcolon, hcolon'⟩ := exists_colon_of_closesTrigger hcloses
  have hname : token.text = String.ofList k := by rw [← htext, String.ofList_toList]
  have hlong : (token.text.length == 1) = false := by
    rw [beq_eq_false_iff_ne, ← String.length_toList, htext]
    omega
  have hkey := key_of_name htoken (hkind ▸ Token.wordKind_ne_number _ _) (hname ▸ hvalid) hcolon
    hcolon'
  exact ⟨token, _, j + 1, htoken, by simp [htext], by rwa [htext], htouches,
    by rw [hlong, Bool.and_false], hkey, hname, rfl, hcloses, hsize⟩

/-- A name that starts with a digit is a number and a word. -/
theorem exists_numbered (hlength : 2 ≤ k.length) (hword : ∀ c ∈ k, isWordChar c = true)
    (hvalid : KeyName.isValid (String.ofList k) = true) (hc : k.head? = some c)
    (hdigit : c.isDigit = true) (h : Flush source before (k ++ [':', ':']) j) :
    ∃ token read colons, ReadsKey (ofSource source) k j token read colons := by
  obtain ⟨digits, control, d, rfl, hne, hdigits, hd, hfold⟩ :=
    KeyName.exists_joystick hvalid hlength hc hdigit
  have hcontrol : control ≠ [] := by
    rintro rfl
    cases hd
  have hletters : ∀ c ∈ control, isWordChar c = true := fun c hc =>
    hword c (List.mem_append_right _ hc)
  -- the control starts with a letter that goes on no number
  have hletter : d.isDigit = false ∧ d ≠ '.' ∧ d ≠ 'x' ∧ d ≠ 'X' := by
    refine ⟨Bool.eq_false_iff.mpr fun hdigit => ?_, ?_, ?_, ?_⟩
    · have hno := Text.isDecimalDigit_fold d
      rw [hfold, Text.isDecimalDigit_of_isDigit hdigit] at hno
      exact absurd hno (by decide)
    all_goals
      rintro rfl
      exact absurd hfold (by decide)
  have hnumber : ∀ before fresh, Token.lexeme before fresh (digits ++ (control ++ [':', ':'])) =
      (.number, digits.length) := fun before fresh => by
    refine Token.lexeme_of_isDigit hne hdigits (fun e he => ?_) before fresh
    rw [List.head?_append, hd, Option.some_or] at he
    cases he
    exact hletter
  have hlexeme : ∀ before fresh, Token.lexeme before fresh (control ++ [':', ':']) =
      (Token.wordKind before (String.ofList control), control.length) := fun before fresh =>
    Token.lexeme_of_isWordChar (by simp [hd, hletter.1]) hcontrol hletters before fresh
      isWordChar_of_colons
  rw [List.append_assoc] at h
  obtain ⟨token, htoken, htext, ⟨before', fresh, hkind⟩, htouches, hnext⟩ :=
    h.next plain ⟨c, by simpa [List.head?_append, hne] using hc,
      Token.isBlank_of_isWordChar (hword c (List.mem_of_mem_head? hc))⟩
      fun before fresh => by rw [hnumber]
  rw [hnumber] at hkind
  obtain ⟨second, hsecond, htext', -, htouches', hnext⟩ :=
    hnext.next plain ⟨d, hd, Token.isBlank_of_isWordChar (hletters d (List.mem_of_mem_head? hd))⟩
      fun before fresh => by rw [hlexeme]
  obtain ⟨hcloses, hsize⟩ := closesTrigger_of_flush plain hnext (Nat.succ_pos _)
  have hname : token.text ++ second.text = String.ofList (digits ++ control) := by
    rw [String.ofList_append, ← htext, ← htext', String.ofList_toList, String.ofList_toList]
  have hkey := key_of_numbered htoken hkind hsecond (htouches' (Nat.succ_pos j)) (hname ▸ hvalid)
  -- behind the number is a word and no colon
  have hcolon : second.text ≠ ":" := by
    intro heq
    rw [heq] at htext'
    exact absurd (hletters ':' (by rw [← htext']; decide)) (by decide)
  have hlong : closesTrigger (ofSource source) (j + 1) = false := by
    simp [closesTrigger, Stream.isDoubleColon, reads_eq_false hsecond hcolon]
  exact ⟨token, _, j + 2, htoken, by simp [htext], by rwa [htext], htouches,
    by rw [hlong, Bool.false_and], hkey, hname, rfl, hcloses, hsize⟩

/-- A key is read where it is written, and the trigger ends with it. -/
theorem exists_trigger (hk : IsKeyText k) (hrun : Modified (ofSource source) m 0 j)
    (h : Flush source before (k ++ [':', ':']) j) :
    ∃ key colons, trigger (ofSource source) 0 =
        some ({ modifiers := String.ofList m, first := none, key }, colons) ∧
      colons + 2 = (ofSource source).size ∧ key.name = String.ofList k ∧ key.up = false := by
  have hline : ∀ k, 0 < k → k < (ofSource source).size → (ofSource source).startsLine k = false :=
    fun k hpos hlt => Stream.startsLine_of_oneLine plain.oneLine hpos hlt
  -- the first token is part of the key
  have hfirst : ∀ {token : Token}, token.text.toList <+: k → token.text.toList ≠ [] →
      isModifier token = false ∧ token.text ≠ ":" := by
    intro token htext hne
    obtain ⟨c, hc⟩ := List.exists_mem_of_ne_nil _ hne
    obtain ⟨-, -, hcolon, -, hmodifier⟩ := hk.of_mem (htext.subset hc)
    refine ⟨Bool.eq_false_iff.mpr fun htrue => hmodifier ((isModifier_iff.mp htrue).2 c hc), ?_⟩
    intro heq
    rw [heq] at hc
    exact hcolon (List.mem_singleton.mp hc)
  rcases hk.singleton_or_name with ⟨c, rfl⟩ | ⟨hlength, hword, hvalid⟩
  · obtain ⟨token, htoken, htext, -, htouches, hnext⟩ :=
      h.next plain ⟨c, rfl, (hk.of_mem List.mem_cons_self).1⟩ (length_lexeme_character hk)
    obtain ⟨hmodifier, hcolon⟩ := @hfirst token (by simp [htext]) (by simp [htext])
    obtain ⟨hcloses, hsize⟩ := closesTrigger_of_flush plain hnext (Nat.succ_pos j)
    refine ⟨keyOf token, j + 1, ?_, hsize, ?_, rfl⟩
    · have hone : token.text.length = 1 := by rw [← String.length_toList, htext]; rfl
      rw [trigger_of_modified hrun hline htoken hmodifier htouches hcolon, hcloses, hone]
      rfl
    · rw [← htext, String.ofList_toList]
      rfl
  · obtain ⟨token, read, colons, hread⟩ :
        ∃ token read colons, ReadsKey (ofSource source) k j token read colons := by
      obtain ⟨c, cs, hc⟩ := List.exists_cons_of_ne_nil hk.ne_nil
      by_cases hdigit : c.isDigit = true
      · exact exists_numbered plain hlength hword hvalid (by rw [hc]; rfl) hdigit h
      · exact exists_named plain hlength hword hvalid (by rw [hc]; rfl) (by simpa using hdigit) h
    obtain ⟨hmodifier, hcolon⟩ := hfirst hread.begins hread.ne_nil
    obtain ⟨colon, hcolon', htext⟩ := exists_colon_of_closesTrigger hread.closes
    have hcombination := combination_of_key hread.reads (by simp [Stream.reads, hcolon', htext])
    refine ⟨read, colons, ?_, hread.size, hread.name, hread.up⟩
    rw [trigger_of_modified hrun hline hread.starts hmodifier hread.touches hcolon, hread.long,
      hcombination]
    simp [hread.closes]

end Reading

/-! ## Hotkeys of one line -/

/-- Modifiers, a key and a double colon are one hotkey. -/
theorem exists_statement (hm : ∀ c ∈ m, c ∈ modifierChars) (hk : IsKeyText k)
    (hjoins : k = ['='] → joinsEquals m = false) :
    ∃ key span, statement (ofSource (triggerText m k)) 0 =
        .ok (some (.hotkey (String.ofList m) none key none span,
          (ofSource (triggerText m k)).size)) ∧
      key.name = String.ofList k ∧ key.up = false := by
  have plain := plain_triggerText hm hk
  have hflush := flush_triggerText hm hk
  have hcolon := not_reads_colon_triggerText hm hk
  obtain ⟨d, more, rfl⟩ := List.exists_cons_of_ne_nil hk.ne_nil
  have hequals : d = '=' → joinsEquals m = false := by
    rintro rfl
    rcases hk.singleton_or_name with ⟨c, hc⟩ | ⟨-, hword, -⟩
    · exact hjoins (by rw [(List.cons.inj hc).2])
    · exact absurd (hword '=' List.mem_cons_self) (by decide)
  obtain ⟨j, hrun, hflush⟩ :=
    exists_modified plain hm (hk.of_mem List.mem_cons_self).2.2.2.2 hequals hflush
  obtain ⟨key, colons, htrigger, hsize, hname, hup⟩ := exists_trigger plain hk hrun hflush
  exact ⟨key, _, statement_of_hotkey hcolon (hotkey_of_trigger htrigger hsize), hname, hup⟩

/-- An equals sign that is joined to a modifier is no key. -/
theorem trigger_eq_none_of_joinsEquals (hm : ∀ c ∈ m, c ∈ modifierChars)
    (hjoins : joinsEquals m = true) : trigger (ofSource (triggerText m ['='])) 0 = none := by
  have hk : IsKeyText ['='] :=
    .character (by decide) (by decide) (by decide) (by decide) (by decide)
  have plain := plain_triggerText hm hk
  obtain ⟨text, j, token, hrun, htoken, htouches, hkind, hoperator, hequals⟩ :=
    exists_joined plain hm hjoins (flush_triggerText hm hk)
  have hmodifier : isModifier token = false := Bool.eq_false_iff.mpr fun htrue =>
    absurd ((isModifier_iff.mp htrue).2 '=' hequals) (by decide)
  have hoperators : ∀ op ∈ Token.operators, op ≠ ":" ∧ op.length ≠ 1 ∧
      KeyName.isValid op = false := by decide +kernel
  obtain ⟨hcolon, hlong, hvalid⟩ := hoperators _ hoperator
  have hkey : key (ofSource (triggerText m ['='])) j = none := by
    have hnumber : numberedKey (ofSource (triggerText m ['='])) j = none := by
      simp only [numberedKey, htoken]
      split <;> simp_all
    simp [key, hnumber, namedKey, htoken, hvalid]
  have hline : ∀ k, 0 < k → k < (ofSource (triggerText m ['='])).size →
      (ofSource (triggerText m ['='])).startsLine k = false :=
    fun k hpos hlt => Stream.startsLine_of_oneLine plain.oneLine hpos hlt
  rw [trigger_of_modified hrun hline htoken hmodifier htouches hcolon]
  simp [hlong, combination, hkey]

end Grammar

open Grammar

variable {m k : List Char}

/-- Modifiers, a key and a double colon are one hotkey with these modifiers and this key, unless the
key is an equals sign that the lexer joins to the last of the modifiers. -/
theorem parse_trigger_iff (hm : ∀ c ∈ m, c ∈ modifierChars) (hk : IsKeyText k) :
    (∃ script key span, parse (m ++ k ++ "::".toList) = .ok script ∧
      script.body = [.hotkey (String.ofList m) none key none span] ∧
      key.name = String.ofList k ∧ key.up = false) ↔
      ¬(k = ['='] ∧ joinsEquals m = true) := by
  have hsource : m ++ k ++ "::".toList = triggerText m k := List.append_assoc m k [':', ':']
  rw [hsource]
  constructor
  · rintro ⟨script, key, span, hparse, hbody, -⟩ ⟨rfl, hjoins⟩
    have hs := hotkey_of_statement (statement_of_parse hparse hbody) rfl
    rw [hotkey_eq_none_iff.mpr (trigger_eq_none_of_joinsEquals hm hjoins)] at hs
    cases hs
  · intro hnot
    obtain ⟨key, span, hs, hname, hup⟩ := exists_statement hm hk fun hequals =>
      Bool.eq_false_iff.mpr fun hjoins => hnot ⟨hequals, hjoins⟩
    obtain ⟨script, hparse, hbody⟩ := exists_parse_of_statement hs
    exact ⟨script, key, span, hparse, hbody, hname, hup⟩

/-- The control of a joystick, behind modifiers of which the first two and the next two are one
token each. -/
theorem parse_trigger_joystick :
    ∃ script key span, parse "<><<^2Joy1::".toList = .ok script ∧
      script.body = [.hotkey "<><<^" none key none span] ∧ key.name = "2Joy1" ∧ key.up = false :=
  (parse_trigger_iff (m := "<><<^".toList) (k := "2Joy1".toList) (by simp [modifierChars])
    (.name (List.all_eq_true.mp (by decide)) (by decide +kernel))).mpr (by decide)

/-- An equals sign is a key, alone and behind a pair of modifiers, but not behind a caret. -/
theorem parse_trigger_caret :
    (parse "=::".toList).toOption.map (·.body.map Stmt.kind) = some [.hotkey] ∧
      (parse "++=::".toList).toOption.map (·.body.map Stmt.kind) = some [.hotkey] ∧
      (∀ c ∈ "^".toList, c ∈ modifierChars) ∧ KeyName.isValid "=" = true ∧
      (parse "^=::".toList).toOption.isNone = true :=
  ⟨by decide +kernel, by decide +kernel, by simp [modifierChars], by decide, by decide +kernel⟩

end HotkeyScript
