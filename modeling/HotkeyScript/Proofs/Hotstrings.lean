import HotkeyScript.Proofs.Composition
import HotkeyScript.Proofs.Grammar.PlainText
import HotkeyScript.Proofs.Grammar.RuleOrder
import HotkeyScript.Proofs.Text.Lines

/-!
# Hotstrings that replace a text

A hotstring without options is a trigger text and a replacement, with a double colon in front of
each. The replacement is arbitrary text, but the lexer reads it first and does not know that it is
text: it makes numbers, operators and words of it. All of them are put together again, so the
replacement is what is written. The one thing that is not undone happens in front of it. If the
replacement starts with an equals sign, then the lexer joins the sign to the second colon, and the
parser looks for a double colon further on.
-/

namespace HotkeyScript

open Source (byteLength)
open Text (accent isBlank)

namespace Grammar

open HotkeyScript.Stream (ofSource Plain Ahead Flush flush_start)

variable {source : Source} {before rest t r : List Char} {stream : Stream} {i j p q colons : Nat}

/-! ## Heads of hotstrings -/

section Head

variable (hcolons : stream.isDoubleColon p = true) (hline : stream.startsLine (p + 1) = false)
include hcolons hline

/-- Two colons in a row have no options between them. -/
theorem hotstringHead_of_isDoubleColon : hotstringHead stream p =
    (triggerEnd? stream false (p + 2)).bind fun stop =>
      if stop = p + 2 then none else some (([], assemble stream (p + 2) stop), stop) := by
  simp only [Stream.isDoubleColon, Bool.and_eq_true] at hcolons
  obtain ⟨⟨hfirst, hsecond⟩, htouches⟩ := hcolons
  have hsize := Stream.lt_size_of_reads hsecond
  have hskip : stream.skip (inOptions stream) (p + 1) = p + 1 :=
    Stream.skip_eq_of (Nat.le_refl _) (Nat.le_of_lt hsize) (fun k hle hlt => by omega)
      fun _ => by simp [inOptions, hsecond]
  have hclose : optionsEnd? stream p = some (p + 1) := by
    simp [optionsEnd?_eq, hskip, linked, hline, htouches, hsecond]
  obtain ⟨first, hfirst', -⟩ := Stream.reads_iff.mp hfirst
  obtain ⟨second, hsecond', -⟩ := Stream.reads_iff.mp hsecond
  have hnone : Source.slice stream.source (stream.spanAt p).stop (stream.spanAt (p + 1)).start = []
      := by
    simp only [Stream.touchesPrevious, Stream.previous?, hfirst', hsecond', Token.touches,
      beq_iff_eq] at htouches
    simp [Stream.spanAt_eq hfirst', Stream.spanAt_eq hsecond', htouches, Source.slice]
  have hsplit : HotstringOption.split [] = some [] := by simp [HotstringOption.split]
  simp [hotstringHead, hclose, hnone, hsplit, triggerEnd?]

end Head

theorem hotstringHead_of_hotstring {statement : StmtParser} {options : List String}
    {trigger : LegacyLiteral} {replacement : Option LegacyLiteral} {action : Option Stmt}
    {span : Span} (h : hotstring stream statement p =
      .ok (some (.hotstring options trigger replacement action span, q))) :
    ∃ colons, hotstringHead stream p = some ((options, trigger), colons) := by
  rw [hotstring_eq] at h
  split at h
  · cases h
  · next options' trigger' colons hhead =>
    obtain ⟨⟨found, stop⟩, -, h⟩ := bind_eq_ok.mp h
    simp only at h
    split at h
    · cases h
      exact ⟨colons, (Option.ite_none_right_eq_some.mp hhead).2⟩
    · cases h

/-- Without options, the text up to the end is the replacement. -/
theorem statement_of_hotstringHead {trigger : LegacyLiteral} (hcolon : stream.reads p ":" = true)
    (hhead : hotstringHead stream p = some (([], trigger), colons))
    (hlt : colons + 2 < stream.size)
    (hcontinues : ∀ k, colons + 2 ≤ k → k < stream.size → stream.continues k = true) :
    statement stream p = .ok (some (.hotstring [] trigger
      (some (assemble stream (colons + 2) stream.size)) none
      (stream.spanTo (stream.spanAt p) stream.size), stream.size)) := by
  have hstarts : stream.startsLine stream.size = true :=
    Stream.startsLine_of_size_le (Nat.le_refl _)
  have hhotstring : hotstring stream (statement stream) p = .ok (some (.hotstring [] trigger
      (some (assemble stream (colons + 2) stream.size)) none
      (stream.spanTo (stream.spanAt p) stream.size), stream.size)) := by
    rw [hotstring_eq]
    simp [hcolon, hhead, hotstringRest, hcontinues _ (Nat.le_refl _) hlt,
      legacyText?_of_continues hlt hcontinues, ok_bind, hstarts, found]
  rw [statement_eq, statementRules, hhotstring]
  rfl

/-! ## Trigger texts -/

section Reading

variable (plain : Plain source)
include plain

/-- A token that starts with a letter or a digit does not reach into a colon. -/
theorem exists_alphanum_of_token {token : Token} {c : Char} {behind : List Char}
    (htoken : (ofSource source).token? i = some token) (hc : c.isAlphanum = true)
    (hsplit : c :: (t ++ ':' :: rest) = token.text.toList ++ behind) :
    ∃ more, c :: t = token.text.toList ++ more ∧ behind = more ++ ':' :: rest := by
  have hcolon : ':' ∉ token.text.toList := by
    intro hmem
    rcases (Token.tokenize_lexed (plain.mem htoken)).text_of_colon
      (plain.string token (plain.mem htoken)) (plain.comment token (plain.mem htoken)) hmem with
      htext | htext <;>
    · rw [htext] at hsplit
      cases (List.cons.inj hsplit).1
      cases hc
  rw [← List.cons_append] at hsplit
  rcases List.append_eq_append_iff.mp hsplit with ⟨more, hmore, hbehind⟩ | hinside
  · cases more with
    | nil => exact ⟨[], by simpa using hmore.symm, by simpa using hbehind.symm⟩
    | cons d more =>
      rw [hmore, ← (List.cons.inj hbehind).1] at hcolon
      exact absurd (List.mem_append_right _ List.mem_cons_self) hcolon
  · exact hinside

/-- Letters and digits are passed on the way to the double colon. -/
theorem triggerEnd?_of_alphanum (ht : ∀ c ∈ t, c.isAlphanum = true) (hpos : 0 < i)
    (h : Flush source before (t ++ ':' :: rest) i) :
    ∃ j, i ≤ j ∧ Flush source (before ++ t) (':' :: rest) j ∧
      triggerEnd? (ofSource source) false i = triggerEnd? (ofSource source) false j := by
  -- a token may take several characters at once
  induction hn : t.length using Nat.strongRecOn generalizing before t i with
  | ind n ih =>
  cases t with
  | nil => exact ⟨i, Nat.le_refl i, by simpa using h, rfl⟩
  | cons c t =>
    have hc := ht c List.mem_cons_self
    have hblank : isBlank c = false := Token.isBlank_of_isWordChar (by simp [Token.isWordChar, hc])
    have hreads : ∀ {text : String} {d : Char}, text.toList = [d] → d.isAlphanum = false →
        (ofSource source).reads i text = false := fun htext hd =>
      h.toAhead.reads_eq_false plain hblank fun hhead => by
        rw [htext] at hhead
        cases hhead
        cases hd.symm.trans hc
    obtain ⟨token, behind, htoken, -, hsplit, hend, hahead⟩ := h.toAhead.next plain hblank
    obtain ⟨more, hmore, rfl⟩ := exists_alphanum_of_token plain htoken hc hsplit
    obtain ⟨first, others, htext, -⟩ := plain.exists_text_eq htoken
    have hlength := congrArg List.length hmore
    rw [htext, List.length_append, List.length_cons, List.length_cons] at hlength
    obtain ⟨j, hle, hflush, hstop⟩ := ih more.length (by rw [← hn, List.length_cons]; omega)
      (fun d hd => ht d (by rw [hmore]; exact List.mem_append_right _ hd)) (Nat.succ_pos i)
      ⟨hahead, hend⟩ rfl
    rw [List.append_assoc, ← hmore] at hflush
    have hline := Stream.startsLine_of_oneLine plain.oneLine hpos (Stream.lt_size_of_token? htoken)
    have hcolons : (ofSource source).isDoubleColon i = false := by
      rw [Stream.isDoubleColon, hreads rfl rfl]
      rfl
    refine ⟨j, Nat.le_of_succ_le hle, hflush, ?_⟩
    rw [triggerEnd?_eq, triggerRound, hline, hcolons, hreads rfl rfl, ← hstop]
    rfl

end Reading

/-! ## Hotstrings of one line -/

/-- What can replace a trigger text as it is written: text on one line without quotes, accents and
semicolons, which is not empty and has no blank at either end. -/
structure IsReplacement (r : List Char) : Prop where
  unbroken : Text.Unbroken r
  plain : ∀ c ∈ r, c ≠ '"' ∧ c ≠ accent ∧ c ≠ ';'
  tight : Text.Tight r

/-- A hotstring without options. -/
def hotstringText (t r : List Char) : Source :=
  ':' :: ':' :: (t ++ ':' :: ':' :: r)

section HotstringText

variable (ht : ∀ c ∈ t, c.isAlphanum = true) (hr : IsReplacement r)
include ht hr

theorem of_mem_hotstringText {c : Char} (hc : c ∈ hotstringText t r) :
    Text.isLineBreak c = false ∧ c ≠ '"' ∧ c ≠ accent ∧ c ≠ ';' := by
  have hcases : c = ':' ∨ c ∈ t ∨ c ∈ r := by
    simp only [hotstringText, List.mem_cons, List.mem_append] at hc
    tauto
  rcases hcases with rfl | hc | hc
  · decide
  · have hc := ht c hc
    refine ⟨Bool.eq_false_iff.mpr fun hbreak => ?_, ?_, ?_, ?_⟩
    · rcases Text.isLineBreak_iff.mp hbreak with rfl | rfl <;> cases hc
    all_goals
      rintro rfl
      cases hc
  · exact ⟨hr.unbroken c hc, hr.plain c hc⟩

theorem plain_hotstringText : Plain (hotstringText t r) := by
  refine Stream.plain_of_chars (fun c hc => (of_mem_hotstringText ht hr hc).1) ?_ (fun hc => ?_)
    ⟨':', rfl, by decide, by decide, by simp⟩
  · rw [List.count_eq_zero.mpr fun hc => (of_mem_hotstringText ht hr hc).2.1 rfl]
    exact Nat.zero_le 1
  · exact (of_mem_hotstringText ht hr hc).2.2.2 rfl

omit hr in
theorem head_ne_equals (rest : List Char) : (t ++ ':' :: rest).head? ≠ some '=' := by
  cases t with
  | nil => simp
  | cons c t =>
    rintro ⟨⟩
    cases ht '=' List.mem_cons_self

/-- The parser gets to the double colon behind the trigger text. -/
theorem exists_triggerEnd (hne : t ≠ []) :
    ∃ j, 2 < j ∧ Flush (hotstringText t r) [':', ':'] (t ++ ':' :: ':' :: r) 2 ∧
      Flush (hotstringText t r) ([':', ':'] ++ t) (':' :: ':' :: r) j ∧
      (ofSource (hotstringText t r)).reads 0 ":" = true ∧
      hotstringHead (ofSource (hotstringText t r)) 0 =
        (triggerEnd? (ofSource (hotstringText t r)) false j).bind fun stop =>
          if stop = 2 then none
          else some (([], assemble (ofSource (hotstringText t r)) 2 stop), stop) := by
  have plain := plain_hotstringText ht hr
  have hstart : Flush (hotstringText t r) [] (':' :: ':' :: (t ++ ':' :: ':' :: r)) 0 :=
    flush_start (by simp [hotstringText, Source.byteOrderMark])
  obtain ⟨hcolons, hflush⟩ := hstart.isDoubleColon plain (head_ne_equals ht _)
  obtain ⟨j, hle, hflush', hstop⟩ := triggerEnd?_of_alphanum plain ht Nat.two_pos hflush
  have hlt : 2 < j := by
    refine Nat.lt_of_le_of_ne hle ?_
    rintro rfl
    have hlength := hflush.flush.symm.trans hflush'.flush
    rw [List.nil_append, Source.byteLength_append, Nat.left_eq_add] at hlength
    exact hne (Source.eq_nil_of_byteLength hlength)
  have hsize := Stream.add_one_lt_size_of_isDoubleColon hcolons
  have hhead := hotstringHead_of_isDoubleColon hcolons
    (Stream.startsLine_of_oneLine plain.oneLine Nat.one_pos hsize)
  rw [show 0 + 2 = 2 from rfl, hstop] at hhead
  simp only [Stream.isDoubleColon, Bool.and_eq_true] at hcolons
  exact ⟨j, hlt, hflush, hflush', hcolons.1.1, hhead⟩

/-- The trigger text is what stands between the double colons. -/
theorem exists_statement_of_hotstringText (hne : t ≠ []) (hequals : r.head? ≠ some '=') :
    ∃ trigger replacement span, statement (ofSource (hotstringText t r)) 0 =
        .ok (some (.hotstring [] trigger (some replacement) none span,
          (ofSource (hotstringText t r)).size)) ∧
      trigger.value = String.ofList t ∧ replacement.value = String.ofList r := by
  have plain := plain_hotstringText ht hr
  have hescape : ∀ c ∈ hotstringText t r, c ≠ accent ∧ c ≠ '"' := fun c hc =>
    ⟨(of_mem_hotstringText ht hr hc).2.2.1, (of_mem_hotstringText ht hr hc).2.1⟩
  obtain ⟨j, hlt, hbegin, hflush, hreads, hhead⟩ := exists_triggerEnd ht hr hne
  obtain ⟨hcolons, hrest⟩ := hflush.isDoubleColon plain hequals
  -- the trigger text ends at this double colon
  have hle := Stream.add_one_lt_size_of_isDoubleColon hcolons
  have hline := Stream.startsLine_of_oneLine plain.oneLine (show 0 < j by omega)
    (Nat.lt_of_succ_lt hle)
  have hstop : triggerEnd? (ofSource (hotstringText t r)) false j = some j := by
    simp [triggerEnd?_eq, triggerRound, hline, hcolons]
  rw [hstop, Option.bind_some, if_neg (Nat.ne_of_gt hlt)] at hhead
  -- and the replacement goes from there to the end of the line
  obtain ⟨c, hc, hblank⟩ := hr.tight.head
  obtain ⟨more, rfl⟩ := List.head?_eq_some_iff.mp hc
  obtain ⟨token, -, htoken, -⟩ := hrest.toAhead.next plain hblank
  have hsize := Stream.lt_size_of_token? htoken
  obtain ⟨d, hd, hblank'⟩ := hr.tight.last
  have hend := hrest.toAhead.endBefore_size plain hr.unbroken
    (fun e he => by cases hd.symm.trans he; exact hblank') fun hnil => by cases hnil
  refine ⟨_, _, _, statement_of_hotstringHead hreads hhead hsize fun k hle hlt =>
      Stream.continues_of_oneLine plain.oneLine (by omega) hlt,
    assemble_value_of_flush plain hescape hbegin ?_ hlt (by omega) hflush.flush,
    assemble_value_of_flush plain hescape (show Flush _ _ (c :: more ++ []) _ by simpa using hrest)
      ⟨c, rfl, hblank⟩ hsize (Nat.le_refl _) (hend.trans (congrArg byteLength hrest.split))⟩
  obtain ⟨d, others, rfl⟩ := List.exists_cons_of_ne_nil hne
  exact ⟨d, rfl, Token.isBlank_of_isWordChar (by simp [Token.isWordChar, ht d List.mem_cons_self])⟩

/-- With an equals sign behind it, the double colon is part of the trigger text. -/
theorem value_ne_of_equals (hne : t ≠ []) (hequals : r.head? = some '=') {options : List String}
    {trigger : LegacyLiteral}
    (hhead : hotstringHead (ofSource (hotstringText t r)) 0 = some ((options, trigger), colons)) :
    trigger.value ≠ String.ofList t := by
  have plain := plain_hotstringText ht hr
  obtain ⟨more, rfl⟩ := List.head?_eq_some_iff.mp hequals
  obtain ⟨j, hlt, -, hflush, -, hhead'⟩ := exists_triggerEnd ht hr hne
  obtain ⟨hcolon, hnot⟩ := hflush.isDoubleColon_eq_false plain
  rw [hhead, eq_comm, Option.bind_eq_some_iff] at hhead'
  obtain ⟨stop, hstop, hhead'⟩ := hhead'
  obtain ⟨hle, hsize⟩ := triggerEndWithin?_reads hstop
  have hcolons := isDoubleColon_of_triggerEndWithin? hstop
  have hjump : j ≠ stop := by
    rintro rfl
    cases hnot.symm.trans hcolons
  rw [if_neg (by omega)] at hhead'
  obtain ⟨⟨⟨rfl, rfl⟩, rfl⟩⟩ := hhead'
  -- the text of the trigger has the colon in it, which no letter or digit is
  intro hvalue
  have hself : ∀ a b, Text.unescape (Source.slice (hotstringText t ('=' :: more)) a b) =
      Source.slice (hotstringText t ('=' :: more)) a b := fun a b =>
    Text.unescape_eq_self fun c hc =>
      have hc := of_mem_hotstringText ht hr (Source.mem_of_mem_slice hc)
      ⟨hc.2.2.1, hc.2.1⟩
  rw [assemble_value plain (by omega) (by omega), hself,
    ← assembled_eq_slice plain (by omega) (by omega)] at hvalue
  have htext : ':' ∈ (ofSource (hotstringText t ('=' :: more))).textAt j := by
    obtain ⟨token, htoken, htext⟩ := Stream.reads_iff.mp hcolon
    simp [Stream.textAt, htoken, htext]
  have hmem : ':' ∈ assembled (ofSource (hotstringText t ('=' :: more))) 2 colons :=
    List.mem_flatMap.mpr
      ⟨j, List.mem_range'_1.mpr ⟨by omega, by omega⟩, List.mem_append_right _ htext⟩
  rw [String.ofList_injective hvalue] at hmem
  cases ht ':' hmem

end HotstringText

end Grammar

open Grammar

variable {t r : List Char}

/-- A trigger text of letters and digits and a replacement are read back from the hotstring that
they are written as, unless the replacement starts with an equals sign. -/
theorem parse_hotstring_iff (hne : t ≠ []) (ht : ∀ c ∈ t, c.isAlphanum = true)
    (hr : IsReplacement r) :
    (∃ script trigger replacement span, parse ("::".toList ++ t ++ "::".toList ++ r) = .ok script ∧
      script.body = [.hotstring [] trigger (some replacement) none span] ∧
      trigger.value = String.ofList t ∧ replacement.value = String.ofList r) ↔
      r.head? ≠ some '=' := by
  have hsource : "::".toList ++ t ++ "::".toList ++ r = hotstringText t r := by
    simp [hotstringText]
  rw [hsource]
  constructor
  · rintro ⟨script, trigger, replacement, span, hparse, hbody, htrigger, -⟩ hequals
    have hs := hotstring_of_statement (statement_of_parse hparse hbody) rfl
    obtain ⟨colons, hhead⟩ := hotstringHead_of_hotstring hs
    exact value_ne_of_equals ht hr hne hequals hhead htrigger
  · intro hequals
    obtain ⟨trigger, replacement, span, hs, htrigger, hreplacement⟩ :=
      exists_statement_of_hotstringText ht hr hne hequals
    obtain ⟨script, hparse, hbody⟩ := exists_parse_of_statement hs
    exact ⟨script, trigger, replacement, span, hparse, hbody, htrigger, hreplacement⟩

/-- A replacement with colons, an operator, an equals sign and a comma in it. -/
theorem parse_hotstring_operators :
    ∃ script trigger replacement span, parse "::0x1g::: a:=1, %b% /* ::".toList = .ok script ∧
      script.body = [.hotstring [] trigger (some replacement) none span] ∧
      trigger.value = "0x1g" ∧ replacement.value = ": a:=1, %b% /* ::" :=
  (parse_hotstring_iff (t := "0x1g".toList) (r := ": a:=1, %b% /* ::".toList) (by decide)
    (List.all_eq_true.mp (by decide)) ⟨by decide, by simp [accent], by decide⟩).mpr (by decide)

/-- No hotstring is read if the replacement starts with an equals sign. -/
theorem parse_hotstring_equals :
    IsReplacement "=b".toList ∧ (∀ c ∈ "a".toList, c.isAlphanum = true) ∧
      (parse "::a::=b".toList).toOption.isNone = true ∧
      (parse "::a:: =b".toList).toOption.map (·.body.map Stmt.kind) = some [.hotstring] :=
  ⟨⟨by decide, by simp [accent], by decide⟩, List.all_eq_true.mp (by decide), by decide +kernel,
    by decide +kernel⟩

end HotkeyScript
