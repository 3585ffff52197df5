import HotkeyScript.Grammar.LegacyText
import HotkeyScript.Proofs.Grammar.Loops
import HotkeyScript.Proofs.Stream.Plain

/-!
# Parameters of plain lines

On a line without strings and comments the literal text of some tokens is what the source has from
the first of them to the last, blanks included. Which commas separate parameters shows in the source
too: the accents in front of a comma are tokens of their own, so counting them back through the
stream is counting them in the source. A text whose commas are all escaped, and which does not end
inside an escape, is one parameter.

## Main definitions

* `Text.Shielded` — a text in which every separate character is escaped.
-/

namespace HotkeyScript

/-! ## Escaped characters -/

namespace Text

open Token (isSeparate)

variable {c : Char} {cs text : List Char} {escaped : Bool}

/-- Every comma, semicolon and percent sign of the text is escaped, no blank is, and no escape is
left open. An accent in front of the text escapes its first character if `escaped` says so. -/
def Shielded : Bool → List Char → Prop
  | escaped, [] => escaped = false
  | escaped, c :: cs =>
    (if escaped then isBlank c = false else c = accent ∨ isSeparate c = false) ∧
      Shielded (!escaped && c == accent) cs

theorem beq_accent_of_not_isSeparate (h : isSeparate c = false) : (c == accent) = false := by
  refine beq_eq_false_iff_ne.mpr ?_
  rintro rfl
  cases h

/-- An unescaped text goes on so behind characters that are not separate. -/
theorem Shielded.drop_text (h : Shielded false (text ++ cs))
    (htext : ∀ d ∈ text, isSeparate d = false) : Shielded false cs := by
  induction text with
  | nil => exact h
  | cons d text ih =>
    obtain ⟨hd, htext⟩ := List.forall_mem_cons.mp htext
    have hrest := h.2
    rw [beq_accent_of_not_isSeparate hd, Bool.and_false] at hrest
    exact ih hrest htext

theorem Shielded.behind_blank (h : Shielded escaped (c :: cs)) (hc : isBlank c = true) :
    Shielded false cs := by
  have haccent : (c == accent) = false := by
    refine beq_eq_false_iff_ne.mpr ?_
    rintro rfl
    cases hc
  have hrest := h.2
  rwa [haccent, Bool.and_false] at hrest

/-- Behind a token the text is escaped exactly if the token is an accent that is not. -/
theorem Shielded.behind (h : Shielded escaped (c :: (text ++ cs)))
    (htext : text = [] ∨ ∀ d ∈ c :: text, isSeparate d = false) :
    Shielded (!escaped && c == accent) cs := by
  rcases htext with rfl | htext
  · exact h.2
  · obtain ⟨hc, htext⟩ := List.forall_mem_cons.mp htext
    have hrest := h.2
    rw [beq_accent_of_not_isSeparate hc, Bool.and_false] at hrest ⊢
    exact hrest.drop_text htext

end Text

namespace Grammar

open Source (byteLength slice)
open HotkeyScript.Stream (ofSource Plain Ahead Flush)
open Text (accent isBlank Shielded)
open Token (isSeparate)

variable {source : Source} {before cs rest : List Char} {c : Char} {i j : Nat} {token : Token}
  {escaped : Bool}

/-! ## Literal text -/

/-- One more token adds the gap in front of it and its text. -/
theorem assembled_succ {stream : Stream} (hlt : i < j) :
    assembled stream i (j + 1) = assembled stream i j ++ (gap stream j ++ stream.textAt j) := by
  have hcount : j + 1 - i = (j - i) + 1 := by omega
  have hne : j ≠ i := by omega
  simp only [assembled, hcount, List.range'_concat, List.flatMap_append, List.flatMap_singleton]
  rw [Nat.one_mul, Nat.add_sub_cancel' (by omega), if_neg hne]

/-- Text goes up to the end if no other line starts. -/
theorem legacyText?_of_continues {stream : Stream} (hlt : i < stream.size)
    (hcontinues : ∀ k, i ≤ k → k < stream.size → stream.continues k = true) :
    legacyText? stream (fun _ => false) i = some (assemble stream i stream.size, stream.size) := by
  have hskip : stream.skip (fun i => stream.continues i && !false) i = stream.size :=
    Stream.skip_eq_of (Nat.le_of_lt hlt) (Nat.le_refl _)
      (fun k hle hlt => by simp [hcontinues k hle hlt]) fun hlt => absurd hlt (Nat.lt_irrefl _)
  rw [legacyText?, hskip, if_neg (Nat.ne_of_gt hlt)]

section Assembling

variable (plain : Plain source)
include plain

theorem gap_eq_slice (hi : 0 < i) (hlt : i < (ofSource source).size) :
    gap (ofSource source) i =
      slice source ((ofSource source).endBefore i) ((ofSource source).spanAt i).start := by
  obtain ⟨i, rfl⟩ := Nat.exists_eq_succ_of_ne_zero (Nat.pos_iff_ne_zero.mp hi)
  obtain ⟨last, hlast⟩ := Stream.exists_token_of_lt (Nat.lt_of_succ_lt hlt)
  obtain ⟨next, hnext⟩ := Stream.exists_token_of_lt hlt
  rw [gap, Nat.succ_sub_one, Stream.spanAt_eq hlast, Stream.spanAt_eq hnext, plain.line hlast,
    plain.line hnext, if_pos rfl, Stream.endBefore_succ hlast]
  rfl

/-- The text of tokens is what the source has from the first to the last of them. -/
theorem assembled_eq_slice (hlt : i < j) (hle : j ≤ (ofSource source).size) :
    assembled (ofSource source) i j =
      slice source ((ofSource source).spanAt i).start ((ofSource source).endBefore j) := by
  obtain ⟨first, hfirst⟩ := Stream.exists_token_of_lt (Nat.lt_of_lt_of_le hlt hle)
  have hcut := Stream.ofSource_cut hfirst
  induction j, hlt using Nat.le_induction with
  | base =>
    have hone : i + 1 - i = 1 := by omega
    simp [assembled, hone, sectionIndent, plain.section?_eq, Stream.textAt, hfirst,
      Stream.spanAt_eq hfirst, Stream.endBefore_succ hfirst, hcut.text]
  | succ n hn ih =>
    obtain ⟨last, hlast⟩ := Stream.exists_token_of_lt (show n - 1 < (ofSource source).size by omega)
    obtain ⟨next, hnext⟩ := Stream.exists_token_of_lt (show n < (ofSource source).size by omega)
    have hlastCut := Stream.ofSource_cut hlast
    have hnextCut := Stream.ofSource_cut hnext
    have hend : (ofSource source).endBefore n = last.span.stop := by
      rw [← Stream.endBefore_succ hlast, Nat.sub_add_cancel (by omega)]
    have hfollows := Stream.ofSource_ordered hlast hnext (by omega)
    have hbehind : first.span.start ≤ last.span.stop := by
      rcases Nat.eq_or_lt_of_le (show i ≤ n - 1 by omega) with heq | hlt
      · cases (heq ▸ hfirst).symm.trans hlast
        exact Nat.le_of_lt hcut.lt
      · have := Stream.ofSource_ordered hfirst hlast hlt
        have := hcut.lt
        have := hlastCut.lt
        omega
    have htext : (ofSource source).textAt n = slice source next.span.start next.span.stop := by
      simp [Stream.textAt, hnext, hnextCut.text]
    rw [assembled_succ hn, ih (by omega), gap_eq_slice plain (by omega) (by omega), htext, hend,
      Stream.spanAt_eq hfirst, Stream.spanAt_eq hnext, Stream.endBefore_succ hnext,
      Source.slice_append_slice hlastCut.stop hnextCut.start hnextCut.stop hfollows
        (Nat.le_of_lt hnextCut.lt),
      Source.slice_append_slice hcut.start hlastCut.stop hnextCut.stop hbehind
        (Nat.le_trans hfollows (Nat.le_of_lt hnextCut.lt))]

theorem assemble_value (hlt : i < j) (hle : j ≤ (ofSource source).size) :
    (assemble (ofSource source) i j).value = String.ofList (Text.unescape
      (slice source ((ofSource source).spanAt i).start ((ofSource source).endBefore j))) := by
  have hliteral : hasLiteralAccent (ofSource source) i j = false := by
    simp [hasLiteralAccent, plain.section?_eq]
  simp only [assemble, hliteral, assembled_eq_slice plain hlt hle, Bool.false_eq_true, if_false]

/-- On a line without escapes, what is written is the value. -/
theorem assemble_value_of_flush (hescape : ∀ c ∈ source, c ≠ accent ∧ c ≠ '"')
    (h : Flush source before (cs ++ rest) i) (hfirst : ∃ c ∈ cs.head?, isBlank c = false)
    (hlt : i < j) (hle : j ≤ (ofSource source).size)
    (hend : (ofSource source).endBefore j = byteLength (before ++ cs)) :
    (assemble (ofSource source) i j).value = String.ofList cs := by
  obtain ⟨c, hc, hblank⟩ := hfirst
  obtain ⟨more, rfl⟩ := List.head?_eq_some_iff.mp hc
  obtain ⟨token, -, htoken, hstart, -⟩ := h.toAhead.next plain hblank
  have hslice : slice source token.span.start ((ofSource source).endBefore j) = c :: more := by
    rw [hstart, hend, h.split, Source.byteLength_append, Source.slice_append]
  have hself : Text.unescape (c :: more) = c :: more := Text.unescape_eq_self fun d hd =>
    hescape d (by rw [h.split]; exact List.mem_append_right _ (List.mem_append_left _ hd))
  rw [assemble_value plain hlt hle, Stream.spanAt_eq htoken, hslice, hself]

theorem isDelimiter_eq (i : Nat) : isDelimiter (ofSource source) i =
    ((ofSource source).continuesWith i "," &&
      !(accentsBefore (ofSource source) i % 2 == 1)) := by
  simp [isDelimiter, isEscaped, plain.section?_eq]

end Assembling

/-! ## Accents -/

theorem accentsBefore_eq_zero (h : (ofSource source).touchesPrevious i = false) :
    accentsBefore (ofSource source) i = 0 := by
  cases i with
  | zero => rfl
  | succ i => simp [accentsBefore, h]

theorem accentsBefore_succ_eq_zero (h : (ofSource source).reads i "\x60" = false) :
    accentsBefore (ofSource source) (i + 1) = 0 := by
  simp [accentsBefore, h]

/-- The token at the position, if it starts right behind the text, is escaped as `escaped` says. -/
def Escapes (source : Source) (before : List Char) (i : Nat) (escaped : Bool) : Prop :=
  ∀ token, (ofSource source).token? i = some token → token.span.start = byteLength before →
    (accentsBefore (ofSource source) i % 2 == 1) = escaped

/-- A blank ends a row of accents. -/
theorem Escapes.blank (h : Ahead source before (c :: rest) i) :
    Escapes source (before ++ [c]) i false := by
  intro token htoken hstart
  have happart : (ofSource source).touchesPrevious i = false := by
    rw [Bool.eq_false_iff]
    intro htouches
    have hend : (ofSource source).endBefore i = token.span.start := by
      simp only [Stream.touchesPrevious, Stream.endBefore, htoken] at htouches ⊢
      cases hprevious : (ofSource source).previous? i with
      | none => simp [hprevious] at htouches
      | some previous => simpa [hprevious, Token.touches] using htouches
    have hstop := h.stop
    have hsize := c.utf8Size_pos
    rw [hend, hstart, Source.byteLength_append, Source.byteLength_cons] at hstop
    omega
  rw [accentsBefore_eq_zero happart]
  rfl

/-- An accent escapes what follows, unless it is escaped itself; any other token does not. -/
theorem Escapes.next (h : Escapes source before i escaped)
    (htoken : (ofSource source).token? i = some token)
    (hstart : token.span.start = byteLength before)
    (hstop : (ofSource source).endBefore (i + 1) = byteLength (before ++ token.text.toList))
    (haccent : token.text.toList = [accent] ↔ c = accent) :
    Escapes source (before ++ token.text.toList) (i + 1) (!escaped && c == accent) := by
  intro next hnext hbehind
  by_cases hc : c = accent
  · have htext : token.text = "\x60" := String.toList_injective (haccent.mpr hc)
    have htouches : (ofSource source).touchesPrevious (i + 1) = true := by
      rw [Stream.endBefore_succ htoken, ← hbehind] at hstop
      simp [Stream.touchesPrevious, htoken, hnext, Token.touches, hstop]
    have hreads : (ofSource source).reads i "\x60" = true :=
      Stream.reads_iff.mpr ⟨token, htoken, htext⟩
    have hparity := h token htoken hstart
    rw [accentsBefore, hreads, htouches, hc, ← hparity]
    rcases Nat.mod_two_eq_zero_or_one (accentsBefore (ofSource source) i) with hmod | hmod <;>
      simp [Nat.add_mod, hmod]
  · have hreads : (ofSource source).reads i "\x60" = false := by
      rw [Bool.eq_false_iff]
      intro hreads
      obtain ⟨other, hother, htext⟩ := Stream.reads_iff.mp hreads
      cases htoken.symm.trans hother
      exact hc (haccent.mp (by rw [htext]; rfl))
    rw [accentsBefore_succ_eq_zero hreads]
    simp [hc]

/-! ## Parameters -/

/-- The text is shielded, lies on one line and has no blank at either end. -/
structure IsField (cs : List Char) : Prop where
  shielded : Shielded false cs
  unbroken : Text.Unbroken cs
  first : ∃ c more, cs = c :: more ∧ isBlank c = false
  last : ∀ d, cs.getLast? = some d → isBlank d = false

section Parameters

variable (plain : Plain source)
include plain

/-- A token that starts in a text does not reach behind it into a comma. -/
theorem exists_rest_of_token {behind : List Char} (htoken : (ofSource source).token? i = some token)
    (htext : c :: (cs ++ rest) = token.text.toList ++ behind)
    (hrest : ∀ d, rest.head? = some d → d = ',') :
    ∃ cs', c :: cs = token.text.toList ++ cs' ∧ behind = cs' ++ rest := by
  rw [← List.cons_append] at htext
  rcases List.append_eq_append_iff.mp htext with ⟨more, hmore, hbehind⟩ | hinside
  · cases more with
    | nil => exact ⟨[], by simpa using hmore.symm, by simpa using hbehind.symm⟩
    | cons d more =>
      have hcomma : d = ',' := hrest d (by rw [hbehind]; rfl)
      have hsingle := plain.text_eq htoken (d := d) (by rw [hmore]; simp) (by rw [hcomma]; decide)
      rw [hsingle] at hmore
      simp at hmore
  · exact hinside

/-- A comma of a shielded text separates no parameters. -/
theorem isDelimiter_of_shielded (h : Shielded escaped (c :: cs))
    (hescapes : Escapes source before i escaped) (htoken : (ofSource source).token? i = some token)
    (hstart : token.span.start = byteLength before) (hfirst : token.text.toList.head? = some c) :
    isDelimiter (ofSource source) i = false := by
  rw [isDelimiter_eq plain]
  by_cases htext : token.text = ","
  · have hc : c = ',' := by
      rw [htext] at hfirst
      cases hfirst
      rfl
    have hescaped : escaped = true := by
      cases escaped with
      | true => rfl
      | false => exact absurd (hc ▸ h.1) (by decide)
    rw [hescapes token htoken hstart, hescaped]
    simp
  · simp [Stream.continuesWith, Stream.reads, htoken, htext]

/-- A shielded text that does not end in a blank is read up to its end without a delimiter. -/
theorem exists_end_of_shielded (hrest : ∀ d, rest.head? = some d → d = ',')
    (h : Ahead source before (cs ++ rest) i) (hescapes : Escapes source before i escaped)
    (hcs : Shielded escaped cs) (hunbroken : Text.Unbroken cs)
    (hlast : ∀ d, cs.getLast? = some d → isBlank d = false)
    (hend : cs = [] → (ofSource source).endBefore i = byteLength before) :
    ∃ j, i ≤ j ∧ Ahead source (before ++ cs) rest j ∧
      (ofSource source).endBefore j = byteLength (before ++ cs) ∧
      Escapes source (before ++ cs) j false ∧
      ∀ k, i ≤ k → k < j → isDelimiter (ofSource source) k = false := by
  -- a token may take several characters at once
  induction hn : cs.length using Nat.strongRecOn generalizing before cs i escaped with
  | ind n ih =>
  cases cs with
  | nil =>
    have hescaped : escaped = false := hcs
    rw [hescaped] at hescapes
    refine ⟨i, Nat.le_refl i, ?_, ?_, ?_, fun k hle hlt => absurd hlt (Nat.not_lt.mpr hle)⟩
    · simpa using h
    · simpa using hend rfl
    · simpa using hescapes
  | cons c cs =>
    obtain ⟨hbreak, hunbroken⟩ := List.forall_mem_cons.mp hunbroken
    by_cases hc : isBlank c = true
    · have hne : cs ≠ [] := by
        rintro rfl
        exact absurd (hc.symm.trans (hlast c rfl)) Bool.noConfusion
      have hlast' : ∀ d, cs.getLast? = some d → isBlank d = false := by
        intro d hd
        exact hlast d (by rw [List.getLast?_cons, hd]; rfl)
      obtain ⟨j, hij, hrest'⟩ := ih cs.length (by rw [← hn]; exact Nat.lt_succ_self _)
        (h.blank hbreak hc) (Escapes.blank h) (hcs.behind_blank hc) hunbroken hlast'
        (fun hnil => absurd hnil hne) rfl
      rw [List.append_assoc, List.singleton_append] at hrest'
      exact ⟨j, hij, hrest'⟩
    · rw [Bool.not_eq_true] at hc
      obtain ⟨token, rest', htoken, hstart, htext, hstop, hahead⟩ := h.next plain hc
      obtain ⟨cs', hsplit, rfl⟩ := exists_rest_of_token plain htoken htext hrest
      obtain ⟨first, more, hfirst, hseparate⟩ := plain.exists_text_eq htoken
      obtain ⟨rfl, hmore⟩ := List.cons.inj (hsplit.trans (by rw [hfirst]; exact rfl))
      have haccent : token.text.toList = [accent] ↔ c = accent := by
        constructor
        · intro hsingle
          exact (List.cons.inj (hfirst.symm.trans hsingle)).1
        · rintro rfl
          exact plain.text_eq htoken (by rw [hfirst]; exact List.mem_cons_self) (by decide)
      have hdelimiter :=
        isDelimiter_of_shielded plain hcs hescapes htoken hstart (by rw [hfirst]; rfl)
      rw [hmore] at hcs hn
      have hlast' : ∀ d, cs'.getLast? = some d → isBlank d = false := by
        intro d hd
        exact hlast d (by rw [hsplit, List.getLast?_append, hd]; rfl)
      obtain ⟨j, hij, hahead', hend', hescapes', hnone⟩ := ih cs'.length (by simp at hn; omega)
        hahead (hescapes.next htoken hstart hstop haccent) (hcs.behind hseparate)
        (fun d hd => hunbroken d (by rw [hmore]; exact List.mem_append_right _ hd)) hlast'
        (fun _ => hstop) rfl
      rw [List.append_assoc, ← hsplit] at hahead' hend' hescapes'
      refine ⟨j, by omega, hahead', hend', hescapes', fun k hle hlt => ?_⟩
      rcases Nat.eq_or_lt_of_le hle with rfl | hlt'
      · exact hdelimiter
      · exact hnone k hlt' hlt

/-- A comma that is not escaped separates parameters. -/
theorem isDelimiter_of_comma (h : Ahead source before (',' :: rest) i) (hi : 0 < i)
    (hescapes : Escapes source before i false) :
    isDelimiter (ofSource source) i = true ∧ Ahead source (before ++ [',']) rest (i + 1) := by
  obtain ⟨token, rest', htoken, hstart, htext, -, hahead⟩ := h.next plain (by decide)
  obtain ⟨first, more, hfirst, -⟩ := plain.exists_text_eq htoken
  have hcomma : token.text.toList = [','] := by
    refine plain.text_eq htoken ?_ (by decide)
    rw [hfirst] at htext ⊢
    exact List.mem_cons.mpr (.inl (List.cons.inj htext).1)
  have hcontinues := Stream.continues_of_oneLine plain.oneLine hi (Stream.lt_size_of_token? htoken)
  have hreads : (ofSource source).reads i "," = true :=
    Stream.reads_iff.mpr ⟨token, htoken, String.toList_injective hcomma⟩
  rw [hcomma] at hahead htext
  refine ⟨?_, (List.cons.inj htext).2 ▸ hahead⟩
  simp [isDelimiter_eq plain, Stream.continuesWith, hcontinues, hreads,
    hescapes token htoken hstart]

/-- A field is read as one parameter of literal text. -/
theorem param_of_field (hrest : ∀ d, rest.head? = some d → d = ',') (hcs : IsField cs)
    (h : Ahead source before (cs ++ rest) i) (hi : 0 < i)
    (hescapes : Escapes source before i false) :
    ∃ literal j, i < j ∧ isDelimiter (ofSource source) i = false ∧
      param (ofSource source) (fun _ => false) i = .ok (some (.legacyLiteral literal), j) ∧
      literal.value = String.ofList (Text.unescape cs) ∧ Ahead source (before ++ cs) rest j ∧
      Escapes source (before ++ cs) j false := by
  obtain ⟨c, cs, rfl, hc⟩ := hcs.first
  obtain ⟨j, hle, hahead, hend, hescapes', hnone⟩ := exists_end_of_shielded plain hrest h hescapes
    hcs.shielded hcs.unbroken hcs.last (fun hnil => by cases hnil)
  obtain ⟨token, rest', htoken, hstart, htext, -, -⟩ := h.next plain hc
  have hlt : i < j := by
    refine Nat.lt_of_le_of_ne hle ?_
    rintro rfl
    have hstop := h.stop
    have hpos := c.utf8Size_pos
    rw [hend, Source.byteLength_append, Source.byteLength_cons] at hstop
    omega
  have hforces : forcesExpression (ofSource source) i = false := by
    have hpercent : (ofSource source).reads i "%" = false := by
      rw [Bool.eq_false_iff]
      intro hreads
      obtain ⟨other, hother, hpercent⟩ := Stream.reads_iff.mp hreads
      cases htoken.symm.trans hother
      rw [hpercent] at htext
      exact absurd ((List.cons.inj htext).1 ▸ hcs.shielded.1) (by decide)
    simp [forcesExpression, hpercent]
  have hcontinues : ∀ k, i ≤ k → k < j → (ofSource source).continues k = true := fun k hik hkj =>
    Stream.continues_of_oneLine plain.oneLine (by omega) (Nat.lt_of_lt_of_le hkj hahead.le)
  have hskip : (ofSource source).skip (fun k => (ofSource source).continues k &&
      !(isDelimiter (ofSource source) k || false)) i = j := by
    refine Stream.skip_eq_of hle hahead.le (fun k hik hkj => ?_) fun hsize => ?_
    · simp [hcontinues k hik hkj, hnone k hik hkj]
    · have hdelimiter : isDelimiter (ofSource source) j = true := by
        cases rest with
        | nil => exact absurd (hahead.eq_size plain) (Nat.ne_of_lt hsize)
        | cons d rest =>
          rw [hrest d rfl] at hahead
          exact (isDelimiter_of_comma plain hahead (by omega) hescapes').1
      simp [hdelimiter]
  refine ⟨assemble (ofSource source) i j, j, hlt, hnone i (Nat.le_refl i) hlt, ?_, ?_, hahead,
    hescapes'⟩
  · simp only [param, hforces, legacyText?, hskip, Nat.ne_of_gt hlt, if_false, Bool.false_eq_true]
  · rw [assemble_value plain hlt hahead.le, Stream.spanAt_eq htoken, hstart, hend, h.split,
      Source.byteLength_append, Source.slice_append]

end Parameters

theorem paramsWithin_of_param {stream : Stream} {halt : Nat → Bool} {first : Option Expr}
    {params : List (Option Expr)} {bound stop : Nat}
    (hcontinues : stream.continues i = true) (hhalt : halt i = false)
    (hnot : isDelimiter stream i = false) (hparam : param stream halt i = .ok (first, j))
    (hparams : paramsWithin stream halt bound (if isDelimiter stream j then j + 1 else j) =
      .ok (params, stop)) :
    paramsWithin stream halt (bound + 1) i = .ok (first :: params, stop) := by
  simp [paramsWithin, hcontinues, hhalt, hnot, hparam, hparams, ok_bind]

theorem paramsWithin_size (stream : Stream) (halt : Nat → Bool) (bound : Nat) :
    paramsWithin stream halt bound stream.size = .ok ([], stream.size) := by
  cases bound with
  | zero => rfl
  | succ bound => simp [paramsWithin, Stream.continues_of_size_le (Nat.le_refl stream.size)]

/-- Fields with a comma and a space in front of each but the first are the parameters of the
line. -/
theorem paramsWithin_of_fields (plain : Plain source) {texts : List (List Char)} {bound : Nat}
    (hcs : IsField cs) (htexts : ∀ text ∈ texts, IsField text)
    (h : Ahead source before (cs ++ texts.flatMap (',' :: ' ' :: ·)) i) (hi : 0 < i)
    (hescapes : Escapes source before i false) (hbound : (ofSource source).size - i ≤ bound) :
    ∃ literals : List LegacyLiteral,
      paramsWithin (ofSource source) (fun _ => false) bound i =
        .ok (literals.map fun literal => some (.legacyLiteral literal), (ofSource source).size) ∧
      literals.map (·.value) =
        (cs :: texts).map fun text => String.ofList (Text.unescape text) := by
  induction texts generalizing cs before i bound with
  | nil =>
    obtain ⟨literal, j, hlt, hnot, hparam, hvalue, hahead, -⟩ :=
      param_of_field plain (by simp) hcs h hi hescapes
    have hcontinues : (ofSource source).continues i = true :=
      Stream.continues_of_oneLine plain.oneLine hi (Nat.lt_of_lt_of_le hlt hahead.le)
    have hend : j = (ofSource source).size := hahead.eq_size plain
    have hnone : isDelimiter (ofSource source) j = false := by
      simp [isDelimiter, Stream.continuesWith, Stream.continues_of_size_le (Nat.le_of_eq hend.symm)]
    obtain ⟨bound, rfl⟩ := Nat.exists_eq_succ_of_ne_zero (show bound ≠ 0 by omega)
    refine ⟨[literal], paramsWithin_of_param hcontinues rfl hnot hparam ?_, by simp [hvalue]⟩
    rw [hnone, if_neg Bool.false_ne_true, hend]
    exact paramsWithin_size _ _ _
  | cons text texts ih =>
    obtain ⟨htext, htexts⟩ := List.forall_mem_cons.mp htexts
    obtain ⟨literal, j, hlt, hnot, hparam, hvalue, hahead, hescapes'⟩ :=
      param_of_field plain (by simp) hcs h hi hescapes
    have hcontinues : (ofSource source).continues i = true :=
      Stream.continues_of_oneLine plain.oneLine hi (Nat.lt_of_lt_of_le hlt hahead.le)
    have hsize := hahead.le
    obtain ⟨bound, rfl⟩ := Nat.exists_eq_succ_of_ne_zero (show bound ≠ 0 by omega)
    obtain ⟨hdelimiter, hbehind⟩ := isDelimiter_of_comma plain hahead (by omega) hescapes'
    obtain ⟨literals, hparams, hvalues⟩ := ih htext htexts (hbehind.blank (by decide) (by decide))
      (Nat.succ_pos j) (Escapes.blank hbehind) (show _ ≤ bound by omega)
    refine ⟨literal :: literals, paramsWithin_of_param hcontinues rfl hnot hparam ?_,
      by rw [List.map_cons, hvalue, hvalues]; rfl⟩
    rw [hdelimiter, if_pos rfl]
    exact hparams

end Grammar

end HotkeyScript
