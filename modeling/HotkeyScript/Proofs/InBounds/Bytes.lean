import HotkeyScript.Proofs.Source.Append
import HotkeyScript.Proofs.Token.Lexed

/-!
# Texts read byte by byte

The functions of the library always answer: behind the end of a list there is nothing, and a cut
takes what there is. The functions of this and the following modules do what their namesakes do, but
an access of theirs may fail. An index has to be one of the list, and a part of a list is cut out
between two indices, the first not behind the second, the second not behind the end.

This module holds the loops that look at the bytes of a text: those that measure a number, a word or
a string. They look for ASCII characters only. Such a character is one byte, and no byte of another
character looks like one, so the loops keep in step with the characters. None of their accesses
fails, and the bytes that they count are those of the characters that their namesakes count.

## Main definitions

* `InBounds.segment` — a part of a list.
* `InBounds.bytes`, `InBounds.isByte` — the bytes of a text, and what is asked of them.
* `InBounds.byteRun`, `InBounds.numberLength`, `InBounds.quoteEnd`, `InBounds.stringLength` — the
  loops.
-/

namespace HotkeyScript.InBounds

open Source (byteLength)
open Token (isHexDigit isWordChar runLength)

variable {p : Char → Bool} {c : Char} {cs rest : List Char} {b : UInt8} {bs part : List UInt8}
  {bound i : Nat}

/-! ## Parts of a list -/

section Segment

variable {α : Type} (first part : List α) (x : α) (last : List α)

/-- The elements from index `start` up to, and without, index `stop`. Both may be the end of the
list, and the first may not lie behind the second. -/
def segment (xs : List α) (start stop : Nat) : Option (List α) :=
  if start ≤ stop ∧ stop ≤ xs.length then some ((xs.take stop).drop start) else none

theorem segment_append :
    segment (first ++ (part ++ last)) first.length (first.length + part.length) = some part := by
  rw [segment, if_pos (by simp), List.take_length_add_append, List.take_left, List.drop_left]

theorem segment_end : segment (first ++ last) first.length (first ++ last).length = some last := by
  rw [segment, if_pos (by simp), List.take_length, List.drop_left]

theorem getElem?_append_length : (first ++ x :: last)[first.length]? = some x := by
  simp

theorem getElem?_append_length_succ : (first ++ x :: last)[first.length + 1]? = last.head? := by
  rw [List.getElem?_append_right (Nat.le_add_right _ 1), Nat.add_sub_cancel_left,
    List.getElem?_cons_succ, List.head?_eq_getElem?]

end Segment

/-! ## Bytes -/

/-- The bytes of a text in UTF-8. -/
def bytes (text : List Char) : List UInt8 :=
  text.flatMap String.utf8EncodeChar

/-- The byte is an ASCII character that satisfies `p`. -/
def isByte (p : Char → Bool) (b : UInt8) : Bool :=
  b.toNat < 128 && p (Char.ofNat b.toNat)

/-- The number of bytes at the start that are ASCII characters satisfying `p`. -/
def byteRun (p : Char → Bool) (bs : List UInt8) : Nat :=
  (bs.takeWhile (isByte p)).length

/-- Only ASCII characters satisfy `p`. -/
def OnlyAscii (p : Char → Bool) : Prop :=
  ∀ c, p c = true → c.toNat < 128

@[simp] theorem bytes_nil : bytes [] = [] := rfl

@[simp] theorem bytes_cons (c : Char) (cs : List Char) :
    bytes (c :: cs) = String.utf8EncodeChar c ++ bytes cs := rfl

@[simp] theorem bytes_append (cs rest : List Char) : bytes (cs ++ rest) = bytes cs ++ bytes rest :=
  List.flatMap_append

@[simp] theorem length_bytes (cs : List Char) : (bytes cs).length = byteLength cs := by
  induction cs with
  | nil => rfl
  | cons c cs ih => simp [ih]

/-- A character is one byte with its properties, or it has no byte that is an ASCII character. -/
theorem utf8EncodeChar_cases (c : Char) :
    c.toNat < 128 ∧ (∃ b, String.utf8EncodeChar c = [b] ∧ ∀ p, isByte p b = p c) ∨
      128 ≤ c.toNat ∧ ∀ b ∈ String.utf8EncodeChar c, ∀ p, isByte p b = false := by
  rcases Nat.lt_or_ge c.toNat 128 with hlt | hge
  · refine .inl ⟨hlt, UInt8.ofNat c.toNat, ?_, fun p => ?_⟩
    · have hle : c.val.toNat ≤ 127 := Nat.le_of_lt_succ hlt
      exact if_pos hle
    · have hbyte : (UInt8.ofNat c.toNat).toNat = c.toNat := by
        rw [UInt8.toNat_ofNat']
        omega
      simp [isByte, hbyte, hlt]
  · refine .inr ⟨hge, fun b hb p => ?_⟩
    have hhigh : 128 ≤ b.toNat := by
      have hnot : ¬c.val.toNat ≤ 127 := Nat.not_le_of_lt hge
      simp only [String.utf8EncodeChar, hnot, if_false] at hb
      split at hb
      · simp only [List.mem_cons, List.not_mem_nil, or_false] at hb
        rcases hb with rfl | rfl <;> rw [UInt8.toNat_ofNat'] <;> omega
      split at hb
      · simp only [List.mem_cons, List.not_mem_nil, or_false] at hb
        rcases hb with rfl | rfl | rfl <;> rw [UInt8.toNat_ofNat'] <;> omega
      · simp only [List.mem_cons, List.not_mem_nil, or_false] at hb
        rcases hb with rfl | rfl | rfl | rfl <;> rw [UInt8.toNat_ofNat'] <;> omega
    simp [isByte, Nat.not_lt_of_le hhigh]

theorem exists_bytes_cons (h : c.toNat < 128) (cs : List Char) :
    ∃ b, bytes (c :: cs) = b :: bytes cs ∧ ∀ p, isByte p b = p c := by
  obtain ⟨-, b, hbyte, hb⟩ | ⟨hge, -⟩ := utf8EncodeChar_cases c
  · exact ⟨b, by rw [bytes_cons, hbyte, List.singleton_append], hb⟩
  · omega

/-- A text starts with an ASCII character just if its bytes do. -/
theorem head?_bytes (hp : OnlyAscii p) (cs : List Char) :
    (bytes cs).head?.any (isByte p) = cs.head?.any p := by
  cases cs with
  | nil => rfl
  | cons c cs =>
    obtain ⟨-, b, hbyte, hb⟩ | ⟨hge, hnone⟩ := utf8EncodeChar_cases c
    · simp [hbyte, hb]
    · have hc : p c = false := Bool.eq_false_iff.mpr fun hc => by
        have := hp c hc
        omega
      cases hchars : String.utf8EncodeChar c with
      | nil =>
        have hlength := String.length_utf8EncodeChar c
        rw [hchars] at hlength
        exact absurd hlength (Nat.ne_of_lt c.utf8Size_pos)
      | cons b part =>
        have hb := hnone b (by simp [hchars]) p
        simp [hchars, hb, hc]

theorem byteRun_bytes (hp : OnlyAscii p) (cs : List Char) :
    byteRun p (bytes cs) = runLength p cs := by
  induction cs with
  | nil => rfl
  | cons c cs ih =>
    have hhead := head?_bytes hp (c :: cs)
    by_cases hc : p c = true
    · obtain ⟨b, hbytes, hb⟩ := exists_bytes_cons (hp c hc) cs
      have hrun : byteRun p (b :: bytes cs) = byteRun p (bytes cs) + 1 := by
        simp [byteRun, hb, hc]
      rw [hbytes, hrun, ih]
      simp [runLength, hc]
    · have hnone : ∀ b bs, bytes (c :: cs) = b :: bs → isByte p b = false := by
        intro b bs hbytes
        simpa [hbytes, hc] using hhead
      cases hbytes : bytes (c :: cs) with
      | nil => simp [byteRun, runLength, hc]
      | cons b bs => simp [byteRun, runLength, hc, hnone b bs hbytes]

/-- A loop over the bytes that goes on at each byte of a part passes over the part. -/
theorem loop_skip {β : Type} (loop : Nat → Nat → β) {part : List UInt8}
    (hstep : ∀ {first b last}, bs = first ++ b :: last → b ∈ part → ∀ bound,
      loop (bound + 1) first.length = loop bound (first.length + 1))
    {first last : List UInt8} (h : bs = first ++ (part ++ last)) (bound : Nat) :
    loop (part.length + bound) first.length = loop bound (first.length + part.length) := by
  induction part generalizing first with
  | nil => simp
  | cons b part ih =>
    have hlast : bs = (first ++ [b]) ++ (part ++ last) := by simpa using h
    have hnext := ih (fun h hb => hstep h (List.mem_cons_of_mem b hb)) hlast
    rw [List.length_append, List.length_singleton] at hnext
    rw [List.length_cons, Nat.add_right_comm, hstep h List.mem_cons_self, hnext, Nat.add_assoc,
      Nat.add_comm 1]

/-! ## Numbers and words -/

theorem onlyAscii_isWordChar : OnlyAscii isWordChar := by
  intro c hc
  simp only [isWordChar, Char.isAlphanum] at hc
  delta Char.isAlpha Char.isUpper Char.isLower at hc
  simp only [Char.isDigit, Bool.or_eq_true, Bool.and_eq_true, decide_eq_true_eq, beq_iff_eq,
    UInt32.le_iff_toNat_le, ge_iff_le] at hc
  rcases hc with ((⟨-, hc⟩ | ⟨-, hc⟩) | ⟨-, hc⟩) | rfl
  · exact Nat.lt_of_le_of_lt hc (by decide)
  · exact Nat.lt_of_le_of_lt hc (by decide)
  · exact Nat.lt_of_le_of_lt hc (by decide)
  · decide

theorem onlyAscii_isDigit : OnlyAscii Char.isDigit := fun c hc =>
  onlyAscii_isWordChar c (Token.isWordChar_of_isDigit hc)

theorem onlyAscii_isHexDigit : OnlyAscii isHexDigit := fun c hc =>
  onlyAscii_isWordChar c (Token.isWordChar_of_isHexDigit hc)

theorem onlyAscii_beq {d : Char} (hd : d.toNat < 128) : OnlyAscii (· == d) := by
  intro c hc
  rwa [beq_iff_eq.mp hc]

/-- ASCII characters are one byte each. -/
theorem byteLength_of_ascii (h : ∀ c ∈ cs, c.toNat < 128) : byteLength cs = cs.length := by
  induction cs with
  | nil => rfl
  | cons c cs ih =>
    obtain ⟨hc, hcs⟩ := List.forall_mem_cons.mp h
    obtain ⟨b, hbytes, -⟩ := exists_bytes_cons hc cs
    have hlength := congrArg List.length hbytes
    rw [length_bytes, List.length_cons, length_bytes] at hlength
    rw [hlength, ih hcs, List.length_cons]

/-- The length of `0x` and the hexadecimal digits after it, if there are any. -/
def hexLength (bs : List UInt8) : Option Nat :=
  if 2 < bs.length then do
    let zero ← bs[0]?
    let letter ← bs[1]?
    if isByte (· == '0') zero && isByte (fun x => x == 'x' || x == 'X') letter then
      let behind ← segment bs 2 bs.length
      let digits := byteRun isHexDigit behind
      return if digits == 0 then 0 else 2 + digits
    else
      return 0
  else some 0

/-- The length of digits with an optional fraction. -/
def decimalLength (bs : List UInt8) : Option Nat :=
  let whole := byteRun Char.isDigit bs
  if whole == 0 then some 0
  else if bs[whole]?.any (isByte (· == '.')) then do
    let behind ← segment bs (whole + 1) bs.length
    let digits := byteRun Char.isDigit behind
    return if digits == 0 then whole else whole + 1 + digits
  else some whole

/-- The length of a number. -/
def numberLength (bs : List UInt8) : Option Nat := do
  let hex ← hexLength bs
  if hex == 0 then decimalLength bs else return hex

/-- Two bytes in front of digits. They are looked at only if there is a third byte. -/
theorem hexLength_cons_cons (zero letter : UInt8) (bs : List UInt8) :
    hexLength (zero :: letter :: bs) =
      some (if isByte (· == '0') zero && isByte (fun x => x == 'x' || x == 'X') letter &&
        byteRun isHexDigit bs != 0 then 2 + byteRun isHexDigit bs else 0) := by
  have hbehind : segment (zero :: letter :: bs) 2 (zero :: letter :: bs).length = some bs :=
    segment_end [zero, letter] bs
  cases bs with
  | nil => simp [hexLength, byteRun]
  | cons b bs =>
    rw [hexLength, if_pos (by simp), hbehind]
    simp only [List.getElem?_cons_zero, List.getElem?_cons_succ, Option.bind_eq_bind,
      Option.bind_some, Option.pure_def]
    split
    · next hstart => simp only [hstart, Bool.true_and, bne, Bool.not_eq_true']; split <;> simp_all
    · next hstart => simp [hstart]

/-- Without `0x` in front there is no hexadecimal number. -/
theorem hexLength_of_start (h : bs.head?.any (isByte (· == '0')) = false ∨
    bs.tail.head?.any (isByte fun x => x == 'x' || x == 'X') = false) :
    hexLength bs = some 0 := by
  match bs with
  | [] => rfl
  | [_] => rfl
  | zero :: letter :: bs =>
    rw [hexLength_cons_cons]
    rcases h with h | h <;> simp only [List.head?_cons, List.tail_cons, Option.any_some] at h <;>
      simp [h]

theorem hexLength_eq (cs : List Char) : hexLength (bytes cs) = some (Token.hexLength cs) := by
  have hletters : OnlyAscii fun x => x == 'x' || x == 'X' := by
    intro x hx
    rcases Bool.or_eq_true_iff.mp hx with hx | hx <;> exact onlyAscii_beq (by decide) x hx
  cases cs with
  | nil => rfl
  | cons c cs =>
    by_cases hc : c = '0'
    · subst hc
      obtain ⟨zero, hzero, hzero'⟩ := exists_bytes_cons (show '0'.toNat < 128 by decide) cs
      cases cs with
      | nil => rw [hzero]; rfl
      | cons x cs =>
        by_cases hx : (x == 'x' || x == 'X') = true
        · obtain ⟨letter, hletter, hletter'⟩ := exists_bytes_cons (hletters x hx) cs
          rw [hzero, hletter, hexLength_cons_cons, hzero', hletter', hx,
            byteRun_bytes onlyAscii_isHexDigit]
          simp [Token.hexLength, hx]
        · have hstart := head?_bytes hletters (x :: cs)
          rw [hexLength_of_start (.inr (by rw [hzero, List.tail_cons, hstart]; simpa using hx))]
          simp [Token.hexLength, hx]
    · have hstart := head?_bytes (onlyAscii_beq (show '0'.toNat < 128 by decide)) (c :: cs)
      rw [hexLength_of_start (.inl (by rw [hstart]; simpa using hc))]
      simp [Token.hexLength, hc]

/-- Behind ASCII characters the bytes go on with the characters that follow. -/
theorem getElem?_bytes_append (h : ∀ c ∈ cs, c.toNat < 128) (rest : List Char) :
    (bytes (cs ++ rest))[cs.length]? = (bytes rest).head? := by
  have hlength : (bytes cs).length = cs.length := by rw [length_bytes, byteLength_of_ascii h]
  rw [bytes_append, List.getElem?_append_right (Nat.le_of_eq hlength), hlength, Nat.sub_self,
    List.head?_eq_getElem?]

theorem segment_bytes_append (h : ∀ c ∈ cs, c.toNat < 128) (rest : List Char) :
    segment (bytes (cs ++ rest)) cs.length (bytes (cs ++ rest)).length = some (bytes rest) := by
  rw [bytes_append, ← byteLength_of_ascii h, ← length_bytes cs, segment_end]

theorem decimalLength_eq (cs : List Char) :
    decimalLength (bytes cs) = some (Token.decimalLength cs) := by
  have hdigits : ∀ c ∈ cs.take (runLength Char.isDigit cs), c.toNat < 128 := by
    rw [Token.take_runLength]
    exact fun c hc => onlyAscii_isDigit c (List.all_eq_true.mp List.all_takeWhile c hc)
  have hlength : (cs.take (runLength Char.isDigit cs)).length = runLength Char.isDigit cs := by
    rw [List.length_take, Nat.min_eq_left (Token.runLength_le _ _)]
  have hpoint := getElem?_bytes_append hdigits (cs.drop (runLength Char.isDigit cs))
  rw [List.take_append_drop, hlength] at hpoint
  simp only [decimalLength, byteRun_bytes onlyAscii_isDigit, Token.decimalLength, hpoint,
    head?_bytes (onlyAscii_beq (show '.'.toNat < 128 by decide))]
  split
  · rfl
  cases hrest : cs.drop (runLength Char.isDigit cs) with
  | nil => rfl
  | cons d more =>
    by_cases hd : d = '.'
    · subst hd
      have hpoint' : '.'.toNat < 128 := by decide
      have hbehind := segment_bytes_append
        (List.forall_mem_append.mpr ⟨hdigits, List.forall_mem_singleton.mpr hpoint'⟩) more
      rw [List.append_assoc, List.singleton_append, ← hrest, List.take_append_drop,
        List.length_append, hlength] at hbehind
      simp only [List.head?_cons, Option.any_some, beq_self_eq_true, if_true]
      rw [List.length_singleton] at hbehind
      rw [hbehind]
      simp only [Option.bind_eq_bind, Option.bind_some, byteRun_bytes onlyAscii_isDigit,
        Option.pure_def, Token.fractionLength]
      split <;> simp [Nat.add_assoc]
    · simp [hd, Token.fractionLength]

theorem numberLength_eq (cs : List Char) :
    numberLength (bytes cs) = some (Token.numberLength cs) := by
  simp only [numberLength, hexLength_eq, decimalLength_eq, Token.numberLength, Option.bind_eq_bind,
    Option.bind_some, Option.pure_def]
  split <;> rfl

/-- The characters of a number are its bytes. -/
theorem byteLength_take_numberLength (cs : List Char) :
    byteLength (cs.take (Token.numberLength cs)) = Token.numberLength cs := by
  have hascii : ∀ c ∈ cs.take (Token.numberLength cs), c.toNat < 128 := fun c hc => by
    rcases Token.of_mem_numberLength hc with hword | rfl
    · exact onlyAscii_isWordChar c hword
    · decide
  rw [byteLength_of_ascii hascii, List.length_take, Nat.min_eq_left (Token.numberLength_le cs)]

/-- The characters of a word are its bytes. -/
theorem byteLength_take_wordLength (cs : List Char) :
    byteLength (cs.take (Token.wordLength cs)) = Token.wordLength cs := by
  have hascii : ∀ c ∈ cs.take (Token.wordLength cs), c.toNat < 128 := fun c hc =>
    onlyAscii_isWordChar c (Token.of_mem_take_runLength hc)
  have hle : Token.wordLength cs ≤ cs.length := Token.runLength_le isWordChar cs
  rw [byteLength_of_ascii hascii, List.length_take, Nat.min_eq_left hle]

/-! ## Strings -/

/-- The index behind the quote that closes a string, looked for from index `i` on. Each step uses up
one of the bound. A doubled quote does not close the string, and the end of the line ends the
search. -/
def quoteEnd (bs : List UInt8) : Nat → Nat → Option (Option Nat)
  | 0, _ => none
  | bound + 1, i =>
    if i < bs.length then do
      let b ← bs[i]?
      if isByte (· == '"') b then
        if bs[i + 1]?.any (isByte (· == '"')) then quoteEnd bs bound (i + 2)
        else return some (i + 1)
      else if isByte Text.isLineBreak b then return none
      else quoteEnd bs bound (i + 1)
    else some none

/-- The length of a string that is closed on its line. -/
def stringLength (bs : List UInt8) : Option Nat :=
  if bs.head?.any (isByte (· == '"')) then do
    let stop ← quoteEnd bs (bs.length + 1) 1
    return stop.getD 0
  else some 0

theorem onlyAscii_isLineBreak : OnlyAscii Text.isLineBreak := by
  intro c hc
  rcases Bool.or_eq_true_iff.mp hc with hc | hc <;> exact onlyAscii_beq (by decide) c hc

/-- No byte of a character has a property that the character does not have. -/
theorem isByte_of_mem (hc : p c = false) (hb : b ∈ String.utf8EncodeChar c) :
    isByte p b = false := by
  obtain ⟨-, d, hbyte, hd⟩ | ⟨-, hnone⟩ := utf8EncodeChar_cases c
  · rw [hbyte, List.mem_singleton] at hb
    rw [hb, hd, hc]
  · exact hnone b hb p

/-- The loop at a byte. Both accesses are to the bytes from there on. -/
theorem quoteEnd_append {first last : List UInt8} (h : bs = first ++ b :: last) (bound : Nat) :
    quoteEnd bs (bound + 1) first.length =
      if isByte (· == '"') b then
        if last.head?.any (isByte (· == '"')) then quoteEnd bs bound (first.length + 2)
        else some (some (first.length + 1))
      else if isByte Text.isLineBreak b then some none
      else quoteEnd bs bound (first.length + 1) := by
  rw [quoteEnd, h, if_pos (by simp), getElem?_append_length, getElem?_append_length_succ]
  rfl

/-- A character that is neither a quote nor a line break is passed over. -/
theorem quoteEnd_character {first last : List UInt8} (hc : (c == '"') = false)
    (hbreak : Text.isLineBreak c = false) (h : bs = first ++ (String.utf8EncodeChar c ++ last))
    (bound : Nat) :
    quoteEnd bs (c.utf8Size + bound) first.length =
      quoteEnd bs bound (first.length + c.utf8Size) := by
  have hstep : ∀ {first b last}, bs = first ++ b :: last → b ∈ String.utf8EncodeChar c →
      ∀ bound, quoteEnd bs (bound + 1) first.length = quoteEnd bs bound (first.length + 1) := by
    intro first b last h hb bound
    have hquote : isByte (· == '"') b = false := isByte_of_mem hc hb
    rw [quoteEnd_append h, hquote, isByte_of_mem hbreak hb]
    rfl
  rw [← String.length_utf8EncodeChar c, loop_skip (quoteEnd bs) hstep h]

/-- A quote is one byte, the same in every text. -/
theorem exists_quote :
    ∃ b, (∀ cs, bytes ('"' :: cs) = b :: bytes cs) ∧ ∀ p, isByte p b = p '"' := by
  obtain ⟨b, hbytes, hb⟩ := exists_bytes_cons (show '"'.toNat < 128 by decide) []
  exact ⟨b, fun cs => by simpa using congrArg (· ++ bytes cs) hbytes, hb⟩

/-- The loop stops behind the last byte of the characters that lead to the closing quote. -/
theorem quoteEnd_eq (first : List UInt8) (bound : Nat) (h : bs = first ++ bytes cs)
    (hbound : byteLength cs < bound) :
    quoteEnd bs bound first.length =
      some ((Token.closingQuote cs).map fun n => first.length + byteLength (cs.take n)) := by
  obtain ⟨quote, hbytes, hquote⟩ := exists_quote
  have hone : '"'.utf8Size = 1 := rfl
  -- A character takes as many steps as it has bytes, so each case takes its share of the bound.
  fun_induction Token.closingQuote cs generalizing first bound with
  | case1 cs ih =>
    obtain ⟨bound, rfl⟩ : ∃ n, bound = n + 1 := ⟨bound - 1, by omega⟩
    rw [Source.byteLength_cons, Source.byteLength_cons, hone] at hbound
    rw [hbytes, hbytes] at h
    have hnext := ih (first ++ [quote, quote]) bound (by simpa using h) (by omega)
    rw [List.length_append] at hnext
    rw [quoteEnd_append h]
    simp only [hquote, beq_self_eq_true, if_true, List.head?_cons, Option.any_some]
    refine hnext.trans ?_
    simp only [Option.map_map, Function.comp_def, List.take_succ_cons, Source.byteLength_cons, hone,
      List.length_cons, List.length_nil, Nat.add_assoc, Nat.reduceAdd, ← Nat.add_assoc 1]
  | case2 c cs hne hc =>
    obtain ⟨bound, rfl⟩ : ∃ n, bound = n + 1 := ⟨bound - 1, by omega⟩
    obtain rfl := beq_iff_eq.mp hc
    have hlast : (bytes cs).head?.any (isByte (· == '"')) = false := by
      rw [head?_bytes (onlyAscii_beq (by decide))]
      cases cs with
      | nil => rfl
      | cons d cs => simpa using hne cs rfl
    rw [hbytes] at h
    rw [quoteEnd_append h, hquote]
    simp [hlast, hone]
  | case3 c cs hne hc hbreak =>
    obtain ⟨bound, rfl⟩ : ∃ n, bound = n + 1 := ⟨bound - 1, by omega⟩
    obtain ⟨b, hb, hb'⟩ := exists_bytes_cons (onlyAscii_isLineBreak c hbreak) cs
    rw [hb] at h
    rw [quoteEnd_append h, hb', hb', hbreak]
    simp [hc]
  | case4 c cs hne hc hbreak ih =>
    rw [Source.byteLength_cons] at hbound
    obtain ⟨bound, rfl⟩ : ∃ n, bound = c.utf8Size + n := ⟨bound - c.utf8Size, by omega⟩
    rw [bytes_cons] at h
    have hnext := ih (first ++ String.utf8EncodeChar c) bound (by simpa using h) (by omega)
    rw [List.length_append, String.length_utf8EncodeChar] at hnext
    rw [quoteEnd_character (by simpa using hc) (by simpa using hbreak) h, hnext]
    simp only [Option.map_map, Function.comp_def, List.take_succ_cons, Source.byteLength_cons,
      Nat.add_assoc]
  | case5 =>
    obtain ⟨bound, rfl⟩ : ∃ n, bound = n + 1 := ⟨bound - 1, by omega⟩
    simp [quoteEnd, h]

/-- What is counted are the bytes of the characters of the string. -/
theorem stringLength_eq (cs : List Char) :
    stringLength (bytes cs) = some (byteLength (cs.take (Token.stringLength cs))) := by
  obtain ⟨quote, hbytes, -⟩ := exists_quote
  have hone : '"'.utf8Size = 1 := rfl
  unfold stringLength
  rw [head?_bytes (onlyAscii_beq (by decide))]
  fun_cases Token.stringLength cs with
  | case1 cs =>
    have hbound : byteLength cs < (bytes ('"' :: cs)).length + 1 := by
      rw [length_bytes, Source.byteLength_cons]
      omega
    have hstop := quoteEnd_eq [quote] _ (hbytes cs) hbound
    rw [List.length_singleton] at hstop
    simp only [List.head?_cons, Option.any_some, beq_self_eq_true, if_true, hstop]
    cases Token.closingQuote cs <;> simp [hone]
  | case2 cs hne =>
    cases cs with
    | nil => rfl
    | cons c cs => simpa using fun hc => (hne cs (by rw [hc])).elim

/-- A string that is closed has bytes. -/
theorem byteLength_take_stringLength_eq_zero (cs : List Char) :
    byteLength (cs.take (Token.stringLength cs)) = 0 ↔ Token.stringLength cs = 0 := by
  refine ⟨fun h => ?_, fun h => by rw [h, List.take_zero, Source.byteLength_nil]⟩
  rcases List.take_eq_nil_iff.mp (Source.eq_nil_of_byteLength h) with hzero | rfl
  · exact hzero
  · rfl

end HotkeyScript.InBounds
