import HotkeyScript.Text.Lines

/-!
# Source text and byte offsets

A source is a list of characters, and a place in it is an offset that counts UTF-8 bytes. The cuts
below take and drop whole characters, so an offset that does not fall on a character boundary is
rounded up to the next one.

## Main definitions

* `Source.byteLength`, `Source.takeBytes`, `Source.dropBytes` — sizes and cuts by bytes.
* `Source.slice` — the text between two offsets.
* `Source.lineBefore`, `Source.lineAfter` — the parts of the line on either side of an offset.
* `Source.position` — the line and the column of an offset.
-/

namespace HotkeyScript

/-- The characters of a script. -/
abbrev Source := List Char

namespace Source

/-- The number of UTF-8 bytes of a text. -/
def byteLength : List Char → Nat
  | [] => 0
  | c :: cs => c.utf8Size + byteLength cs

/-- The text after the first `n` bytes. -/
def dropBytes (n : Nat) : List Char → List Char
  | [] => []
  | c :: cs => if n = 0 then c :: cs else dropBytes (n - c.utf8Size) cs

/-- The text of the first `n` bytes. -/
def takeBytes (n : Nat) : List Char → List Char
  | [] => []
  | c :: cs => if n = 0 then [] else c :: takeBytes (n - c.utf8Size) cs

/-- The text from byte `start` up to byte `stop`. -/
def slice (source : Source) (start stop : Nat) : List Char :=
  takeBytes (stop - start) (dropBytes start source)

@[simp] theorem byteLength_nil : byteLength [] = 0 := rfl

@[simp] theorem byteLength_cons (c : Char) (cs : List Char) :
    byteLength (c :: cs) = c.utf8Size + byteLength cs := rfl

@[simp] theorem byteLength_append (as bs : List Char) :
    byteLength (as ++ bs) = byteLength as + byteLength bs := by
  induction as with
  | nil => simp
  | cons c cs ih => simp [ih, Nat.add_assoc]

/-- A character has at least one byte, so a text has at least as many bytes as characters. -/
theorem length_le_byteLength (cs : List Char) : cs.length ≤ byteLength cs := by
  induction cs with
  | nil => exact Nat.le_refl _
  | cons c cs ih =>
    have := c.utf8Size_pos
    simp only [byteLength_cons, List.length_cons]
    omega

/-- The bytes of a text are those of the string with its characters. -/
theorem byteLength_eq_utf8ByteSize (cs : List Char) :
    byteLength cs = (String.ofList cs).utf8ByteSize := by
  induction cs with
  | nil => simp
  | cons c cs ih =>
    have hsplit : String.ofList (c :: cs) = String.singleton c ++ String.ofList cs := by
      rw [String.singleton_eq_ofList, ← String.ofList_append]
      rfl
    rw [byteLength_cons, ih, hsplit, String.utf8ByteSize_append, String.utf8ByteSize_singleton]

/-- The two parts of a cut make up the text. -/
@[simp] theorem takeBytes_append_dropBytes (n : Nat) (cs : List Char) :
    takeBytes n cs ++ dropBytes n cs = cs := by
  induction cs generalizing n with
  | nil => rfl
  | cons c cs ih => by_cases h : n = 0 <;> simp [takeBytes, dropBytes, h, ih]

@[simp] theorem takeBytes_zero (cs : List Char) : takeBytes 0 cs = [] := by
  cases cs <;> simp [takeBytes]

@[simp] theorem dropBytes_zero (cs : List Char) : dropBytes 0 cs = cs := by
  cases cs <;> simp [dropBytes]

/-- Dropping as many bytes as the first part has leaves the second part. -/
@[simp] theorem dropBytes_byteLength_append (as bs : List Char) :
    dropBytes (byteLength as) (as ++ bs) = bs := by
  induction as with
  | nil => simp
  | cons c cs ih =>
    have hne : c.utf8Size ≠ 0 := Nat.pos_iff_ne_zero.mp c.utf8Size_pos
    simp [dropBytes, hne, ih]

/-- Taking as many bytes as the first part has gives the first part. -/
@[simp] theorem takeBytes_byteLength_append (as bs : List Char) :
    takeBytes (byteLength as) (as ++ bs) = as := by
  induction as with
  | nil => simp
  | cons c cs ih =>
    have hne : c.utf8Size ≠ 0 := Nat.pos_iff_ne_zero.mp c.utf8Size_pos
    simp [takeBytes, hne, ih]

/-- A slice between the ends of a part is that part. -/
theorem slice_append (as bs cs : List Char) :
    slice (as ++ (bs ++ cs)) (byteLength as) (byteLength as + byteLength bs) = bs := by
  simp [slice]

/-- The characters between the start of the line and the offset. -/
def lineBefore (source : Source) (offset : Nat) : List Char :=
  ((takeBytes offset source).reverse.takeWhile (!Text.isLineBreak ·)).reverse

/-- The characters between the offset and the end of the line. -/
def lineAfter (source : Source) (offset : Nat) : List Char :=
  (dropBytes offset source).takeWhile (!Text.isLineBreak ·)

/-- The offset at which the line of `offset` starts. -/
def lineStart (source : Source) (offset : Nat) : Nat :=
  offset - byteLength (lineBefore source offset)

/-- The offset at which the line of `offset` ends, before its break. -/
def lineEnd (source : Source) (offset : Nat) : Nat :=
  offset + byteLength (lineAfter source offset)

/-- The offset at which the line after the one of `offset` starts; the end of the source when
there is none. -/
def nextLineStart (source : Source) (offset : Nat) : Nat :=
  let stop := lineEnd source offset
  match dropBytes stop source with
  | '\r' :: '\n' :: _ => stop + 2
  | _ :: _ => stop + 1
  | [] => stop

/-- The character that ends at the offset. -/
def charBefore (source : Source) (offset : Nat) : Option Char :=
  (takeBytes offset source).getLast?

/-- The byte order mark, which may stand at the start of a source. -/
def byteOrderMark : Char := '\uFEFF'

/-- The line and the column of an offset, both counted from zero. The column counts characters and
leaves out a byte order mark at the start of the source. -/
def position (source : Source) (offset : Nat) : Nat × Nat :=
  let before := takeBytes offset source
  let text := if before.head? = some byteOrderMark then before.tail else before
  (Text.lineBreaks text, (text.reverse.takeWhile (!Text.isLineBreak ·)).length)

end Source

end HotkeyScript
