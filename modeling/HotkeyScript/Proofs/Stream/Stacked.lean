import HotkeyScript.Proofs.Stream.Above
import HotkeyScript.Proofs.Stream.Below
import HotkeyScript.Proofs.Stream.Fits

/-!
# Sources on top of each other

The stream of two sources with a line break between them is the stream of the first and behind it
that of the second, at its later place. What the pass over the tokens could read across the break is
excluded: a carriage return at the end of the first source, which would be one break with the line
feed, an open comment, and a parenthesis that closes a section. Both streams are then windows on the
stream of the two sources.

## Main definitions

* `Stream.Stacked` — the second source can stand on the lines below the first.
-/

namespace HotkeyScript.Stream

open Source (byteLength)
open Text (lineBreaks)

/-- The second source can stand on the lines below the first. -/
structure Stacked (a b : Source) : Prop where
  feed : a.getLast? ≠ some '\r'
  ended : ∀ comment ∈ (ofSource a).comments, Ended comment
  mark : b.head? ≠ some Source.byteOrderMark
  /-- The second source closes no section of the first. -/
  apart : ∀ opening ∈ Token.tokenize a, opensSection opening = true →
    ∀ token ∈ Token.tokenize b, closesSection token = false
  /-- The second source closes no section of its own. -/
  unclosed : ∀ token ∈ (Token.tokenize b).tail, closesSection token = false

theorem below_tokenize (a b : Source) : Below a ((Token.tokenize b).map
    (Token.shift (byteLength a + 1) (lineBreaks a + 1))) := by
  refine ⟨List.forall_mem_map.mpr ?_, List.forall_mem_map.mpr ?_⟩
  · intro token _
    simp only [Token.shift_span, Span.shift_start]
    omega
  · intro token _
    simp only [Token.shift_span, Span.shift_line]
    omega

namespace Stacked

variable {a b : Source} (h : Stacked a b)
include h

/-! ## The stream of both sources -/

/-- The pass reads the first source, and then the second on top of it. -/
theorem read : Draft.read (a ++ '\n' :: b) {} (Token.tokenize (a ++ '\n' :: b)) =
    (Draft.read a {} (Token.tokenize a)).append (byteLength a + 1) (lineBreaks a + 1)
      (Draft.read b {} (Token.tokenize b)) := by
  have hended : ∀ comment ∈ (Draft.read a {} (Token.tokenize a)).comments, Ended comment := by
    intro comment hcomment
    exact h.ended comment (List.mem_reverse.mpr hcomment)
  have hsplit : a ++ '\n' :: b = (a ++ ['\n']) ++ b := by simp
  have hlength : byteLength a + 1 = byteLength (a ++ ['\n']) := by
    rw [Source.byteLength_append]
    rfl
  rw [Token.tokenize_append h.feed h.mark, read_append h.feed (below_tokenize a b)
    (fun opening hopening hopens => List.forall_mem_map.mpr (h.apart opening hopening hopens))
    (sound_empty a) (pending_tokenize a)
    (fun token htoken => Token.line_le_of_mem_tokenize htoken) hended, hsplit,
    hlength, ← read_shift (by simp) (ofSource_fits a).lastLine h.unclosed {}]
  rfl

theorem items : (ofSource (a ++ '\n' :: b)).items.toList = (ofSource a).items.toList ++
    (ofSource b).items.toList.map (Item.shift (byteLength a + 1) (lineBreaks a + 1)) := by
  simp [ofSource, h.read, Draft.append, Draft.toStream]

theorem sections : (ofSource (a ++ '\n' :: b)).sections = (ofSource a).sections := by
  simp [ofSource, h.read, Draft.append, Draft.toStream]

theorem item_left {i : Nat} (hi : i < (ofSource a).size) :
    (ofSource (a ++ '\n' :: b)).items[i]? = (ofSource a).items[i]? := by
  rw [← Array.getElem?_toList, h.items, List.getElem?_append_left (by simpa [Stream.size] using hi),
    Array.getElem?_toList]

theorem item_right (i : Nat) :
    (ofSource (a ++ '\n' :: b)).items[(ofSource a).size + i]? =
      (ofSource b).items[i]?.map (Item.shift (byteLength a + 1) (lineBreaks a + 1)) := by
  rw [← Array.getElem?_toList, h.items,
    List.getElem?_append_right (by simp [Stream.size]), List.getElem?_map]
  simp [Stream.size]

theorem size : (ofSource (a ++ '\n' :: b)).size = (ofSource a).size + (ofSource b).size := by
  have := congrArg List.length h.items
  simpa [Stream.size] using this

/-! ## The items of the second source -/

/-- The second source has no sections. -/
theorem unmarked {i : Nat} {item : Item} (hitem : (ofSource b).items[i]? = some item) :
    item.inSection = none := by
  obtain ⟨newer, hnewer⟩ := grows_read h.unclosed b {}
  refine hnewer.unmarked item ?_
  have hmem := Array.mem_of_getElem? hitem
  simpa [ofSource, Draft.toStream, hnewer.items] using hmem

theorem section?_right (i : Nat) : (ofSource b).section? i = none := by
  rw [section?]
  cases hitem : (ofSource b).items[i]? with
  | none => rfl
  | some item => simp [h.unmarked hitem]

/-- The first item of the second source starts a line. -/
theorem startsLine_right {item : Item} (hitem : (ofSource b).items[0]? = some item) :
    item.startsLine = true := by
  obtain ⟨newer, hnewer⟩ := grows_read h.unclosed b {}
  refine hnewer.startsLine rfl item ?_
  rw [← List.head?_reverse, List.head?_eq_getElem?]
  simpa [ofSource, Draft.toStream, hnewer.items] using hitem

/-! ## Windows -/

theorem token?_left {i : Nat} (hi : i < (ofSource a).size) :
    (ofSource (a ++ '\n' :: b)).token? i = (ofSource a).token? i := by
  rw [token?, h.item_left hi, token?]

/-- A line break stands between the two sources. -/
theorem touchesPrevious :
    (ofSource (a ++ '\n' :: b)).touchesPrevious (ofSource a).size = false := by
  have hright := h.item_right 0
  rw [Nat.add_zero] at hright
  cases hsize : (ofSource a).size with
  | zero => rfl
  | succ n =>
    obtain ⟨previous, hprevious⟩ := exists_token_of_lt (show n < (ofSource a).size by omega)
    have hstop := (ofSource_cut hprevious).stop.le_byteLength
    rw [hsize] at hright
    rw [Stream.touchesPrevious, previous?, h.token?_left (by omega), hprevious, token?, hright]
    cases (ofSource b).items[0]? with
    | none => rfl
    | some item =>
      simp only [Option.map_some, Item.shift, Token.touches, Token.shift_span, Span.shift_start,
        beq_eq_false_iff_ne]
      omega

theorem edge {item : Item}
    (hitem : (ofSource (a ++ '\n' :: b)).items[(ofSource a).size]? = some item) :
    Edge (ofSource a) 0 item := by
  have hright := h.item_right 0
  rw [Nat.add_zero, hitem] at hright
  obtain ⟨first, hfirst, rfl⟩ := Option.map_eq_some_iff.mp hright.symm
  have hstarts := h.startsLine_right hfirst
  have hunmarked := h.unmarked hfirst
  refine ⟨hstarts, hunmarked, ?_⟩
  intro i other hother
  have hline := (ofSource_placed hother).line
  simp only [Item.shift, Token.shift_span, Span.shift_line]
  omega

/-- The first source is a window at the start, if the second does not carry on its last line. -/
theorem window_left (hends : (ofSource (a ++ '\n' :: b)).continues (ofSource a).size = false) :
    Window (ofSource a) (ofSource (a ++ '\n' :: b)) 0 0 [] ('\n' :: b) where
  source := rfl
  fresh := Text.endsLine_nil
  bound := by rw [h.size]; omega
  item i hi := by
    rw [Nat.zero_add, h.item_left hi]
    cases (ofSource a).items[i]? <;> rfl
  sections i hi := by rw [Nat.zero_add, section?, h.item_left hi, h.sections, section?]
  first _ _ _ := ⟨rfl, rfl⟩
  closing _ _ haround := (ofSource_closing haround).stop
  cut _ _ htoken := ofSource_cut htoken
  operator _ _ htoken := (ofSource_placed htoken).kinded.operator
  opens := rfl
  closes := by rw [Nat.zero_add, h.touchesPrevious]
  edge item hitem := h.edge (by rwa [Nat.zero_add] at hitem)
  ends := by rw [Nat.zero_add, hends]

/-- The second source is a window behind it. -/
theorem window_right : ClosedWindow (ofSource b) (ofSource (a ++ '\n' :: b)) (ofSource a).size
    (lineBreaks a + 1) (a ++ ['\n']) [] := by
  have hnone : (ofSource (a ++ '\n' :: b)).items[(ofSource a).size + (ofSource b).size]? = none :=
    Array.getElem?_eq_none (Nat.le_of_eq h.size)
  exact
    { source := by simp [ofSource, Draft.toStream]
      fresh := by
        intro c hc
        rw [List.getLast?_append] at hc
        cases hc
        decide
      bound := by rw [h.size]
      item := by
        intro i _
        rw [h.item_right, Source.byteLength_append]
        rfl
      sections := by
        intro i _
        rw [h.section?_right, section?, h.item_right]
        cases hitem : (ofSource b).items[i]? with
        | none => rfl
        | some item => simp [Item.shift, h.unmarked hitem]
      first := by
        intro i around haround
        rw [h.section?_right] at haround
        cases haround
      closing := fun _ _ haround => (ofSource_closing haround).stop
      cut := fun _ _ htoken => ofSource_cut htoken
      operator := fun _ _ htoken => (ofSource_placed htoken).kinded.operator
      opens := h.touchesPrevious
      closes := touchesPrevious_of_size_le (by rw [h.size])
      edge := by
        intro item hitem
        cases hnone.symm.trans hitem
      ends := continues_of_size_le (by rw [h.size])
      closed := by
        intro item hitem
        cases hnone.symm.trans hitem }

end Stacked

end HotkeyScript.Stream
