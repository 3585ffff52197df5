import HotkeyScript.Stream.Cursor

/-!
# Positions of a stream

The positions with a token are those before the size of the stream. Whatever a rule asks of a token
can only hold there.

## Main definitions

* `Stream.Covers` — the tokens from one position up to another make up a span.
-/

namespace HotkeyScript.Stream

variable {stream : Stream} {p q m : Nat}

/-! ## Positions with a token -/

theorem lt_size_of_token? {token : Token} (h : stream.token? p = some token) : p < stream.size := by
  simp only [token?, Option.map_eq_some_iff] at h
  obtain ⟨item, hitem, -⟩ := h
  obtain ⟨hlt, -⟩ := Array.getElem?_eq_some_iff.mp hitem
  exact hlt

theorem exists_token_of_lt (h : p < stream.size) : ∃ token, stream.token? p = some token := by
  have hlt : p < stream.items.size := h
  exact ⟨stream.items[p].token, by simp [token?, hlt]⟩

theorem token?_eq_none (h : stream.size ≤ p) : stream.token? p = none := by
  simp only [token?, Option.map_eq_none_iff]
  exact Array.getElem?_eq_none h

/-- A stream with the tokens of a list is as long as the list. -/
theorem size_eq_length {tokens : List Token} (h : ∀ i, stream.token? i = tokens[i]?) :
    stream.size = tokens.length := by
  refine Nat.le_antisymm (Nat.le_of_not_lt fun hlt => ?_) (Nat.le_of_not_lt fun hlt => ?_)
  · obtain ⟨token, htoken⟩ := exists_token_of_lt hlt
    rw [h, List.getElem?_eq_none (Nat.le_refl _)] at htoken
    cases htoken
  · have htoken := token?_eq_none (Nat.le_refl stream.size)
    rw [h, List.getElem?_eq_getElem hlt] at htoken
    cases htoken

theorem reads_iff {text : String} :
    stream.reads p text = true ↔ ∃ token, stream.token? p = some token ∧ token.text = text := by
  cases h : stream.token? p <;> simp [reads, h]

theorem lt_size_of_reads {text : String} (h : stream.reads p text = true) : p < stream.size := by
  obtain ⟨token, htoken, -⟩ := reads_iff.mp h
  exact lt_size_of_token? htoken

theorem lt_size_of_continues (h : stream.continues p = true) : p < stream.size := by
  refine Nat.lt_of_not_le fun hle => ?_
  have hnone : stream.items[p]? = none := Array.getElem?_eq_none hle
  simp [continues, hnone] at h

theorem continues_of_not_startsLine (h : stream.startsLine p = false) :
    stream.continues p = true := by
  unfold startsLine at h
  unfold continues
  cases hitem : stream.items[p]? with
  | none => simp [hitem] at h
  | some item => simp_all

theorem add_one_lt_size_of_isDoubleColon (h : stream.isDoubleColon p = true) :
    p + 1 < stream.size := by
  simp only [isDoubleColon, Bool.and_eq_true] at h
  exact lt_size_of_reads h.1.2

@[simp] theorem previous?_succ (p : Nat) : stream.previous? (p + 1) = stream.token? p := rfl

theorem previous?_eq (h : 0 < q) : stream.previous? q = stream.token? (q - 1) := by
  obtain ⟨q, rfl⟩ := Nat.exists_eq_succ_of_ne_zero (Nat.pos_iff_ne_zero.mp h)
  rfl

theorem spanAt_eq {token : Token} (h : stream.token? p = some token) :
    stream.spanAt p = token.span := by
  simp [spanAt, h]

theorem endBefore_succ {token : Token} (h : stream.token? p = some token) :
    stream.endBefore (p + 1) = token.span.stop := by
  simp [endBefore, h]

/-! ## Runs of tokens -/

/-- The tokens from `p` up to, and without, `q` make up the span: it starts with the first of them
and ends with the last. -/
def Covers (stream : Stream) (span : Span) (p q : Nat) : Prop :=
  p < q ∧ ∃ first last, stream.token? p = some first ∧ stream.token? (q - 1) = some last ∧
    span = first.span.to last.span.stop

theorem Covers.lt {span : Span} (h : stream.Covers span p q) : p < q := h.1

theorem Covers.le_size {span : Span} (h : stream.Covers span p q) : q ≤ stream.size := by
  obtain ⟨hlt, first, last, -, hlast, -⟩ := h
  have := lt_size_of_token? hlast
  omega

/-- The span of a token is made up of the token. -/
theorem covers_token {token : Token} (h : stream.token? p = some token) :
    stream.Covers token.span p (p + 1) :=
  ⟨Nat.lt_succ_self p, token, token, h, h, rfl⟩

/-- A span that starts with a token may end before any later position. -/
theorem covers_spanTo {token : Token} (h : stream.token? p = some token) (hlt : p < q)
    (hle : q ≤ stream.size) : stream.Covers (stream.spanTo token.span q) p q := by
  have hlt' : q - 1 < stream.size := by omega
  obtain ⟨last, hlast⟩ := exists_token_of_lt hlt'
  refine ⟨hlt, token, last, h, hlast, ?_⟩
  simp [spanTo, endBefore, previous?_eq (show 0 < q by omega), hlast]

theorem covers_spanTo_spanAt (hlt : p < q) (hle : q ≤ stream.size) :
    stream.Covers (stream.spanTo (stream.spanAt p) q) p q := by
  obtain ⟨token, htoken⟩ := exists_token_of_lt (Nat.lt_of_lt_of_le hlt hle)
  rw [spanAt_eq htoken]
  exact covers_spanTo htoken hlt hle

/-- A span is stretched to a later position. -/
theorem Covers.spanTo {span : Span} (h : stream.Covers span p m) (hle : m ≤ q)
    (hsize : q ≤ stream.size) : stream.Covers (stream.spanTo span q) p q := by
  obtain ⟨hlt, first, last, hfirst, -, rfl⟩ := h
  exact covers_spanTo hfirst (by omega) hsize

/-- A span is stretched to the end of a later one. -/
theorem Covers.to {span span' : Span} (h : stream.Covers span p m) {a : Nat} (hle : m ≤ a)
    (h' : stream.Covers span' a q) : stream.Covers (span.to span'.stop) p q := by
  obtain ⟨hlt, first, last, hfirst, -, rfl⟩ := h
  obtain ⟨hlt', first', last', -, hlast', rfl⟩ := h'
  exact ⟨by omega, first, last', hfirst, hlast', rfl⟩

end HotkeyScript.Stream
