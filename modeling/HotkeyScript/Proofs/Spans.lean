import HotkeyScript.Proofs.Grammar.WrittenStatement
import HotkeyScript.Proofs.Stream.Order

/-!
# Spans and the texts of leaves

Every node below a script is written by a run of tokens of the source, and its span reaches from the
start of the first token to the end of the last. The runs of its children lie inside and follow each
other. A name, a literal, a stretch of literal text and a key have exactly the text that the source
has at their span.

## Main definitions

* `Source.Spells` — a text is what the source has at a span.
* `Node.Verbatim` — the text of a leaf is the text of the source at its span.
-/

namespace HotkeyScript

variable {source : Source} {span : Span}

/-! ## Texts of spans -/

/-- The source has the text at the span. -/
def Source.Spells (source : Source) (span : Span) (text : String) : Prop :=
  ∃ before after, source = before ++ (text.toList ++ after) ∧
    span.start = byteLength before ∧ span.stop = byteLength before + byteLength text.toList

theorem Source.spells_slice (hstart : IsBoundary source span.start)
    (hstop : IsBoundary source span.stop) (hle : span.start ≤ span.stop) :
    source.Spells span (String.ofList (slice source span.start span.stop)) := by
  obtain ⟨before, text, after, hsource, hbefore, htext, hslice⟩ := hstart.split hstop hle
  rw [hslice]
  exact ⟨before, after, by rw [String.toList_ofList, hsource], hbefore,
    by rw [String.toList_ofList, htext]⟩

theorem Token.Cut.spells {token : Token} (h : Token.Cut source token) :
    source.Spells token.span token.text := by
  rw [h.text]
  exact Source.spells_slice h.start h.stop (Nat.le_of_lt h.lt)

/-- The texts of tokens that touch make up the text from the first to the second. -/
theorem Token.Cut.spells_append {token next : Token} (h : Token.Cut source token)
    (hnext : Token.Cut source next) (htouches : token.touches next = true) :
    source.Spells (token.span.to next.span.stop) (token.text ++ next.text) := by
  have hstop : token.span.stop = next.span.start := by simpa [Token.touches] using htouches
  have hlt := h.lt
  have hlt' := hnext.lt
  have hslice := Source.slice_append_slice h.start h.stop hnext.stop (by omega) (by omega)
  have htext : token.text ++ next.text =
      String.ofList (Source.slice source token.span.start next.span.stop) := by
    rw [h.text, hnext.text, ← String.ofList_append, ← hstop, hslice]
  rw [htext]
  exact Source.spells_slice h.start hnext.stop
    (by simp only [Span.to_start, Span.to_stop]; omega)

/-- A leaf has the text of the source at its span. Where a key is released, its name is not all of
its text. -/
def Node.Verbatim (source : Source) : Node → Prop
  | .identifier name => source.Spells name.span name.name
  | .legacyLiteral text => source.Spells text.span text.raw
  | .expr (.literal value) => source.Spells value.span value.raw
  | .key k => k.up = false → source.Spells k.span k.name
  | _ => True

namespace Grammar

open Node (ofExpr)

/-! ## Leaves -/

/-- Tokens start in the order of their positions. -/
theorem start_le_start {token next : Token} {p q : Nat}
    (h : (Stream.ofSource source).token? p = some token)
    (hnext : (Stream.ofSource source).token? q = some next) (hle : p ≤ q) :
    token.span.start ≤ next.span.start := by
  rcases Nat.eq_or_lt_of_le hle with rfl | hlt
  · cases h.symm.trans hnext
    exact Nat.le_refl _
  · have := (Stream.ofSource_cut h).lt
    have := Stream.ofSource_ordered h hnext hlt
    omega

theorem stop_le_stop {token next : Token} {p q : Nat}
    (h : (Stream.ofSource source).token? p = some token)
    (hnext : (Stream.ofSource source).token? q = some next) (hle : p ≤ q) :
    token.span.stop ≤ next.span.stop := by
  rcases Nat.eq_or_lt_of_le hle with rfl | hlt
  · cases h.symm.trans hnext
    exact Nat.le_refl _
  · have := (Stream.ofSource_cut hnext).lt
    have := Stream.ofSource_ordered h hnext hlt
    omega

theorem spells_token {token : Token} {p : Nat}
    (h : (Stream.ofSource source).token? p = some token) : source.Spells token.span token.text :=
  (Stream.ofSource_cut h).spells

/-- The text of several tokens reaches from the first of them to the last. -/
theorem spells_assemble {p q : Nat} (hlt : p < q) (hle : q ≤ (Stream.ofSource source).size) :
    source.Spells (assemble (Stream.ofSource source) p q).span
      (assemble (Stream.ofSource source) p q).raw := by
  obtain ⟨-, first, last, hfirst, hlast, hspan⟩ := Stream.covers_spanTo_spanAt hlt hle
  have hfirst' := Stream.ofSource_cut hfirst
  have hlast' := Stream.ofSource_cut hlast
  have hstart : (assemble (Stream.ofSource source) p q).span = first.span.to last.span.stop := hspan
  have horder := start_le_start hfirst hlast (by omega)
  have hnonempty := hlast'.lt
  refine Source.spells_slice ?_ ?_ ?_ <;> rw [hstart]
  · exact hfirst'.start
  · exact hlast'.stop
  · simp only [Span.to_start, Span.to_stop]
    omega

theorem upholds_verbatim :
    Upholds (Stream.ofSource source) fun node _ _ => node.Verbatim source where
  primary hprimary := by
    cases hprimary with
    | identifier htoken => exact spells_token htoken
    | literal htoken => exact spells_token htoken
    | _ => trivial
  step _ _ hstep := by
    cases hstep <;> trivial
  name hname := by
    obtain ⟨token, htoken, -, rfl, -⟩ := hname
    exact spells_token htoken
  text htext := by
    obtain ⟨hlt, hle, rfl⟩ := htext
    exact spells_assemble hlt hle
  key hkey := by
    cases hkey with
    | token htoken => exact fun _ => spells_token htoken
    | numbered htoken hnext htouches =>
      exact fun _ => (Stream.ofSource_cut htoken).spells_append (Stream.ofSource_cut hnext) htouches
    | released htoken hlt =>
      intro hup
      cases hup
  block _ _ _ := trivial
  command _ := trivial
  hotkey _ := trivial
  assignment _ := trivial
  comparison _ := trivial
  plain {node _ _} hplain := by
    unfold isPlain at hplain
    split at hplain
    all_goals trivial

/-! ## Nesting -/

variable {Q : Node → Nat → Nat → Prop} {nodes : List Node} {p q : Nat}

/-- Nodes written between two positions reach no further than the tokens there. -/
theorem WrittenInOrder.nested (h : WrittenInOrder (Stream.ofSource source) Q nodes p q)
    (hle : q ≤ (Stream.ofSource source).size) :
    ∀ node ∈ nodes, ((Stream.ofSource source).spanAt p).start ≤ node.span.start ∧
      node.span.stop ≤ ((Stream.ofSource source).spanAt (q - 1)).stop := by
  intro node hnode
  obtain ⟨a, b, hpa, hbq, hwritten⟩ := h.of_mem hnode
  obtain ⟨hab, first, last, hfirst, hlast, hspan⟩ := hwritten.covers
  have hp : p < (Stream.ofSource source).size := by omega
  have hq : q - 1 < (Stream.ofSource source).size := by omega
  obtain ⟨tokenP, htokenP⟩ := Stream.exists_token_of_lt hp
  obtain ⟨tokenQ, htokenQ⟩ := Stream.exists_token_of_lt hq
  rw [hspan, Stream.spanAt_eq htokenP, Stream.spanAt_eq htokenQ]
  exact ⟨start_le_start htokenP hfirst hpa, stop_le_stop hlast htokenQ (by omega)⟩

/-- Nodes one behind the other do not overlap. -/
theorem WrittenInOrder.pairwise (h : WrittenInOrder (Stream.ofSource source) Q nodes p q) :
    nodes.Pairwise fun node next => node.span.stop ≤ next.span.start := by
  induction nodes generalizing p with
  | nil => exact .nil
  | cons node nodes ih =>
    cases h with
    | @cons _ _ _ a b _ hle hnode hrest =>
      refine List.pairwise_cons.mpr ⟨fun next hnext => ?_, ih hrest⟩
      obtain ⟨a', b', hba, -, hwritten⟩ := hrest.of_mem hnext
      obtain ⟨hab, _, last, -, hlast, hspan⟩ := hnode.covers
      obtain ⟨-, first, _, hfirst, -, hspan'⟩ := hwritten.covers
      rw [hspan, hspan']
      exact Stream.ofSource_ordered hlast hfirst (by omega)

end Grammar

open Grammar

/-- Every node below a script is written by a run of tokens inside the run of its parent, behind
those of the children before it. Its span is that of the run, its text that of the source. -/
theorem parse_exact {script : Script} (h : parse source = .ok script) :
    WrittenInOrder (Stream.ofSource source) (fun node _ _ => node.Verbatim source)
      (Node.script script).children 0 (Stream.ofSource source).size ∧
    ∀ node, (Node.script script).Within node →
      (∀ child ∈ node.children, node.span.start ≤ child.span.start ∧
        child.span.stop ≤ node.span.stop) ∧
      node.children.Pairwise fun child next => child.span.stop ≤ next.span.start := by
  obtain ⟨hwritten, htiled⟩ := parse_written upholds_verbatim h
  refine ⟨hwritten, fun node hwithin => ?_⟩
  rcases hwritten.of_within hwithin with rfl | ⟨a, b, hnode⟩
  · refine ⟨fun child hchild => ?_, hwritten.pairwise⟩
    obtain ⟨-, -, -, hspan⟩ := parse_reads h
    have hsize : (Stream.ofSource source).size ≠ 0 := by
      obtain ⟨a, b, -, hle, hchild⟩ := hwritten.of_mem hchild
      have := hchild.lt
      omega
    have hnested := hwritten.nested (Nat.le_refl _) child hchild
    rw [show (Node.script script).span = script.span from rfl, hspan, scriptSpan_eq htiled,
      if_neg hsize]
    exact hnested
  · refine ⟨fun child hchild => ?_, hnode.children.pairwise⟩
    obtain ⟨-, first, last, hfirst, hlast, hspan⟩ := hnode.covers
    have hnested := hnode.children.nested hnode.le_size child hchild
    rw [Stream.spanAt_eq hfirst, Stream.spanAt_eq hlast] at hnested
    rw [hspan]
    exact hnested

/-- A hotkey with a command, and an expression behind it. -/
theorem parse_exact_hotkey :
    ∃ script, parse "^F1::send a b\nx := f(y).z".toList = .ok script ∧
      script.body.length = 2 ∧
      (Node.script script).children.Pairwise
        fun child next => child.span.stop ≤ next.span.start := by
  have hlength : (parse "^F1::send a b\nx := f(y).z".toList).toOption.map (·.body.length) =
      some 2 := by decide +kernel
  obtain ⟨script, h, hbody⟩ := exists_of_toOption_map hlength
  exact ⟨script, h, hbody, ((parse_exact h).2 _ .self).2⟩

end HotkeyScript
