import HotkeyScript.Proofs.Token.Lexed
import HotkeyScript.Text.Escape

/-!
# Characters that stand alone

Accents, commas, semicolons and percent signs are tokens by themselves: no number, no word and no
operator has one of them, so only a string or a comment joins them to other characters. There are no
strings on a line without quotes, and no comments behind its first token if an accent is in front of
every semicolon.

## Main definitions

* `Token.isSeparate` — a character that stands alone outside of strings and comments.
* `Token.Guarded` — a text with an accent in front of every semicolon.
-/

namespace HotkeyScript.Token

open Source (charBefore dropBytes)
open Text (accent)

variable {source : Source} {token : Token} {before : Option Char} {fresh : Bool} {c d : Char}
  {cs : List Char}

/-- The character stands alone outside of strings and comments. -/
def isSeparate (c : Char) : Bool :=
  c == accent || c == ',' || c == ';' || c == '%'

theorem isSeparate_cases (h : isSeparate c = true) : c = accent ∨ c = ',' ∨ c = ';' ∨ c = '%' := by
  simpa [isSeparate, or_assoc] using h

theorem isWordChar_of_isSeparate (h : isSeparate c = true) : isWordChar c = false := by
  rcases isSeparate_cases h with rfl | rfl | rfl | rfl <;> decide

theorem not_mem_operatorLength (h : isSeparate d = true) : d ∉ cs.take (operatorLength cs) := by
  have hall : (operators.all fun op => op.toList.all fun c => !isSeparate c) = true := by decide
  intro hd
  simpa [h] using of_mem_operatorLength hall hd

/-- Only strings and comments join a separate character to others. -/
theorem lexeme_of_isSeparate (h : isSeparate d = true)
    (hd : d ∈ cs.take (lexeme before fresh cs).2) :
    (lexeme before fresh cs).1 = .string ∨ (lexeme before fresh cs).1 = .comment ∨
      (lexeme before fresh cs).2 = 1 := by
  have hword := isWordChar_of_isSeparate h
  have hpoint : d ≠ '.' := by
    rintro rfl
    cases h
  unfold lexeme at hd ⊢
  split_ifs at hd ⊢ with hnumber hwordLength hcomment hoperator hstring
  · rcases of_mem_numberLength hd with hd | hd
    · exact absurd (hd.symm.trans hword) Bool.noConfusion
    · exact absurd hd hpoint
  · exact absurd ((of_mem_take_runLength hd).symm.trans hword) Bool.noConfusion
  · exact .inr (.inl rfl)
  · exact absurd hd (not_mem_operatorLength h)
  · exact .inl rfl
  · exact .inr (.inr rfl)

/-- A token with a separate character is that character, unless it is a string or a comment. -/
theorem Lexed.text_eq_singleton (h : Lexed source token) (hstring : token.kind ≠ .string)
    (hcomment : token.kind ≠ .comment) (hd : d ∈ token.text.toList)
    (hseparate : isSeparate d = true) : token.text.toList = [d] := by
  have htake := h.text_eq_take
  have hlength : token.text.toList.length = 1 := by
    rw [htake] at hd
    rcases lexeme_of_isSeparate hseparate hd with hkind | hkind | hlength
    · exact absurd (by rw [← hkind, h.lexeme]) hstring
    · exact absurd (by rw [← hkind, h.lexeme]) hcomment
    · rwa [h.lexeme] at hlength
  obtain ⟨e, he⟩ := List.length_eq_one_iff.mp hlength
  rw [he, List.mem_singleton] at hd
  rw [he, hd]

theorem dropBytes_sublist (offset : Nat) (source : Source) :
    (dropBytes offset source).Sublist source := by
  have hsuffix := List.sublist_append_right (Source.takeBytes offset source)
    (dropBytes offset source)
  rwa [Source.takeBytes_append_dropBytes] at hsuffix

/-- The text of a token is a part of the source. -/
theorem Lexed.mem_source (h : Lexed source token) (hd : d ∈ token.text.toList) : d ∈ source :=
  (dropBytes_sublist token.span.start source).subset (h.text.subset hd)

/-- A string takes two quotes. -/
theorem kind_ne_string_of_count (h : token ∈ tokenize source) (hquote : source.count '"' ≤ 1) :
    token.kind ≠ .string := by
  intro hkind
  obtain ⟨inside, htext⟩ := (scan_wellKinded false _ _ token h).string hkind
  have hdrop := (dropBytes_sublist token.span.start source).count_le '"'
  have hcount := (tokenize_lexed h).text.sublist.count_le '"'
  simp only [htext, List.count_cons_self, List.count_append, List.count_nil] at hcount
  omega

theorem kind_ne_string (h : token ∈ tokenize source) (hquote : '"' ∉ source) :
    token.kind ≠ .string :=
  kind_ne_string_of_count h (by rw [List.count_eq_zero.mpr hquote]; exact Nat.zero_le 1)

/-- An accent stands in front of every semicolon. -/
def Guarded (text : List Char) : Prop :=
  ∀ before after, text = before ++ ';' :: after → before.getLast? = some accent

theorem guarded_of_not_mem {text : List Char} (h : ';' ∉ text) : Guarded text := by
  rintro before after rfl
  exact absurd (by simp) h

theorem guarded_accent (c : Char) : Guarded [accent, c] := by
  intro before after h
  rcases before with _ | ⟨d, _ | ⟨e, before⟩⟩
  · exact absurd (List.cons.inj h).1 (by decide)
  · cases h
    rfl
  · simp at h

theorem Guarded.append {text text' : List Char} (h : Guarded text) (h' : Guarded text') :
    Guarded (text ++ text') := by
  intro before after hsplit
  rcases List.append_eq_append_iff.mp hsplit with ⟨more, rfl, hmore⟩ | ⟨more, rfl, hmore⟩
  · rw [List.getLast?_append, h' more after hmore, Option.some_or]
  · cases more with
    | nil => exact absurd (h' [] after hmore.symm) (by simp)
    | cons d more =>
      cases hmore
      exact h before more rfl

theorem Guarded.flatMap {α : Type} {f : α → List Char} (h : ∀ a, Guarded (f a)) (l : List α) :
    Guarded (l.flatMap f) := by
  induction l with
  | nil => exact guarded_of_not_mem (by simp)
  | cons a l ih => exact (h a).append ih

/-- No comment starts right behind an accent. -/
theorem Lexed.kind_ne_comment_of_guarded (h : Lexed source token) (hcut : Cut source token)
    (hopens : token.opensLine = false) (hguarded : Guarded source) : token.kind ≠ .comment := by
  intro hkind
  obtain ⟨hallowed, hhead⟩ := h.of_comment hkind
  obtain ⟨rest, htext⟩ := List.head?_eq_some_iff.mp hhead
  obtain ⟨before, hsplit, hbefore⟩ := hcut.start.dropBytes_append
  have hlast : before.getLast? = some accent := by
    refine hguarded before (rest ++ dropBytes token.span.stop source) ?_
    rw [← List.cons_append, ← htext, ← hcut.dropBytes_start]
    exact hsplit
  have hchar : charBefore source token.span.start = some accent := by
    rw [charBefore, hbefore, Source.takeBytes_of_append hsplit, hlast]
  rw [hchar, hopens] at hallowed
  exact absurd hallowed (by decide)

end HotkeyScript.Token
