import HotkeyScript.Proofs.Stream.OneLine
import HotkeyScript.Proofs.Token.Symbol

/-!
# Lines without strings and comments

On one line whose tokens are neither strings nor comments, the stream is the tokens of the lexer. So
the lexer can be followed through the stream: what it has read stands before a position, and the
tokens from the position on are what it goes on to read.

## Main definitions

* `Stream.Plain` — a source of one line without strings and comments.
* `Stream.Ahead` — the text that the tokens from a position on are read from, and `Stream.Flush`,
  where no blank stands in front of it.
-/

namespace HotkeyScript.Stream

open Source (byteLength)
open Text (isBlank lineBreaks)
open Token (tokenize scan Place isSeparate)

variable {source : Source} {before rest : List Char} {c d : Char} {i : Nat} {token : Token}

/-- The source is one line, and its tokens are neither strings nor comments. -/
structure Plain (source : Source) : Prop where
  oneLine : lineBreaks source = 0
  string : ∀ token ∈ tokenize source, token.kind ≠ .string
  comment : ∀ token ∈ tokenize source, token.kind ≠ .comment
  /-- No block comment starts the line. -/
  slash : ∀ first more, tokenize source = first :: more → opensBlockComment first more = false

/-- A line starts with a block comment only if it starts with a slash and has a star. -/
theorem opensBlockComment_of_head {first : Token} {more : List Token}
    (hfirst : ∃ c ∈ source.head?, isBlank c = false ∧ c ≠ Source.byteOrderMark ∧
      (c = '/' → '*' ∉ source))
    (htokens : tokenize source = first :: more) : opensBlockComment first more = false := by
  obtain ⟨c, hc, hblank, hmark, hstar⟩ := hfirst
  obtain ⟨cs, rfl⟩ := List.head?_eq_some_iff.mp hc
  have hbreak : Text.isLineBreak c = false := by
    rw [Bool.eq_false_iff]
    intro hbreak
    cases (Text.isBlank_of_isLineBreak hbreak).symm.trans hblank
  have hscan := Token.tokenize_eq_scan (b := c :: cs) (by simpa using hmark)
  rw [htokens, Token.scan_lexeme rfl hbreak hblank] at hscan
  obtain ⟨rfl, -⟩ := List.cons.inj hscan
  cases more with
  | nil => rfl
  | cons next more =>
    by_cases hslash : c = '/'
    · have hlexed := Token.tokenize_lexed (htokens ▸ (by simp : next ∈ _ :: next :: more))
      have hnext : next.text.toList.head? ≠ some '*' := fun hhead =>
        hstar hslash (hlexed.mem_source (List.mem_of_mem_head? hhead))
      simp [opensBlockComment, hnext]
    · refine opensBlockComment_of_ne (fun htext => hslash ?_) _
      have hpos := Token.lexeme_pos none true (c :: cs)
      have hhead := congrArg (·.toList.head?) htext
      simpa [Token.Place.token, List.head?_take, Nat.pos_iff_ne_zero.mp hpos] using hhead

/-- A line without semicolons and without two quotes has no strings and no comments. -/
theorem plain_of_chars (hline : Text.Unbroken source) (hquote : source.count '"' ≤ 1)
    (hsemicolon : ';' ∉ source)
    (hfirst : ∃ c ∈ source.head?, isBlank c = false ∧ c ≠ Source.byteOrderMark ∧
      (c = '/' → '*' ∉ source)) : Plain source where
  oneLine := Text.lineBreaks_eq_zero_iff.mpr hline
  string _ htoken := Token.kind_ne_string_of_count htoken hquote
  comment _ htoken hkind := hsemicolon
    ((Token.tokenize_lexed htoken).mem_source (List.mem_of_mem_head?
      ((Token.tokenize_lexed htoken).of_comment hkind).2))
  slash _ _ := opensBlockComment_of_head hfirst

namespace Plain

variable (h : Plain source)
include h

/-- The tokens of the stream are those of the lexer. -/
theorem token?_eq (i : Nat) : (ofSource source).token? i = (tokenize source)[i]? := by
  have hall : (tokenize source).filter (·.kind != .comment) = tokenize source :=
    List.filter_eq_self.mpr fun token htoken => by simp [h.comment token htoken]
  rw [token?_of_oneLine h.oneLine h.slash, hall]

theorem size_eq : (ofSource source).size = (tokenize source).length :=
  size_eq_length h.token?_eq

/-- No token lies in a continuation section. -/
theorem section?_eq (i : Nat) : (ofSource source).section? i = none := by
  obtain ⟨newer, hitems, -, hsection⟩ := @items_foldl_sort true none (tokenize source) {}
  rw [section?]
  cases hitem : (ofSource source).items[i]? with
  | none => rfl
  | some item =>
    have hmem := Array.mem_of_getElem? hitem
    simp only [ofSource, Draft.toStream, read_of_not_slash h.oneLine h.slash, hitems,
      List.append_nil, List.mem_toArray, List.mem_reverse] at hmem
    simp [hsection item hmem]

theorem mem (htoken : (ofSource source).token? i = some token) : token ∈ tokenize source := by
  rw [h.token?_eq] at htoken
  exact List.mem_of_getElem? htoken

theorem line (htoken : (ofSource source).token? i = some token) : token.span.line = 0 :=
  line_of_mem_tokenize h.oneLine (h.mem htoken)

/-- A separate character is a token by itself. -/
theorem text_eq (htoken : (ofSource source).token? i = some token) (hd : d ∈ token.text.toList)
    (hseparate : isSeparate d = true) : token.text.toList = [d] :=
  (Token.tokenize_lexed (h.mem htoken)).text_eq_singleton (h.string token (h.mem htoken))
    (h.comment token (h.mem htoken)) hd hseparate

/-- A token is one character, or none of its characters is separate. -/
theorem exists_text_eq (htoken : (ofSource source).token? i = some token) :
    ∃ first more, token.text.toList = first :: more ∧
      (more = [] ∨ ∀ d ∈ first :: more, isSeparate d = false) := by
  obtain ⟨first, more, htext, -⟩ := (Token.tokenize_lexed (h.mem htoken)).first
  refine ⟨first, more, htext, or_iff_not_imp_right.mpr fun hexists => ?_⟩
  simp only [not_forall, Bool.not_eq_false] at hexists
  obtain ⟨d, hd, hseparate⟩ := hexists
  have hsingle := h.text_eq htoken (htext ▸ hd) hseparate
  exact (List.cons.inj (htext.symm.trans hsingle)).2

end Plain

/-! ## Following the lexer -/

/-- The source is cut in two, and the tokens from the position on are those of the second part. -/
structure Ahead (source : Source) (before rest : List Char) (i : Nat) : Prop where
  split : source = before ++ rest
  le : i ≤ (ofSource source).size
  stop : (ofSource source).endBefore i ≤ byteLength before
  tokens : ∃ place : Place, place.Behind before ∧
    (tokenize source).drop i = scan false place rest

namespace Ahead

/-- A blank belongs to no token. -/
theorem blank (h : Ahead source before (c :: rest) i) (hbreak : Text.isLineBreak c = false)
    (hblank : isBlank c = true) : Ahead source (before ++ [c]) rest i := by
  obtain ⟨hsource, hle, hstop, place, hplace, htokens⟩ := h
  rw [Token.scan_blank hbreak hblank] at htokens
  refine ⟨by simpa using hsource, hle, ?_, place.afterBlank c, hplace.append rfl, htokens⟩
  rw [Source.byteLength_append]
  omega

/-- Behind the last token there is no text. -/
theorem eq_size (h : Ahead source before [] i) (plain : Plain source) :
    i = (ofSource source).size := by
  obtain ⟨-, hle, -, place, -, htokens⟩ := h
  rw [scan, List.drop_eq_nil_iff, ← plain.size_eq] at htokens
  exact Nat.le_antisymm hle htokens

/-- Any other character starts the token at the position, and the lexer goes on behind the token. -/
theorem next (h : Ahead source before (c :: rest) i) (plain : Plain source)
    (hblank : isBlank c = false) :
    ∃ token rest', (ofSource source).token? i = some token ∧
      token.span.start = byteLength before ∧ c :: rest = token.text.toList ++ rest' ∧
      (ofSource source).endBefore (i + 1) = byteLength (before ++ token.text.toList) ∧
      Ahead source (before ++ token.text.toList) rest' (i + 1) := by
  obtain ⟨hsource, hle, hstop, place, hplace, htokens⟩ := h
  have hbreak : Text.isLineBreak c = false := by
    rw [Bool.eq_false_iff]
    intro hbreak
    exact absurd ((Text.isBlank_of_isLineBreak hbreak).symm.trans hblank) Bool.noConfusion
  rw [Token.scan_lexeme rfl hbreak hblank] at htokens
  set text := (c :: rest).take (Token.lexeme place.before place.fresh (c :: rest)).2
  set kind := (Token.lexeme place.before place.fresh (c :: rest)).1
  set rest' := (c :: rest).drop (Token.lexeme place.before place.fresh (c :: rest)).2
  have hsplit : c :: rest = text ++ rest' := (List.take_append_drop _ _).symm
  have htoken : (ofSource source).token? i = some (place.token kind text) := by
    have hget := congrArg (·[0]?) htokens
    simpa [plain.token?_eq] using hget
  have htext : (place.token kind text).text.toList = text := String.toList_ofList
  have hend : (ofSource source).endBefore (i + 1) = byteLength (before ++ text) := by
    rw [endBefore_succ htoken, Source.byteLength_append, ← show place.offset = _ from hplace]
    rfl
  refine ⟨place.token kind text, rest', htoken, hplace, by rw [htext]; exact hsplit,
    by rw [htext]; exact hend, ?_⟩
  rw [htext]
  refine ⟨by rw [hsource, hsplit, List.append_assoc], lt_size_of_token? htoken,
    Nat.le_of_eq hend, place.afterToken text, hplace.append rfl, ?_⟩
  rw [← List.tail_drop, htokens, List.tail_cons]

/-- A token starts with the character at its place. -/
theorem reads_eq_false (h : Ahead source before (c :: rest) i) (plain : Plain source)
    (hblank : isBlank c = false) {text : String} (hc : text.toList.head? ≠ some c) :
    (ofSource source).reads i text = false := by
  obtain ⟨token, rest', htoken, -, hsplit, -⟩ := h.next plain hblank
  rw [reads, htoken, Option.any_some, beq_eq_false_iff_ne]
  rintro rfl
  obtain ⟨first, more, htext, -⟩ := plain.exists_text_eq htoken
  rw [htext, List.cons_append] at hsplit
  exact hc (by rw [htext, (List.cons.inj hsplit).1]; rfl)

/-- The last token ends where the text ends, unless the text ends with a blank. -/
theorem endBefore_size (h : Ahead source before rest i) (plain : Plain source)
    (hunbroken : Text.Unbroken rest) (hlast : ∀ c, rest.getLast? = some c → isBlank c = false)
    (hend : rest = [] → (ofSource source).endBefore i = byteLength before) :
    (ofSource source).endBefore (ofSource source).size = byteLength source := by
  -- a token may take several characters at once
  induction hn : rest.length using Nat.strongRecOn generalizing before rest i with
  | ind n ih =>
  cases rest with
  | nil => rw [← h.eq_size plain, hend rfl, h.split, List.append_nil]
  | cons c rest =>
    obtain ⟨hbreak, hunbroken'⟩ := List.forall_mem_cons.mp hunbroken
    by_cases hblank : isBlank c = true
    · have hne : rest ≠ [] := by
        rintro rfl
        cases hblank.symm.trans (hlast c rfl)
      refine ih rest.length (by rw [← hn]; exact Nat.lt_succ_self _) (h.blank hbreak hblank)
        hunbroken' (fun d hd => hlast d ?_) (fun hnil => absurd hnil hne) rfl
      rw [List.getLast?_cons, hd]
      rfl
    · obtain ⟨token, rest', htoken, -, hsplit, hstop, hahead⟩ :=
        h.next plain (by simpa using hblank)
      obtain ⟨first, more, htext, -⟩ := plain.exists_text_eq htoken
      rw [hsplit] at hunbroken hlast
      refine ih rest'.length ?_ hahead (fun d hd => hunbroken d (List.mem_append_right _ hd))
        (fun d hd => hlast d ?_) (fun _ => hstop) rfl
      · rw [← hn, hsplit, htext, List.length_append, List.length_cons]
        omega
      · rw [List.getLast?_append, hd]
        rfl

end Ahead

/-! ## Without blanks -/

/-- The lexer stands right behind the token before the position. -/
structure Flush (source : Source) (before rest : List Char) (i : Nat) : Prop extends
    Ahead source before rest i where
  flush : (ofSource source).endBefore i = byteLength before

theorem flush_start (hmark : source.head? ≠ some Source.byteOrderMark) :
    Flush source [] source 0 where
  split := rfl
  le := Nat.zero_le _
  stop := Nat.le_refl _
  tokens := ⟨{}, rfl, Token.tokenize_eq_scan hmark⟩
  flush := rfl

/-- What the lexer reads of the text is a token, which touches the one before it. -/
theorem Flush.next {text : List Char} (h : Flush source before (text ++ rest) i)
    (plain : Plain source) (hfirst : ∃ c ∈ text.head?, isBlank c = false)
    (hlexeme : ∀ before fresh, (Token.lexeme before fresh (text ++ rest)).2 = text.length) :
    ∃ token, (ofSource source).token? i = some token ∧ token.text.toList = text ∧
      (∃ before fresh, token.kind = (Token.lexeme before fresh (text ++ rest)).1) ∧
      (0 < i → (ofSource source).touchesPrevious i = true) ∧
      Flush source (before ++ text) rest (i + 1) := by
  obtain ⟨c, hc, hblank⟩ := hfirst
  obtain ⟨more, rfl⟩ := List.head?_eq_some_iff.mp hc
  obtain ⟨token, rest', htoken, hstart, hsplit, hend, hahead⟩ := h.toAhead.next plain hblank
  have hlexed := (Token.tokenize_lexed (plain.mem htoken)).lexeme
  rw [hstart, h.split, Source.dropBytes_byteLength_append] at hlexed
  have hlength : token.text.toList.length = (c :: more).length := by
    rw [← hlexeme _ _, hlexed]
  obtain ⟨htext, rfl⟩ := List.append_inj hsplit hlength.symm
  rw [← htext] at hend hahead
  refine ⟨token, htoken, htext.symm, ⟨_, _, (congrArg Prod.fst hlexed).symm⟩, fun hpos => ?_,
    hahead, hend⟩
  obtain ⟨i, rfl⟩ := Nat.exists_eq_add_one_of_ne_zero (Nat.pos_iff_ne_zero.mp hpos)
  obtain ⟨previous, hprevious⟩ := exists_token_of_lt (Nat.lt_of_succ_le h.le)
  have hstop := h.flush
  rw [endBefore_succ hprevious] at hstop
  simp [touchesPrevious, hprevious, htoken, Token.touches, hstop, hstart]

/-! ## Double colons -/

namespace Flush

/-- A colon is a token by itself unless an equals sign follows. -/
theorem colon (h : Flush source before (':' :: rest) i) (plain : Plain source)
    (hrest : rest.head? ≠ some '=') : (ofSource source).reads i ":" = true ∧
      (0 < i → (ofSource source).touchesPrevious i = true) ∧
      Flush source (before ++ [':']) rest (i + 1) := by
  obtain ⟨token, htoken, htext, -, htouches, hnext⟩ :=
    (show Flush source before ([':'] ++ rest) i from h).next plain ⟨':', rfl, by decide⟩
      fun before fresh => congrArg Prod.snd (Token.lexeme_colon hrest before fresh)
  exact ⟨reads_iff.mpr ⟨token, htoken, String.toList_injective htext⟩, htouches, hnext⟩

theorem isDoubleColon (h : Flush source before (':' :: ':' :: rest) i) (plain : Plain source)
    (hrest : rest.head? ≠ some '=') :
    (ofSource source).isDoubleColon i = true ∧
      Flush source (before ++ [':', ':']) rest (i + 2) := by
  obtain ⟨hfirst, -, hnext⟩ := h.colon plain (by simp)
  obtain ⟨hsecond, htouches, hend⟩ := hnext.colon plain hrest
  rw [List.append_assoc] at hend
  exact ⟨by simp [Stream.isDoubleColon, hfirst, hsecond, htouches (Nat.succ_pos i)], hend⟩

/-- An equals sign takes the second colon. -/
theorem isDoubleColon_eq_false (h : Flush source before (':' :: ':' :: '=' :: rest) i)
    (plain : Plain source) :
    (ofSource source).reads i ":" = true ∧ (ofSource source).isDoubleColon i = false := by
  obtain ⟨hfirst, -, hnext⟩ := h.colon plain (by simp)
  obtain ⟨token, htoken, htext, -⟩ :=
    (show Flush source _ ([':', '='] ++ rest) (i + 1) from hnext).next plain ⟨':', rfl, by decide⟩
      fun before fresh => congrArg Prod.snd (Token.lexeme_colonEquals before fresh rest)
  have hcolon : token.text ≠ ":" := by
    intro heq
    rw [heq] at htext
    cases htext
  exact ⟨hfirst, by simp [Stream.isDoubleColon, reads, htoken, hcolon]⟩

end Flush

end HotkeyScript.Stream
