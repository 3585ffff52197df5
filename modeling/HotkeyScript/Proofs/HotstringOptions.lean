import HotkeyScript.HotstringOption
import HotkeyScript.Proofs.Text.Folding
import HotkeyScript.Proofs.Token.Order
import Mathlib.Data.List.Forall2

/-!
# Options of hotstrings, one by one

The options of a hotstring stand one behind the other without anything between them. They are split
by taking the first form that matches, again and again, and no choice is ever taken back. Nothing is
lost by that, for two reasons. No option of a later form starts with an option of an earlier one, so
the first match is the longest. And what makes an option longer, a digit or a hyphen, is not the
start of another, so the longest option is the only one that leaves options behind it. A text that
is made of options is therefore made of them in one way, and this way is found.

## Main definitions

* `HotstringOption.variants` — the characters that a character of a code can be written as.
* `HotstringOption.Form.Matches` — the texts of a form, from their start to their end.
* `HotstringOption.IsSplitting` — the options that a text is made of.
-/

namespace HotkeyScript.HotstringOption

open Text (fold fold_cases isDecimalDigit isDecimalDigit_fold stripStart?_eq_some_iff)

variable {c d : Char} {cs rest text option : List Char} {form : Form} {options : List String}

/-! ## Texts of forms -/

/-- The characters that are the same as a character of a code when case does not matter, those of
other scripts included. -/
def variants (k : Char) : List Char :=
  if k = 'S' then ['S', 's', '\u017f']
  else if k = 'K' then ['K', 'k', '\u212a']
  else [k, k.toLower]

/-- The code in any case and, exactly if the form has a number, decimal digits behind it. -/
def Form.Matches (form : Form) (text : List Char) : Prop :=
  ∃ code digits, text = code ++ digits ∧
    List.Forall₂ (fun c k => c ∈ variants k) code form.code.toList ∧
    (∀ d ∈ digits, isDecimalDigit d = true) ∧ (digits ≠ [] ↔ form.numbered = true)

/-- A text of one of the forms. -/
def IsOption (text : List Char) : Prop :=
  ∃ form ∈ forms, form.Matches text

/-- The text is made of the options, one behind the other. -/
structure IsSplitting (cs : List Char) (options : List String) : Prop where
  flatMap_eq : options.flatMap String.toList = cs
  isOption : ∀ option ∈ options, IsOption option.toList

/-! ## Case -/

/-- A character stands for the one that it folds to. -/
theorem mem_variants_fold : ∀ c, c ∈ variants (fold c) := by
  refine fold_cases (fun c hself => ?_) (by decide)
  rw [hself, variants]
  split_ifs with hs hk
  · simp [hs]
  · simp [hk]
  · simp

/-- A digit, or the hyphen of the one code that has one: what an option can go on with. -/
def continues (c : Char) : Bool :=
  isDecimalDigit c || c == '-'

@[simp] theorem continues_fold : ∀ c, continues (fold c) = continues c :=
  fold_cases (fun _ hself => congrArg continues hself) (by decide)

/-- A text spells a code if folding turns it into the code. -/
theorem forall₂_variants_iff (hform : form ∈ forms) :
    List.Forall₂ (fun c k => c ∈ variants k) text form.code.toList ↔
      text.map fold = form.code.toList := by
  have hcodes : ∀ form ∈ forms,
      form.code.toList.all (fun k => (variants k).all (fold · == k)) = true := by decide
  rw [← List.forall₂_eq_eq_eq, List.forall₂_map_left_iff]
  have hcode : ∀ k ∈ form.code.toList, ∀ c ∈ variants k, fold c = k := by
    simpa using hcodes form hform
  generalize form.code.toList = code at hcode
  constructor <;> intro h
  · induction h with
    | nil => exact .nil
    | cons hc _ ih =>
      exact .cons (hcode _ List.mem_cons_self _ hc)
        (ih fun k hk => hcode k (List.mem_cons_of_mem _ hk))
  · exact h.imp fun c k hfold => hfold ▸ mem_variants_fold c

/-- The texts of a form without regard to case. -/
theorem Form.matches_iff (hform : form ∈ forms) : form.Matches text ↔
    ∃ digits, text.map fold = form.code.toList ++ digits ∧
      (∀ d ∈ digits, isDecimalDigit d = true) ∧ (digits ≠ [] ↔ form.numbered = true) := by
  constructor
  · rintro ⟨code, digits, rfl, hcode, hdigits, hnumbered⟩
    refine ⟨digits.map fold, ?_, ?_, by simpa using hnumbered⟩
    · rw [List.map_append, (forall₂_variants_iff hform).mp hcode]
    · intro d hd
      obtain ⟨e, he, rfl⟩ := List.mem_map.mp hd
      rw [isDecimalDigit_fold, hdigits e he]
  · rintro ⟨digits, hmap, hdigits, hnumbered⟩
    obtain ⟨code, number, rfl, hcode, rfl⟩ := List.map_eq_append_iff.mp hmap
    refine ⟨code, number, rfl, (forall₂_variants_iff hform).mpr hcode, fun d hd => ?_,
      by simpa using hnumbered⟩
    rw [← isDecimalDigit_fold, hdigits _ (List.mem_map_of_mem hd)]

theorem IsOption.ne_nil (h : IsOption option) : option ≠ [] := by
  have hcodes : ∀ form ∈ forms, form.code.toList ≠ [] := by decide
  obtain ⟨form, hform, hmatches⟩ := h
  obtain ⟨digits, hmap, -⟩ := (Form.matches_iff hform).mp hmatches
  rintro rfl
  exact hcodes form hform (List.append_eq_nil_iff.mp hmap.symm).1

/-! ## The first match is the longest -/

/-- Behind the code a form takes the digits, if it has a number. -/
theorem Form.matchLength_append {code : List Char} (hcode : code.map fold = form.code.toList)
    (behind : List Char) : form.matchLength (code ++ behind) =
      if form.numbered = false then code.length
      else if behind.takeWhile isDecimalDigit = [] then 0
      else (code ++ behind.takeWhile isDecimalDigit).length := by
  have hstrip : Text.stripStart? form.code.toList (code ++ behind) = some behind :=
    stripStart?_eq_some_iff.mpr ⟨code, rfl, hcode⟩
  have hlength : form.code.length = code.length := by
    rw [← String.length_toList, ← hcode, List.length_map]
  rw [Form.matchLength, hstrip]
  cases form.numbered <;> simp [hlength, Token.runLength]

/-- What a form takes of a text is a text of the form. -/
theorem Form.exists_matches (hform : form ∈ forms) (h : form.matchLength cs ≠ 0) :
    ∃ text rest, cs = text ++ rest ∧ text.length = form.matchLength cs ∧ form.Matches text := by
  cases hstrip : Text.stripStart? form.code.toList cs with
  | none => simp [Form.matchLength, hstrip] at h
  | some behind =>
    obtain ⟨code, rfl, hcode⟩ := stripStart?_eq_some_iff.mp hstrip
    have hspelt := (forall₂_variants_iff hform).mpr hcode
    rw [Form.matchLength_append hcode] at h ⊢
    split_ifs at h ⊢ with hnumbered hdigits
    · exact ⟨code, behind, rfl, rfl, code, [], (List.append_nil _).symm, hspelt, by simp,
        by simp [hnumbered]⟩
    · exact absurd rfl h
    · refine ⟨code ++ behind.takeWhile isDecimalDigit, behind.dropWhile isDecimalDigit, ?_, rfl,
        code, _, rfl, hspelt, List.all_eq_true.mp List.all_takeWhile, ?_⟩
      · rw [List.append_assoc, List.takeWhile_append_dropWhile]
      · simpa [hdigits] using hnumbered

/-- A form takes at least any text of it that stands at the start. -/
theorem Form.Matches.length_le (hform : form ∈ forms) (h : form.Matches text) (rest : List Char) :
    text.length ≤ form.matchLength (text ++ rest) := by
  obtain ⟨code, digits, rfl, hspelt, hdigits, hnumbered⟩ := h
  rw [List.append_assoc, Form.matchLength_append ((forall₂_variants_iff hform).mp hspelt),
    List.takeWhile_append_of_pos hdigits]
  split_ifs with hplain hnone
  · have hempty : digits = [] := by simpa [hplain] using hnumbered
    simp [hempty]
  · exact absurd (List.append_eq_nil_iff.mp hnone).1 (hnumbered.mpr (by simpa using hplain))
  · simp only [List.length_append]
    omega

/-- No text of a later form starts with a text of an earlier one. -/
theorem forms_pairwise : forms.Pairwise fun form later =>
    ∀ text other, form.Matches text → later.Matches other → ¬text <+: other := by
  have hcodes : forms.Pairwise fun form later => ¬form.code.toList <+: later.code.toList ∧
      (later.numbered = true → form.code.toList.all (fun k =>
        !(isDecimalDigit k && (later.code.toList ++ [k]).isPrefixOf form.code.toList)) = true) := by
    decide
  refine hcodes.imp_of_mem fun {form later} hform hlater ⟨horder, hnumber⟩ text other htext hother
    hstarts => ?_
  obtain ⟨digits, hmap, -⟩ := (Form.matches_iff hform).mp htext
  obtain ⟨number, hmap', hdecimal, hnumbered⟩ := (Form.matches_iff hlater).mp hother
  have hcode : form.code.toList <+: later.code.toList ++ number := by
    rw [← hmap']
    exact (hmap ▸ List.prefix_append ..).trans (hstarts.map fold)
  -- one of the codes starts with the other, and the order of the forms says which one
  rcases List.prefix_or_prefix_of_prefix hcode (List.prefix_append ..) with hshort | hlong
  · exact horder hshort
  obtain ⟨more, hmore⟩ := hlong
  cases more with
  | nil => exact horder ⟨[], by simpa using hmore.symm⟩
  | cons k more =>
    rw [← hmore, List.prefix_append_right_inj] at hcode
    obtain ⟨others, rfl⟩ := hcode
    -- the later form has a number then, and the other code does not go on with a digit
    have hno := List.all_eq_true.mp (hnumber (hnumbered.mp (by simp))) k (hmore ▸ by simp)
    have hprefixed : (later.code.toList ++ [k]).isPrefixOf form.code.toList = true :=
      List.isPrefixOf_iff_prefix.mpr ⟨more, by simpa using hmore⟩
    rw [hdecimal k (by simp), hprefixed] at hno
    cases hno

/-- What is taken of a text is an option. -/
theorem exists_isOption_append (h : matchLength cs ≠ 0) :
    ∃ option rest, cs = option ++ rest ∧ option.length = matchLength cs ∧ IsOption option := by
  cases hfind : forms.find? (·.matchLength cs != 0) with
  | none => simp [matchLength, hfind] at h
  | some form =>
    have hlength : matchLength cs = form.matchLength cs := by simp only [matchLength, hfind]
    have hform := List.mem_of_find?_eq_some hfind
    obtain ⟨option, rest, hcs, hoption, hmatches⟩ := Form.exists_matches hform (hlength ▸ h)
    exact ⟨option, rest, hcs, hoption.trans hlength.symm, form, hform, hmatches⟩

/-- The first form that matches takes at least any option that stands at the start. -/
theorem IsOption.length_le (h : IsOption option) (rest : List Char) :
    option.length ≤ matchLength (option ++ rest) := by
  have hpos := List.length_pos_iff.mpr h.ne_nil
  obtain ⟨form, hform, hmatches⟩ := h
  have hle := hmatches.length_le hform rest
  have htaken : (form.matchLength (option ++ rest) != 0) = true := by
    rw [bne_iff_ne]
    omega
  cases hfind : forms.find? (·.matchLength (option ++ rest) != 0) with
  | none => exact absurd htaken (List.find?_eq_none.mp hfind form hform)
  | some first =>
    have hlength : matchLength (option ++ rest) = first.matchLength (option ++ rest) := by
      simp only [matchLength, hfind]
    rw [hlength]
    obtain ⟨hfirst, earlier, later, hsplit, hearlier⟩ := List.find?_eq_some_iff_append.mp hfind
    have hforms := forms_pairwise
    have hmem := hform
    rw [hsplit] at hmem hforms
    rcases List.mem_append.mp hmem with hmem | hmem
    · have hno := hearlier form hmem
      simp [htaken] at hno
    rcases List.mem_cons.mp hmem with rfl | hmem
    · exact hle
    -- a form behind the first match: its text does not start with what the first match takes
    obtain ⟨text, behind, hcs, htext, hmatches'⟩ :=
      Form.exists_matches (List.mem_of_find?_eq_some hfind) (bne_iff_ne.mp hfirst)
    have hapart := List.rel_of_pairwise_cons (List.pairwise_append.mp hforms).2.1 hmem
    have hstarts : text <+: option ++ rest := ⟨behind, hcs.symm⟩
    rcases List.prefix_or_prefix_of_prefix hstarts (List.prefix_append option rest) with
      hshort | hlong
    · exact absurd hshort (hapart text option hmatches' hmatches)
    · exact htext ▸ hlong.length_le

/-! ## The longest match leaves options behind it -/

/-- An option goes on behind another with a digit or a hyphen. -/
theorem IsOption.continues_of_append (h : IsOption option)
    (hlong : IsOption (option ++ d :: rest)) : continues d = true := by
  have hcodes : ∀ form ∈ forms, ∀ longer ∈ forms, form.code.toList <+: longer.code.toList →
      (longer.code.toList.drop form.code.toList.length).all continues = true := by decide
  obtain ⟨form, hform, hmatches⟩ := h
  obtain ⟨longer, hlonger, hmatches'⟩ := hlong
  obtain ⟨digits, hmap, -⟩ := (Form.matches_iff hform).mp hmatches
  obtain ⟨number, hmap', hdecimal, -⟩ := (Form.matches_iff hlonger).mp hmatches'
  have hdigit : ∀ k ∈ number, continues k = true := fun k hk => by simp [continues, hdecimal k hk]
  rw [List.map_append, hmap, List.map_cons, List.append_assoc] at hmap'
  rw [← continues_fold]
  rcases List.append_eq_append_iff.mp hmap' with ⟨more, hmore, hrest⟩ | ⟨more, -, hrest⟩
  · have hmem : fold d ∈ more ++ number := hrest ▸ by simp
    rcases List.mem_append.mp hmem with hmem | hmem
    · have hcode := hcodes form hform longer hlonger (hmore ▸ List.prefix_append ..)
      rw [hmore, List.drop_left] at hcode
      exact List.all_eq_true.mp hcode _ hmem
    · exact hdigit _ hmem
  · exact hdigit _ (hrest ▸ by simp)

/-- No option starts with a digit or a hyphen. -/
theorem IsOption.continues_head (h : IsOption (c :: text)) : continues c = false := by
  have hcodes : ∀ form ∈ forms, form.code.toList.head?.any (!continues ·) = true := by decide
  obtain ⟨form, hform, hmatches⟩ := h
  obtain ⟨digits, hmap, -⟩ := (Form.matches_iff hform).mp hmatches
  have hcode := hcodes form hform
  cases hchars : form.code.toList with
  | nil => simp [hchars] at hcode
  | cons k code =>
    rw [hchars, List.map_cons, List.cons_append] at hmap
    rw [← continues_fold, (List.cons.inj hmap).1]
    simpa [hchars] using hcode

/-- An option is taken as a whole and no more, unless a digit or a hyphen follows. -/
theorem IsOption.matchLength_append (h : IsOption option)
    (hrest : ∀ c ∈ rest.head?, continues c = false) :
    matchLength (option ++ rest) = option.length := by
  have hge := h.length_le rest
  have hpos := List.length_pos_iff.mpr h.ne_nil
  have htakes : matchLength (option ++ rest) ≠ 0 := by omega
  obtain ⟨taken, behind, hcs, hlength, htaken⟩ := exists_isOption_append htakes
  have hstarts : option <+: taken :=
    List.prefix_of_prefix_length_le (List.prefix_append ..) ⟨behind, hcs.symm⟩ (hlength ▸ hge)
  obtain ⟨more, rfl⟩ := hstarts
  cases more with
  | nil => simpa using hlength.symm
  | cons d more =>
    rw [List.append_assoc, List.append_cancel_left_eq] at hcs
    have hno := hrest d (by simp [hcs])
    cases hno.symm.trans (h.continues_of_append htaken)

/-! ## Splitting -/

theorem split_nil : split [] = some [] := by
  rw [split]
  rfl

theorem split_append (hlength : matchLength (option ++ rest) = option.length) (hne : option ≠ []) :
    split (option ++ rest) = (split rest).map (String.ofList option :: ·) := by
  rw [split]
  simp [hlength, hne]

/-- The options found are a splitting. -/
theorem isSplitting_of_split (h : split cs = some options) : IsSplitting cs options := by
  fun_induction split cs generalizing options
  case case1 cs hempty =>
    cases h
    exact ⟨(List.isEmpty_iff.mp hempty).symm, by simp⟩
  case case2 => cases h
  case case3 cs _ length hlength ih =>
    obtain ⟨others, hothers, rfl⟩ := Option.map_eq_some_iff.mp h
    have hrest := ih hothers
    have hpos : matchLength cs ≠ 0 := by simpa [length] using hlength
    obtain ⟨option, rest, hcs, hoption, hmatches⟩ := exists_isOption_append hpos
    have htake : cs.take length = option :=
      (congrArg (List.take length) hcs).trans (List.take_left' hoption)
    constructor
    · rw [List.flatMap_cons, String.toList_ofList, hrest.flatMap_eq, List.take_append_drop]
    · rw [List.forall_mem_cons, String.toList_ofList, htake]
      exact ⟨hmatches, hrest.isOption⟩

theorem IsSplitting.continues_head (h : IsSplitting cs options) :
    ∀ c ∈ cs.head?, continues c = false := by
  obtain ⟨rfl, hoptions⟩ := h
  cases options with
  | nil => simp
  | cons option options =>
    have hoption := hoptions option List.mem_cons_self
    cases hchars : option.toList with
    | nil => exact absurd hchars hoption.ne_nil
    | cons d more =>
      rw [hchars] at hoption
      intro c hc
      rw [List.flatMap_cons, hchars, List.cons_append, List.head?_cons, Option.mem_some] at hc
      exact hc ▸ hoption.continues_head

/-- Any splitting is the one that is found. -/
theorem IsSplitting.split_eq (h : IsSplitting cs options) : split cs = some options := by
  induction options generalizing cs with
  | nil => rw [← h.flatMap_eq, List.flatMap_nil, split_nil]
  | cons option options ih =>
    have hoption := h.isOption option List.mem_cons_self
    have hrest : IsSplitting (options.flatMap String.toList) options :=
      ⟨rfl, fun other hother => h.isOption other (List.mem_cons_of_mem _ hother)⟩
    rw [← h.flatMap_eq, List.flatMap_cons,
      split_append (hoption.matchLength_append hrest.continues_head) hoption.ne_nil, ih hrest,
      Option.map_some, String.ofList_toList]

/-- A text is split exactly if it is made of options, and then there is no other way to split it. -/
theorem split_exact (cs : List Char) :
    ((split cs).isSome = true ↔ ∃ options, IsSplitting cs options) ∧
      ∀ options, split cs = some options ↔
        IsSplitting cs options ∧ ∀ other, IsSplitting cs other → other = options := by
  constructor
  · rw [Option.isSome_iff_exists]
    exact ⟨fun ⟨options, h⟩ => ⟨options, isSplitting_of_split h⟩,
      fun ⟨options, h⟩ => ⟨options, h.split_eq⟩⟩
  · intro options
    refine ⟨fun h => ⟨isSplitting_of_split h, fun other hother => ?_⟩, fun h => h.1.split_eq⟩
    exact Option.some.inj (hother.split_eq.symm.trans h)

/-- Longer codes before shorter ones, numbers of more than one digit, and letters and digits of
other scripts. -/
example : split "*B0c1k-1K10p\u0663si\u017fE\u212a7oB".toList =
    some ["*", "B0", "c1", "k-1", "K10", "p\u0663", "si", "\u017fE", "\u212a7", "o", "B"] := by
  decide +kernel

end HotkeyScript.HotstringOption
