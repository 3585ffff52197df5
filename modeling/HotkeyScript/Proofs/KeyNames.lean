import HotkeyScript.Proofs.Grammar.Modifiers
import HotkeyScript.Proofs.Grammar.StatementEquation
import HotkeyScript.Proofs.Stream.Origin

/-!
# The keys of hotkeys

The name of a key is looked up before the key is taken, with one exception. If there is nothing but
modifiers in front of the double colon, then the last of them is the key, and its name is not looked
up. That would do no harm if every modifier were a character, since any character names a key. But
the lexer reads some modifiers two at a time, because they are operators elsewhere, and no key has
two characters for a name.
-/

namespace HotkeyScript

/-! ## Keys below a node -/

namespace Node

@[simp] theorem ofExpr_ne_key (e : Expr) (key : Key) : ofExpr e ≠ .key key := by
  cases e <;> exact Node.noConfusion

@[simp] theorem ofStmt_ne_key (s : Stmt) (key : Key) : ofStmt s ≠ .key key := by
  cases s with
  | expression e => exact ofExpr_ne_key e key
  | _ => exact Node.noConfusion

@[simp] theorem key_ne_ofExpr (key : Key) (e : Expr) : .key key ≠ ofExpr e :=
  (ofExpr_ne_key e key).symm

@[simp] theorem key_ne_ofStmt (key : Key) (s : Stmt) : .key key ≠ ofStmt s :=
  (ofStmt_ne_key s key).symm

@[simp] theorem key_notMem_ofSlots (key : Key) (slots : List (Option Expr)) :
    .key key ∉ ofSlots slots := by
  simp [ofSlots]

/-- Keys are parts of hotkeys only. -/
theorem exists_hotkey_of_mem_children {node : Node} {key : Key} (h : .key key ∈ node.children) :
    ∃ modifiers first second action span,
      node = .stmt (.hotkey modifiers first second action span) ∧
        (key ∈ first ∨ second = key) := by
  cases node with
  | stmt s =>
    cases s with
    | hotkey modifiers first second action span =>
      refine ⟨modifiers, first, second, action, span, rfl, ?_⟩
      simpa [children, stmtChildren, eq_comm (a := key)] using h
    | _ => simp [children, stmtChildren] at h
  | expr e => cases e <;> simp [children, exprChildren] at h
  | _ => simp [children] at h

end Node

namespace Grammar

variable {stream : Stream} {source : Source} {p q i : Nat}

/-! ## Names that are looked up -/

theorem isValid_of_key {k : Key} (h : key stream p = some (k, q)) :
    KeyName.isValid k.name = true := by
  rcases Option.or_eq_some_iff.mp h with h | ⟨-, h⟩
  · unfold numberedKey at h
    split at h
    · simp only at h
      split at h
      · next hguard =>
        simp only [Bool.and_eq_true] at hguard
        cases h
        exact hguard.2
      · cases h
    · cases h
  · unfold namedKey at h
    split at h
    · cases h
    · split at h
      · next hvalid =>
        cases h
        exact hvalid
      · cases h

theorem isValid_of_combination {first : Option Key} {second : Key}
    (h : combination stream p = some ((first, second), q)) :
    (∀ k ∈ first, KeyName.isValid k.name = true) ∧ KeyName.isValid second.name = true := by
  simp only [combination, Option.bind_eq_bind, Option.bind_eq_some_iff] at h
  obtain ⟨⟨front, next⟩, hfront, h⟩ := h
  simp only at h
  split at h
  · split at h
    · cases h
    · obtain ⟨⟨back, stop⟩, hback, h⟩ := Option.bind_eq_some_iff.mp h
      cases h
      exact ⟨by simpa using isValid_of_key hfront, isValid_of_key hback⟩
  · cases h
    exact ⟨by simp, isValid_of_key hfront⟩

/-! ## Modifiers -/

/-- The tokens up to the end of the modifiers are modifiers. -/
theorem exists_isModifier (hle : p ≤ i) (hlt : i < modifiersEnd stream p) :
    ∃ token, stream.token? i = some token ∧ isModifier token = true := by
  have hholds := stream.holds_of_lt_skip hle hlt
  exact (Option.any_eq_true _ _).mp (Bool.and_eq_true_iff.mp hholds).2

theorem mem_modifierChars_of_joinedText (hle : q ≤ modifiersEnd stream p) :
    ∀ c ∈ (joinedText stream p q).toList, c ∈ modifierChars := by
  intro c hc
  simp only [joinedText, String.toList_ofList, List.mem_flatMap, List.mem_range'_1] at hc
  obtain ⟨i, hi, hc⟩ := hc
  obtain ⟨token, htoken, hmodifier⟩ := exists_isModifier hi.1
    (show i < modifiersEnd stream p by omega)
  simp only [Stream.textAt, htoken, Option.map_some, Option.getD_some] at hc
  exact (isModifier_iff.mp hmodifier).2 c hc

/-- What is known of the names in a trigger. The key is a modifier if it was not looked up. -/
theorem names_of_trigger {read : Trigger} {colons : Nat}
    (h : trigger stream p = some (read, colons)) :
    (∀ c ∈ read.modifiers.toList, c ∈ modifierChars) ∧
      (∀ k ∈ read.first, KeyName.isValid k.name = true) ∧
      (KeyName.isValid read.key.name = true ∨ read.first = none ∧
        ∃ i token, stream.token? i = some token ∧ isModifier token = true ∧
          read.key = keyOf token) := by
  have hstop : p ≤ modifiersEnd stream p := stream.le_skip _ p
  simp only [trigger] at h
  split at h
  · cases h
  · split at h
    · cases h
    · split at h
      · next hguard =>
        simp only [Bool.and_eq_true, bne_iff_ne, ne_eq] at hguard
        obtain ⟨last, hlast, h⟩ := Option.map_eq_some_iff.mp h
        obtain ⟨token, htoken, hmodifier⟩ :=
          exists_isModifier (show p ≤ modifiersEnd stream p - 1 by omega)
            (show modifiersEnd stream p - 1 < modifiersEnd stream p by omega)
        cases h
        cases hlast.symm.trans htoken
        exact ⟨mem_modifierChars_of_joinedText (by omega), by simp,
          .inr ⟨rfl, _, last, hlast, hmodifier, rfl⟩⟩
      · split at h
        · next hguard =>
          simp only [Bool.and_eq_true, beq_iff_eq] at hguard
          cases h
          exact ⟨mem_modifierChars_of_joinedText (Nat.le_refl _), by simp,
            .inl (by simp [KeyName.isValid, keyOf, hguard.1.2])⟩
        · split at h
          · simp only [Option.bind_eq_bind, Option.bind_eq_some_iff] at h
            obtain ⟨⟨⟨first, second⟩, next⟩, hcombination, h⟩ := h
            simp only at h
            split at h
            · cases h
              obtain ⟨hfirst, hsecond⟩ := isValid_of_combination hcombination
              exact ⟨mem_modifierChars_of_joinedText (Nat.le_refl _), hfirst, .inl hsecond⟩
            · cases h
          · cases h

theorem isValid_of_mem_modifierPairs {name : String} (h : name ∈ modifierPairs) :
    KeyName.isValid name = false := by
  have hall : ∀ name ∈ modifierPairs, KeyName.isValid name = false := by decide +kernel
  exact hall name h

/-! ## Hotkeys -/

/-- What the parser makes sure of in a hotkey. -/
structure Named (modifiers : String) (first : Option Key) (second : Key) : Prop where
  modifier : ∀ c ∈ modifiers.toList, c ∈ modifierChars
  before : ∀ key ∈ first, KeyName.isValid key.name = true
  pressed : KeyName.isValid second.name = true ∨
    second.name ∈ modifierPairs ∧ first = none ∧ second.up = false

theorem named_of_trigger {modifiers : String} {first : Option Key} {second : Key} {colons : Nat}
    (h : trigger (Stream.ofSource source) p =
      some ({ modifiers, first, key := second }, colons)) : Named modifiers first second := by
  obtain ⟨hmodifiers, hfirst, hkey⟩ := names_of_trigger h
  refine ⟨hmodifiers, hfirst, ?_⟩
  rcases hkey with hvalid | ⟨hnone, i, token, htoken, hmodifier, hkey⟩
  · exact .inl hvalid
  · have hkind : token.kind = .symbol := by
      simp only [isModifier, Bool.and_eq_true, decide_eq_true_eq] at hmodifier
      exact hmodifier.1
    have hlexed := Stream.lexed_of_token? htoken (by simp [hkind])
    rw [show second = keyOf token from hkey]
    rcases text_of_isModifier hlexed hmodifier with hlength | hpair
    · exact .inl (by simp [KeyName.isValid, keyOf, hlength])
    · exact .inr ⟨hpair, hnone, rfl⟩

/-- What a hotkey has to satisfy; other nodes are free. -/
def NamedNode : Node → Prop
  | .stmt (.hotkey modifiers first key _ _) => Named modifiers first key
  | _ => True

theorem namedNode_ofExpr (e : Expr) : NamedNode (Node.ofExpr e) := by
  cases e <;> trivial

theorem upholds_named : Upholds (Stream.ofSource source) fun node _ _ => NamedNode node where
  primary _ := namedNode_ofExpr _
  step _ _ _ := namedNode_ofExpr _
  name _ := trivial
  text _ := trivial
  key _ := trivial
  block _ _ _ := trivial
  command _ := trivial
  hotkey htrigger := named_of_trigger htrigger
  assignment _ := trivial
  comparison _ := trivial
  plain {node _ _} hplain := by
    cases node with
    | stmt s => cases s <;> trivial
    | expr e => cases e <;> trivial
    | _ => trivial

end Grammar

open Grammar

variable {source : Source} {script : Script}

theorem named_of_within (h : parse source = .ok script) {modifiers : String} {first : Option Key}
    {key : Key} {action : Option Stmt} {span : Span}
    (hwithin : (Node.script script).Within (.stmt (.hotkey modifiers first key action span))) :
    Named modifiers first key := by
  obtain ⟨hwritten, -⟩ := parse_written upholds_named h
  rcases hwritten.of_within hwithin with hroot | ⟨p, q, hnode⟩
  · cases hroot
  · exact hnode.holds

/-- In a parsed source the modifiers of a hotkey are made of modifier characters, and its keys have
valid names, unless the key is a pair of modifiers that is one token. Then it is the only key of the
hotkey and stands for the pressed key, and its name is never valid. -/
theorem parse_keyNames (h : parse source = .ok script) :
    (∀ key, (Node.script script).Within (.key key) →
      (KeyName.isValid key.name = true ↔ key.name ∉ modifierPairs)) ∧
    ∀ modifiers first key action span,
      (Node.script script).Within (.stmt (.hotkey modifiers first key action span)) →
        (∀ c ∈ modifiers.toList, c ∈ modifierChars) ∧
        (∀ other ∈ first, KeyName.isValid other.name = true) ∧
        (key.name ∈ modifierPairs → first = none ∧ key.up = false) := by
  constructor
  · intro key hwithin
    constructor
    · intro hvalid hpair
      cases hvalid.symm.trans (isValid_of_mem_modifierPairs hpair)
    · intro hpair
      cases hwithin with
      | child hparent hmem =>
        obtain ⟨modifiers, first, second, action, span, rfl, hkey⟩ :=
          Node.exists_hotkey_of_mem_children hmem
        have hnamed := named_of_within h hparent
        rcases hkey with hkey | rfl
        · exact hnamed.before key hkey
        · exact hnamed.pressed.resolve_right fun hname => hpair hname.1
  · intro modifiers first key action span hwithin
    have hnamed := named_of_within h hwithin
    refine ⟨hnamed.modifier, hnamed.before, fun hpair => ?_⟩
    rcases hnamed.pressed with hvalid | hkey
    · cases hvalid.symm.trans (isValid_of_mem_modifierPairs hpair)
    · exact hkey.2

/-- Two keys of a hotkey that runs a branch, and a hotkey inside of the branch. -/
theorem parse_keyNames_nested :
    ∃ script, parse "~a & 2Joy1::if x\n\x7b\n<^>!++::y\n\x7d".toList = .ok script ∧
      script.body.length = 1 ∧
      ∀ key, (Node.script script).Within (.key key) →
        (KeyName.isValid key.name = true ↔ key.name ∉ modifierPairs) := by
  have hlength : (parse "~a & 2Joy1::if x\n\x7b\n<^>!++::y\n\x7d".toList).toOption.map
      (·.body.length) = some 1 := by decide +kernel
  obtain ⟨script, h, hbody⟩ := exists_of_toOption_map hlength
  exact ⟨script, h, hbody, (parse_keyNames h).1⟩

/-- The key that a hotkey is pressed with. -/
def Stmt.pressed? : Stmt → Option Key
  | .hotkey _ _ key _ _ => some key
  | _ => none

/-- Two plus signs are one modifier, and become the key. -/
theorem parse_keyNames_plus :
    ∃ script key, parse "++::".toList = .ok script ∧ (Node.script script).Within (.key key) ∧
      key.name = "++" ∧ KeyName.isValid key.name = false := by
  have hpressed : (parse "++::".toList).toOption.map (·.body.map Stmt.pressed?) =
      some [some { name := "++", up := false, span := { stop := 2 } }] := by decide +kernel
  obtain ⟨script, h, hbody⟩ := exists_of_toOption_map hpressed
  obtain ⟨s, hs, hkey⟩ := List.map_eq_singleton_iff.mp hbody
  cases s with
  | hotkey modifiers first key action span =>
    cases hkey
    have hstmt : (Node.script script).Within (.stmt (.hotkey modifiers first
        { name := "++", up := false, span := { stop := 2 } } action span)) :=
      .child .self (by simp [Node.children, hs, Node.ofStmt])
    exact ⟨script, _, h, .child hstmt (List.mem_append_right _ List.mem_cons_self), rfl,
      by decide +kernel⟩
  | _ => cases hkey

end HotkeyScript
