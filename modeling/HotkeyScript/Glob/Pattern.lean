import HotkeyScript.Token.Lexeme

/-!
# Glob patterns

A pattern for paths: a question mark stands for any character, a star for any sequence of
characters, brackets for one of the characters or ranges inside, or for any other behind an
exclamation mark. Two stars, as a whole component of the path, stand for any number of directories.
Everything else stands for itself.

## Main definitions

* `Glob.Atom` — the parts of a pattern.
* `Glob.PatternError` — what may be wrong with one, and where.
* `Glob.atoms` — the parts of a pattern, read from its text.
* `Glob.Component` — the pattern of one component of a path, with `Glob.Component.accepts`.
* `Glob.compile` — the components of a pattern.
-/

namespace HotkeyScript.Glob

/-- A range of characters with both ends. -/
structure CharRange where
  low : Char
  high : Char
  deriving DecidableEq, Repr, Inhabited

/-- A part of a pattern. -/
inductive Atom where
  | char (c : Char)
  | anyChar
  | anySequence
  | anyDirectories
  | within (ranges : List CharRange)
  | except (ranges : List CharRange)
  deriving DecidableEq, Repr, Inhabited

/-! ## Errors -/

/-- What is wrong with a pattern. -/
inductive PatternError.Cause where
  /-- More than two stars in a row. -/
  | wildcards
  /-- Two stars that are not a whole component. -/
  | recursion
  /-- Brackets that are not closed or hold nothing. -/
  | range
  deriving DecidableEq, Repr, Inhabited

/-- The text that names what is wrong. -/
def PatternError.Cause.message : PatternError.Cause → String
  | .wildcards => "wildcards are either regular \x60*\x60 or recursive \x60**\x60"
  | .recursion => "recursive wildcards must form a single path component"
  | .range => "invalid range pattern"

/-- An error in a pattern, at a position that counts characters. -/
structure PatternError where
  position : Nat
  cause : PatternError.Cause
  deriving DecidableEq, Repr, Inhabited

/-- The text of an error. -/
def PatternError.message (error : PatternError) : String :=
  "Pattern syntax error near position " ++ toString error.position ++ ": " ++ error.cause.message

/-! ## Reading -/

/-- The ranges that the text in brackets writes; a character without a hyphen behind it is a range
of its own. -/
def ranges : List Char → List CharRange
  | low :: '-' :: high :: cs => ⟨low, high⟩ :: ranges cs
  | c :: cs => ⟨c, c⟩ :: ranges cs
  | [] => []

/-- The text up to the first closing bracket, and the text behind it. -/
def untilBracket? (cs : List Char) : Option (List Char × List Char) :=
  match cs.dropWhile (· != ']') with
  | [] => none
  | _ :: rest => some (cs.takeWhile (· != ']'), rest)

/-- The atom that brackets write, and the text behind them, from the text behind the opening
bracket. The first character inside is never the closing bracket. -/
def bracket? : List Char → Option (Atom × List Char)
  | '!' :: first :: cs =>
    (untilBracket? cs).map fun (inside, rest) => (.except (ranges (first :: inside)), rest)
  | first :: cs =>
    if first = '!' then none
    else (untilBracket? cs).map fun (inside, rest) => (.within (ranges (first :: inside)), rest)
  | [] => none

/-- The stars at the start of a text: the atom they write and the text behind, for a run that starts
at `position` behind the character `before`. -/
def stars (position : Nat) (before : Option Char) (cs : List Char) :
    Except PatternError (Atom × List Char) :=
  let count := Token.runLength (· == '*') cs
  let rest := cs.drop count
  if 2 < count then .error ⟨position + 2, .wildcards⟩
  else if count = 2 then
    if before.all (· == '/') then
      match rest with
      | [] => .ok (.anyDirectories, [])
      | c :: behind =>
        if c = '/' then .ok (.anyDirectories, behind) else .error ⟨position + 2, .recursion⟩
    else .error ⟨position - 1, .recursion⟩
  else .ok (.anySequence, rest)

/-- What is left behind the bracket is shorter. -/
theorem length_bracket?_le {cs rest : List Char} {atom : Atom}
    (h : bracket? cs = some (atom, rest)) : rest.length ≤ cs.length := by
  have close {cs inside rest : List Char} (h : untilBracket? cs = some (inside, rest)) :
      rest.length ≤ cs.length := by
    unfold untilBracket? at h
    split at h
    · simp at h
    · rename_i c tail heq
      have hlen : (c :: tail).length ≤ cs.length :=
        heq ▸ (List.dropWhile_sublist (fun c => c != ']')).length_le
      simp only [Option.some.injEq, Prod.mk.injEq] at h
      obtain ⟨-, rfl⟩ := h
      simp only [List.length_cons] at hlen
      omega
  unfold bracket? at h
  split at h
  · simp only [Option.map_eq_some_iff, Prod.mk.injEq] at h
    obtain ⟨⟨inside, tail⟩, hclose, -, rfl⟩ := h
    have := close hclose
    simp only [List.length_cons]
    omega
  · split at h
    · simp at h
    · simp only [Option.map_eq_some_iff, Prod.mk.injEq] at h
      obtain ⟨⟨inside, tail⟩, hclose, -, rfl⟩ := h
      have := close hclose
      simp only [List.length_cons]
      omega
  · simp at h

/-- What is left behind stars is shorter. -/
theorem length_stars_lt {position : Nat} {before : Option Char} {cs rest : List Char} {atom : Atom}
    (h : stars position before ('*' :: cs) = .ok (atom, rest)) :
    rest.length < (cs.length + 1) := by
  have hpos : 1 ≤ Token.runLength (· == '*') ('*' :: cs) := by
    simp [Token.runLength]
  simp only [stars] at h
  split at h
  · simp at h
  · split at h
    · split at h
      · split at h
        · simp only [Except.ok.injEq, Prod.mk.injEq] at h
          simp [← h.2]
        · rename_i c behind heq
          split at h
          · simp only [Except.ok.injEq, Prod.mk.injEq] at h
            have hlen := congrArg List.length heq
            simp only [List.length_drop, List.length_cons] at hlen
            rw [← h.2]
            omega
          · simp at h
      · simp at h
    · simp only [Except.ok.injEq, Prod.mk.injEq] at h
      rw [← h.2, List.length_drop, List.length_cons]
      omega

/-- The atoms of the text that starts at `position` behind the character `before`. -/
def atomsFrom (position : Nat) (before : Option Char) : List Char → Except PatternError (List Atom)
  | [] => .ok []
  | c :: cs =>
    if c = '?' then
      (atomsFrom (position + 1) (some c) cs).map (.anyChar :: ·)
    else if hc : c = '*' then
      match h : stars position before (c :: cs) with
      | .error error => .error error
      | .ok (atom, rest) =>
        have : rest.length < cs.length + 1 := length_stars_lt (hc ▸ h)
        let used := cs.length + 1 - rest.length
        let last := if used = 3 then '/' else '*'
        (atomsFrom (position + used) (some last) rest).map (atom :: ·)
    else if c = '[' then
      match h : bracket? cs with
      | none => .error ⟨position, .range⟩
      | some (atom, rest) =>
        have : rest.length ≤ cs.length := length_bracket?_le h
        (atomsFrom (position + (cs.length + 1 - rest.length)) (some ']') rest).map (atom :: ·)
    else
      (atomsFrom (position + 1) (some c) cs).map (.char c :: ·)
termination_by cs => cs.length

/-- The atoms of a pattern. -/
def atoms (text : List Char) : Except PatternError (List Atom) :=
  atomsFrom 0 none text

/-! ## Matching -/

/-- An atom for one character accepts it. -/
def Atom.acceptsChar (c : Char) : Atom → Bool
  | .char d => c == d
  | .anyChar => true
  | .within ranges => ranges.any fun range => range.low ≤ c && c ≤ range.high
  | .except ranges => !ranges.any fun range => range.low ≤ c && c ≤ range.high
  | .anySequence | .anyDirectories => false

/-- The only character that an atom stands for. -/
def Atom.char? : Atom → Option Char
  | .char c => some c
  | _ => none

/-- The atoms accept a name. -/
def accepts : List Atom → List Char → Bool
  | [], cs => cs.isEmpty
  | .anySequence :: rest, [] => accepts rest []
  | .anySequence :: rest, c :: cs => accepts rest (c :: cs) || accepts (.anySequence :: rest) cs
  | .anyDirectories :: rest, cs => accepts rest cs
  | _ :: _, [] => false
  | atom :: rest, c :: cs => atom.acceptsChar c && accepts rest cs
termination_by atoms cs => atoms.length + cs.length

/-! ## Components -/

/-- The pattern of one component of a path. -/
structure Component where
  atoms : List Atom
  deriving DecidableEq, Repr, Inhabited

namespace Component

/-- The component stands for any number of directories. -/
def isRecursive (component : Component) : Bool :=
  component.atoms.contains .anyDirectories

/-- The only name that a component without wildcards stands for. -/
def literal? (component : Component) : Option String :=
  (component.atoms.mapM Atom.char?).map String.ofList

/-- The component accepts a name. -/
def accepts (component : Component) (name : String) : Bool :=
  Glob.accepts component.atoms name.toList

/-- The component starts with a point. -/
def startsWithPoint (component : Component) : Bool :=
  component.atoms.head? == some (.char '.')

end Component

/-- A pattern for paths. -/
structure Pattern where
  /-- Paths start at the root and not at the current directory. -/
  absolute : Bool
  components : List Component
  /-- Only directories are meant. -/
  directoriesOnly : Bool
  deriving DecidableEq, Repr, Inhabited

/-- The parts of a text between slashes. -/
def splitSlashes : List Char → List (List Char)
  | [] => [[]]
  | c :: cs =>
    if c = '/' then [] :: splitSlashes cs
    else
      match splitSlashes cs with
      | [] => [[c]]
      | part :: parts => (c :: part) :: parts

/-- The parts of a text that slashes end. -/
def endedBySlashes (cs : List Char) : List (List Char) :=
  let parts := splitSlashes cs
  if parts.getLast? = some [] then parts.dropLast else parts

/-- The pattern that a text writes. The text has to be right as a whole and in each component. -/
def compile (text : List Char) : Except PatternError Pattern := do
  let _ ← atoms text
  let relative := text.dropWhile (· == '/')
  let parts := if relative.isEmpty then [[]] else endedBySlashes relative
  let components ← parts.mapM fun part => do return Component.mk (← atoms part)
  return {
    absolute := text.head? == some '/'
    components
    directoriesOnly := text.getLast? == some '/' }

end HotkeyScript.Glob
