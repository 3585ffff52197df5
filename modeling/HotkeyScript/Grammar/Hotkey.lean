import HotkeyScript.Grammar.LegacyText
import HotkeyScript.HotstringOption
import HotkeyScript.KeyName
import HotkeyScript.Tree.Stmt

/-!
# Hotkeys and hotstrings

A hotkey is a trigger and a double colon, as in `^!c::`, and runs the statement on its line or the
lines below. The trigger is a run of modifiers and a key, or two keys with an ampersand between
them.

A hotstring is a trigger text between colons, as in `:*:btw::by the way`, with options between the
first two colons. What follows on its line replaces the text, or is a statement to run if the
options ask for that.

The parser of statements is an argument of the rules.

## Main definitions

* `Grammar.trigger` — the part of a hotkey before its double colon.
* `Grammar.hotkey` — a hotkey.
* `Grammar.hotstringHead` — the part of a hotstring before its second double colon.
* `Grammar.hotstring` — a hotstring.
-/

namespace HotkeyScript.Grammar

/-- A parser of statements. -/
abbrev StmtParser := Nat → Checked (Option (Read Stmt))

/-- The characters that modify a hotkey. -/
def modifierChars : List Char :=
  ['#', '!', '^', '+', '<', '>', '*', '~', '$']

/-- The token is made of modifiers. -/
def isModifier (token : Token) : Bool :=
  token.kind = .symbol && token.text.toList.all (modifierChars.contains ·)

/-- The key that a token names. -/
def keyOf (token : Token) : Key :=
  { name := token.text, up := false, span := token.span }

/-- The trigger of a hotkey. -/
structure Trigger where
  modifiers : String
  first : Option Key
  key : Key
  deriving DecidableEq, Repr, Inhabited

section Rules

variable (stream : Stream)

/-! ## Triggers -/

/-- A double colon stands at a position and carries on the line. -/
def closesTrigger (position : Nat) : Bool :=
  stream.continues position && stream.isDoubleColon position

/-- A key that is written as a number and a word behind it. -/
def numberedKey (position : Nat) : Option (Read Key) :=
  match stream.token? position, stream.token? (position + 1) with
  | some token, some next =>
    let name := token.text ++ next.text
    if token.kind = .number && token.touches next && KeyName.isValid name then
      some ({ name, up := false, span := token.span.to next.span.stop }, position + 2)
    else none
  | _, _ => none

/-- A key that is one token, and the word `up` behind it. -/
def namedKey (position : Nat) : Option (Read Key) :=
  match stream.token? position with
  | none => none
  | some token =>
    if KeyName.isValid token.text then
      let up := stream.continues (position + 1) &&
        (stream.token? (position + 1)).any fun next => next.kind = .word && next.is "up"
      let stop := if up then position + 2 else position + 1
      some ({ name := token.text, up, span := stream.spanTo token.span stop }, stop)
    else none

/-- A key. -/
def key (position : Nat) : Option (Read Key) :=
  (numberedKey stream position).or (namedKey stream position)

/-- A key, or two keys with an ampersand between them. -/
def combination (position : Nat) : Option (Read (Option Key × Key)) := do
  let (first, next) ← key stream position
  if stream.continuesWith next "&" then
    if stream.startsLine (next + 1) then none
    else
      let (second, stop) ← key stream (next + 1)
      return ((some first, second), stop)
  else
    return ((none, first), next)

/-- The position behind the modifiers that start at `position`, each touching the next. -/
def modifiersEnd (position : Nat) : Nat :=
  stream.skip (fun i =>
    (i == position || (!stream.startsLine i && stream.touchesPrevious i)) &&
      (stream.token? i).any isModifier) position

/-- The text of the tokens from `first` up to, and without, `stop`, without gaps. -/
def joinedText (first stop : Nat) : String :=
  String.ofList ((List.range' first (stop - first)).flatMap stream.textAt)

/-- The part of a hotkey before its double colon. If the double colon comes right behind the
modifiers, the last of them is the key. -/
def trigger (position : Nat) : Option (Read Trigger) :=
  let stop := modifiersEnd stream position
  let modified := stop != position
  match stream.token? stop with
  | none => none
  | some token =>
    let touches := !modified || stream.touchesPrevious stop
    if modified && stream.startsLine stop then none
    else if modified && closesTrigger stream stop then
      (stream.token? (stop - 1)).map fun last =>
        ({ modifiers := joinedText stream position (stop - 1), first := none, key := keyOf last },
          stop)
    else if closesTrigger stream (stop + 1) && token.text.length == 1 && touches then
      some ({ modifiers := joinedText stream position stop, first := none, key := keyOf token },
        stop + 1)
    else if touches then do
      let ((first, second), next) ← combination stream stop
      if closesTrigger stream next then
        return ({ modifiers := joinedText stream position stop, first, key := second }, next)
      else none
    else none

/-- A hotkey. Its action ends with the line. -/
def hotkey (statement : StmtParser) (position : Nat) : Checked (Option (Read Stmt)) :=
  match trigger stream position with
  | none => absent
  | some ({ modifiers, first, key }, colons) => do
    let start := colons + 2
    let (action, stop) ←
      if stream.startsLine start then .ok (none, start)
      else
        match ← statement start with
        | none => .ok (none, start)
        | some (action, next) => .ok (some action, next)
    if stream.startsLine stop then
      found (.hotkey modifiers first key action (stream.spanTo (stream.spanAt position) stop)) stop
    else .error (stream.errorAt stop)

/-! ## Hotstrings -/

/-- The position of the colon that ends the options: the first one behind `position`, with tokens
that touch each other up to it. -/
def optionsEnd? (position : Nat) : Option Nat :=
  let linked := fun i => !stream.startsLine i && stream.touchesPrevious i
  let stop := stream.skip (fun i => linked i && !stream.reads i ":") (position + 1)
  if linked stop && stream.reads stop ":" then some stop else none

/-- The position of the double colon that ends a trigger text. A token right behind an accent is
part of the text; `escaped` says that the token before the position is such an accent. -/
def triggerEndWithin? : Nat → Bool → Nat → Option Nat
  | 0, _, _ => none
  | bound + 1, escaped, position =>
    if stream.startsLine position then none
    else if escaped && stream.touchesPrevious position then
      triggerEndWithin? bound false (position + 1)
    else if stream.isDoubleColon position then some position
    else triggerEndWithin? bound (stream.reads position "\x60") (position + 1)

/-- The options and the trigger of a hotstring, up to its second double colon. -/
def hotstringHead (position : Nat) : Option (Read (List String × LegacyLiteral)) := do
  let close ← optionsEnd? stream position
  let options ← HotstringOption.split
    (Source.slice stream.source (stream.spanAt position).stop (stream.spanAt close).start)
  let first := close + 1
  let stop ← triggerEndWithin? stream (stream.size - first) false first
  if stop = first then none else return ((options, assemble stream first stop), stop)

/-- A hotstring. -/
def hotstring (statement : StmtParser) (position : Nat) : Checked (Option (Read Stmt)) :=
  match (if stream.reads position ":" then hotstringHead stream position else none) with
  | none => absent
  | some ((options, trigger), colons) => do
    let start := colons + 2
    let (action, replacement, stop) ←
      if !stream.continues start then .ok (none, none, start)
      else if options.any (Text.sameText · "x") then
        match ← statement start with
        | none => .ok (none, none, start)
        | some (action, next) => .ok (some action, none, next)
      else
        match legacyText? stream (fun _ => false) start with
        | none => .ok (none, none, start)
        | some (text, next) => .ok (none, some text, next)
    if stream.startsLine stop then
      found (.hotstring options trigger replacement action
        (stream.spanTo (stream.spanAt position) stop)) stop
    else .error (stream.errorAt stop)

end Rules

end HotkeyScript.Grammar
