import HotkeyScript.Grammar.Command
import HotkeyScript.Grammar.Hotkey

/-!
# Branches, loops and exceptions

The statements that start with a keyword. Each of them takes whole statements as its parts, so the
parser of statements is an argument of the rules; they call it behind the keyword. A clause such as
`else` belongs to the statement that ends right before it.

## Main definitions

* `Grammar.condition` — the condition of a branch or a loop.
* `Grammar.legacyComparison` — the older condition that compares a variable with text.
* `Grammar.ifStatement`, `Grammar.whileStatement`, `Grammar.loopStatement`, `Grammar.forStatement`,
  `Grammar.tryStatement` — the statements.
* `Grammar.flow` — whichever of them the keyword starts.
-/

namespace HotkeyScript.Grammar

section Rules

variable (stream : Stream) (statement : StmtParser)

/-- The keyword stands at a position. -/
def atKeyword (position : Nat) (keyword : Keyword) : Bool :=
  (stream.token? position).bind Keyword.ofToken? == some keyword

/-- The statement that has to come next. -/
def requiredStatement (position : Nat) : Checked (Read Stmt) :=
  required (statement position) (stream.errorAt position)

/-- The expression that has to come next. -/
def requiredExpression (position : Nat) : Checked (Read Expr) :=
  required (expression stream .any position) (stream.errorAt position)

/-- The expression that has to come next on the line. -/
def expressionOnLine (position : Nat) : Checked (Read Expr) :=
  if stream.continues position then requiredExpression stream position
  else .error (stream.errorAt position)

/-- A condition. One that starts in parentheses ends with them, unless an operator goes on. -/
def condition (position : Nat) : Checked (Read Expr) :=
  if stream.reads position "(" then do
    let (inside, next) ← group stream (expression stream) position
    if stream.continues next &&
        (stream.token? next).any (fun token => (Operator.binary? token.text).isSome) then
      climb stream (expression stream) .any inside next
    else
      .ok (inside, next)
  else expressionOnLine stream position

/-- The words of the older comparisons, longer ones before their own beginnings. -/
def comparisonWords : List (List String) :=
  [["is", "not"], ["not", "in"], ["not", "contains"], ["is"], ["in"], ["contains"]]

/-- A variable, the words of an older comparison, and the text that it is compared with. -/
def legacyComparison (position : Nat) : Checked (Option (Read Expr)) :=
  match stream.token? position with
  | none => absent
  | some name =>
    if name.kind = .word && stream.continues position then
      match comparisonWords.find? (stream.readsWords (position + 1)) with
      | none => absent
      | some words =>
        let start := position + 1 + words.length
        match legacyText? stream (fun _ => false) start with
        | none => .error (stream.errorAt start)
        | some (right, stop) =>
          found (.legacyComparison (" ".intercalate words) (identifier name) right
            (name.span.to right.span.stop)) stop
    else absent

/-- A statement behind a keyword, if the keyword comes next. -/
def clause (keyword : Keyword) (position : Nat) : Checked (Read (Option Stmt)) :=
  if atKeyword stream position keyword then do
    let (body, stop) ← requiredStatement stream statement (position + 1)
    .ok (some body, stop)
  else .ok (none, position)

/-- A branch. -/
def ifStatement (start : Span) (position : Nat) : Checked (Read Stmt) := do
  let (test, behind) ←
    match ← legacyComparison stream (position + 1) with
    | some read => .ok read
    | none => condition stream (position + 1)
  let (consequent, next) ← requiredStatement stream statement behind
  let (alternate, stop) ← clause stream statement .elseWord next
  .ok (.branch test consequent alternate (stream.spanTo start stop), stop)

/-- A loop with a condition in front. -/
def whileStatement (start : Span) (position : Nat) : Checked (Read Stmt) := do
  let (test, next) ← condition stream (position + 1)
  let (body, stop) ← requiredStatement stream statement next
  .ok (.whileLoop test body (stream.spanTo start stop), stop)

/-- What the loops run over that the words name. -/
def loopKinds : List (String × LoopKind) :=
  [("files", .files), ("parse", .parse), ("read", .read), ("reg", .reg)]

/-- The kind of loop that the word at a position names. -/
def loopKind? (position : Nat) : Option LoopKind :=
  if stream.continues position then
    (stream.token? position).bind fun token =>
      (loopKinds.find? fun entry => token.is entry.1).map (·.2)
  else none

/-- A brace that ends its line stands at a position. -/
def atBlockBrace (position : Nat) : Bool :=
  stream.reads position "\x7b" && stream.endsLine position

/-- The condition that ends a loop, if there is one. -/
def untilClause (position : Nat) : Checked (Read (Option Expr)) :=
  if atKeyword stream position .untilWord then do
    let (test, stop) ← expressionOnLine stream (position + 1)
    .ok (some test, stop)
  else .ok (none, position)

/-- A loop that runs for a number of times, or over files, parts, lines or registry entries. -/
def loopStatement (start : Span) (position : Nat) : Checked (Read Stmt) := do
  let word := skipComma stream (position + 1)
  let (kind, first) :=
    match loopKind? stream word with
    | some kind => (kind, skipComma stream (word + 1))
    | none => (.count, word)
  let (arguments, behind) ← params stream (atBlockBrace stream) first
  let (body, next) ← requiredStatement stream statement behind
  let (test, stop) ← untilClause stream next
  .ok (.loop kind arguments body test (stream.spanTo start stop), stop)

/-- The name that has to come next on the line. -/
def nameOnLine (position : Nat) : Checked (Read Identifier) :=
  match stream.token? position with
  | some token =>
    if token.kind = .word && stream.continues position then
      .ok (identifier token, position + 1)
    else .error (stream.errorAt position)
  | none => .error (stream.errorAt position)

/-- A loop over the entries of an object. -/
def forStatement (start : Span) (position : Nat) : Checked (Read Stmt) := do
  let (key, behind) ← nameOnLine stream (position + 1)
  let (value, word) ←
    if stream.continuesWith behind "," then do
      let (value, next) ← nameOnLine stream (behind + 1)
      .ok (some value, next)
    else .ok (none, behind)
  if stream.continues word && atKeyword stream word .inWord then
    let (iterable, first) ← expressionOnLine stream (word + 1)
    let (body, next) ← requiredStatement stream statement first
    let (test, stop) ← untilClause stream next
    .ok (.forLoop key value iterable body test (stream.spanTo start stop), stop)
  else .error (stream.errorAt word)

/-- The variable of a catch clause: a name that ends its line or has a brace behind it. -/
def catchParam (position : Nat) : Read (Option Identifier) :=
  match stream.token? position with
  | some token =>
    if token.kind = .word && stream.continues position &&
        (stream.endsLine position || stream.reads (position + 1) "\x7b") then
      (some (identifier token), position + 1)
    else (none, position)
  | none => (none, position)

/-- A catch clause, if one comes next. -/
def catchClause (position : Nat) : Checked (Read (Option CatchClause)) :=
  if atKeyword stream position .catchWord then do
    let (param, first) := catchParam stream (position + 1)
    let (body, stop) ← requiredStatement stream statement first
    .ok (some (.mk param body (stream.spanTo (stream.spanAt position) stop)), stop)
  else .ok (none, position)

/-- A statement whose exceptions are handled. -/
def tryStatement (start : Span) (position : Nat) : Checked (Read Stmt) := do
  let (body, behind) ← requiredStatement stream statement (position + 1)
  let (handler, next) ← catchClause stream statement behind
  let (finalizer, stop) ← clause stream statement .finallyWord next
  .ok (.attempt body handler finalizer (stream.spanTo start stop), stop)

/-- A statement that starts with a keyword. -/
def flow (position : Nat) : Checked (Option (Read Stmt)) :=
  let start := stream.spanAt position
  match (stream.token? position).bind Keyword.ofToken? with
  | some .ifWord => some <$> ifStatement stream statement start position
  | some .whileWord => some <$> whileStatement stream statement start position
  | some .loopWord => some <$> loopStatement stream statement start position
  | some .forWord => some <$> forStatement stream statement start position
  | some .tryWord => some <$> tryStatement stream statement start position
  | _ => absent

end Rules

end HotkeyScript.Grammar
