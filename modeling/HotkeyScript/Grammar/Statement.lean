import HotkeyScript.Grammar.Flow

/-!
# The grammar of statements

The rules for statements are tried in a fixed order, and the first that applies decides. Statements
inside start behind the first token of the one around them, so the tokens that are left bound how
deep statements nest, and `statement` closes the circle with that bound.

## Main definitions

* `Grammar.label`, `Grammar.block`, `Grammar.expressionStatement` — the rules that are left.
* `Grammar.statementRules` — the rules in the order in which they are tried.
* `Grammar.statement` — a statement.
* `Grammar.body` — the statements of a block or a script.
-/

namespace HotkeyScript.Grammar

section Rules

variable (stream : Stream) (statement : StmtParser)

/-! ## Labels -/

/-- The tokens that are not part of a label. -/
def endsLabel (text : String) : Bool :=
  text == "," || text == "\x60" || text == ":"

/-- The position of the colon that ends a label: the tokens before it touch each other, and it ends
its line. -/
def labelEnd? (position : Nat) : Option Nat :=
  let linked := fun i => !stream.startsLine i && stream.touchesPrevious i
  let inLabel := fun i => (stream.token? i).any fun token => !endsLabel token.text
  if inLabel position then
    let stop := stream.skip (fun i => linked i && inLabel i) (position + 1)
    if !stream.startsLine stop && stream.reads stop ":" && stream.endsLine stop then some stop
    else none
  else none

/-- A label, alone on its line. -/
def label (position : Nat) : Checked (Option (Read Stmt)) :=
  match (if stream.startsLine position then labelEnd? stream position else none) with
  | none => absent
  | some colon =>
    let start := stream.spanAt position
    let name := Source.slice stream.source start.start (stream.spanAt colon).start
    found (.label (String.ofList name) (stream.spanTo start (colon + 1))) (colon + 1)

/-! ## Blocks -/

/-- Statements up to one that does not end its line, or to a token that starts none; each statement
uses up one of the bound. -/
def bodyWithin : Nat → Nat → Checked (Read (List Stmt))
  | 0, position => .ok ([], position)
  | bound + 1, position => do
    match ← statement position with
    | none => .ok ([], position)
    | some (first, next) =>
      if stream.startsLine next then
        let (rest, stop) ← bodyWithin bound next
        .ok (first :: rest, stop)
      else .ok ([first], next)

/-- The statements of a block or a script. -/
def body (position : Nat) : Checked (Read (List Stmt)) :=
  bodyWithin stream statement (stream.size - position) position

/-- Statements in braces. -/
def block (position : Nat) : Checked (Option (Read Block)) :=
  if stream.reads position "\x7b" then do
    let (statements, close) ← body stream statement (position + 1)
    expect stream close "\x7d"
    found (.mk statements (stream.spanTo (stream.spanAt position) (close + 1))) (close + 1)
  else absent

/-- Statements in braces, as a statement. -/
def blockStatement (position : Nat) : Checked (Option (Read Stmt)) := do
  match ← block stream statement position with
  | none => absent
  | some (braces, stop) => found (.block braces) stop

/-! ## Expressions -/

/-- An older assignment, whose right side is text and may be empty. -/
def legacyAssignment (position : Nat) : Option (Read Expr) :=
  match stream.token? position with
  | none => none
  | some name =>
    if name.kind = .word && stream.continuesWith (position + 1) "=" then
      let (right, stop) :=
        match legacyText? stream (fun _ => false) (position + 2) with
        | none => (none, position + 2)
        | some (text, next) => (some text, next)
      some (.legacyAssignment (identifier name) right (stream.spanTo name.span stop), stop)
    else none

/-- The name and the parameters that a call declares if a block follows it. -/
def declarationHead? : Expr → Option (Identifier × List (Option Expr))
  | .call (.identifier name) arguments _ => some (name, arguments)
  | _ => none

/-- An expression, or a function if the expression is a call at the start of a line and a block
follows. -/
def plainExpression (position : Nat) : Checked (Option (Read Stmt)) := do
  match ← expression stream .any position with
  | none => absent
  | some (expr, next) =>
    let declaration :=
      if stream.startsLine position && stream.reads next "\x7b" then declarationHead? expr else none
    match declaration with
    | none => found (.expression expr) next
    | some (name, params) =>
      let (braces, stop) ← required (block stream statement next) (stream.errorAt next)
      found (.function name params braces (name.span.to braces.span.stop)) stop

/-- An expression as a statement. -/
def expressionStatement (position : Nat) : Checked (Option (Read Stmt)) :=
  match legacyAssignment stream position with
  | some (assignment, stop) => found (.expression assignment) stop
  | none => plainExpression stream statement position

/-! ## The order of the rules -/

/-- The rules for statements in the order in which they are tried. -/
def statementRules (position : Nat) : Checked (Option (Read Stmt)) :=
  orTry (hotstring stream statement position) fun _ =>
  orTry (hotkey stream statement position) fun _ =>
  orTry (label stream position) fun _ =>
  orTry (blockStatement stream statement position) fun _ =>
  orTry (flow stream statement position) fun _ =>
  orTry (command stream position) fun _ =>
  expressionStatement stream statement position

end Rules

/-- A statement, with a bound on how deep statements nest. -/
def statementWithin (stream : Stream) : Nat → StmtParser
  | 0, _ => absent
  | bound + 1, position => statementRules stream (statementWithin stream bound) position

/-- A statement. Statements inside start behind its first token, so they nest no deeper than there
are tokens left. -/
def statement (stream : Stream) : StmtParser := fun position =>
  statementWithin stream (stream.size - position) position

end HotkeyScript.Grammar
