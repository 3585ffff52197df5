import HotkeyScript.Grammar.Outcome
import HotkeyScript.Keyword
import HotkeyScript.Number
import HotkeyScript.Tree.Expr

/-!
# The grammar of expressions

An expression is a primary expression that is extended to the right as long as something extends it:
a member, an index, a call, an operator, a condition, or an operand that is concatenated. A `Floor`
says how tightly an operator has to bind to extend it.

The rules take the parser of the expressions inside as an argument, `inner`. They call it only at
positions behind the one at which they start, so the tokens that are left bound how deep expressions
nest, and `expression` closes the circle with that bound.

## Main definitions

* `Grammar.primary` — an expression that starts with no operand.
* `Grammar.extend`, `Grammar.climb` — one step to the right, and as many as there are.
* `Grammar.list` — the elements of a list.
* `Grammar.expression` — an expression.
-/

namespace HotkeyScript.Grammar

/-- A parser of expressions: what may extend them, and where they start. -/
abbrev ExprParser := Floor → Nat → Checked (Option (Read Expr))

/-- The name that a token is. -/
def identifier (token : Token) : Identifier :=
  { name := token.text, span := token.span }

/-- The text of a string between its quotes. -/
def unquoted (text : List Char) : List Char :=
  (text.drop 1).dropLast

/-- The value of the literal at a position. A string that a continuation section carries on has the
joined text of the section. -/
def literalValue (stream : Stream) (token : Token) (position : Nat) :
    Except SyntaxError Value :=
  match token.kind with
  | .boolean =>
    .ok (.boolean (token.text.toList.head? == some 't' || token.text.toList.head? == some 'T'))
  | .string =>
    let text :=
      match (stream.section? position).bind (·.literal) with
      | some joined => joined.toList
      | none => unquoted token.text.toList
    .ok (.string (String.ofList (Text.unescape text)))
  | _ =>
    match Number.value? token.text.toList with
    | some value => .ok (.number value)
    | none => .error (.atToken token)

section Rules

variable (stream : Stream) (inner : ExprParser)

/-! ## Lists -/

/-- One place of a list: an expression, which a star behind it makes variadic, or nothing. -/
def slot (position : Nat) : Checked (Read (Option Expr)) := do
  match ← inner (.above Operator.comma) position with
  | none => .ok (none, position)
  | some (element, next) =>
    if stream.reads next "*" then
      .ok (some (.variadic element (stream.spanTo element.span (next + 1))), next + 1)
    else
      .ok (some element, next)

/-- The places of a list with commas between them; each comma uses up one of the bound. -/
def slotsWithin : Nat → Nat → Checked (Read (List (Option Expr)))
  | 0, position => .ok ([none], position)
  | bound + 1, position => do
    let (element, next) ← slot stream inner position
    if stream.reads next "," then
      let (elements, stop) ← slotsWithin bound (next + 1)
      .ok (element :: elements, stop)
    else
      .ok ([element], next)

/-- The elements of a list up to, and without, what closes it. A list with nothing in it has no
elements, not one that is empty. -/
def list (position : Nat) : Checked (Read (List (Option Expr))) := do
  match ← slotsWithin stream inner (stream.size - position + 1) position with
  | ([none], stop) => .ok ([], stop)
  | (elements, stop) => .ok (elements, stop)

/-! ## Primary expressions -/

/-- An expression in parentheses. -/
def group (position : Nat) : Checked (Read Expr) := do
  expect stream position "("
  let (expr, next) ← required (inner .any (position + 1)) (stream.errorAt (position + 1))
  expect stream next ")"
  .ok (.group expr (stream.spanTo (stream.spanAt position) (next + 1)), next + 1)

/-- An array in brackets. -/
def array (opening : Token) (position : Nat) : Checked (Read Expr) := do
  let (elements, next) ← list stream inner (position + 1)
  expect stream next "]"
  .ok (.array elements (stream.spanTo opening.span (next + 1)), next + 1)

/-- The properties of an object and its closing brace; each comma uses up one of the bound. -/
def propertiesWithin : Nat → Nat → Checked (Read (List Property))
  | 0, position => .error (stream.errorAt position)
  | bound + 1, position => do
    let (key, colon) ← required (inner .closed position) (stream.errorAt position)
    expect stream colon ":"
    let (value, next) ← required (inner (.above Operator.comma) (colon + 1))
      (stream.errorAt (colon + 1))
    let property := Property.mk key value (key.span.to value.span.stop)
    if stream.reads next "," then
      let (properties, stop) ← propertiesWithin bound (next + 1)
      .ok (property :: properties, stop)
    else if stream.reads next "\x7d" then
      .ok ([property], next + 1)
    else
      .error (stream.errorAt next)

/-- An object in braces. -/
def object (opening : Token) (position : Nat) : Checked (Read Expr) := do
  if stream.reads (position + 1) "\x7d" then
    .ok (.object [] (stream.spanTo opening.span (position + 2)), position + 2)
  else
    let (properties, stop) ← propertiesWithin stream inner (stream.size - position) (position + 1)
    .ok (.object properties (stream.spanTo opening.span stop), stop)

/-- An operator and the operand behind it. -/
def leadingOperator (token : Token) (position : Nat) : Checked (Option (Read Expr)) :=
  match Operator.leading? token.text with
  | none => absent
  | some precedence => do
    match ← inner (.above precedence) (position + 1) with
    | none => absent
    | some (argument, next) =>
      found (.unary token.text true argument (token.span.to argument.span.stop)) next

/-- An expression in brackets of any shape. A brace at the end of a line opens a block and no
object. -/
def bracketed (token : Token) (position : Nat) : Checked (Option (Read Expr)) :=
  if token.text == "(" then some <$> group stream inner position
  else if token.text == "[" then some <$> array stream inner token position
  else if token.text == "\x7b" && !stream.endsLine position then
    some <$> object stream inner token position
  else absent

/-- A literal. -/
def literal (token : Token) (position : Nat) : Checked (Option (Read Expr)) := do
  let value ← literalValue stream token position
  found (.literal { value, raw := token.text, span := token.span }) (position + 1)

/-- An expression that starts with no operand. -/
def primary (position : Nat) : Checked (Option (Read Expr)) :=
  match stream.token? position with
  | none => absent
  | some token =>
    match token.kind with
    | .word =>
      if Keyword.isClause token then absent
      else found (.identifier (identifier token)) (position + 1)
    | .number | .boolean | .string => literal stream token position
    | .symbol =>
      orTry (leadingOperator inner token position) fun _ => bracketed stream inner token position
    | .comment => absent

/-! ## Steps to the right -/

/-- A member behind a point: the point is not at the start of a line and touches the name. -/
def dotMember (left : Expr) (position : Nat) : Checked (Option (Read Expr)) :=
  match stream.token? (position + 1) with
  | none => absent
  | some name =>
    if stream.reads position "." && !stream.startsLine position && name.kind = .word &&
        stream.touchesPrevious (position + 1) then
      found (.member left (.identifier (identifier name)) false (left.span.to name.span.stop))
        (position + 2)
    else absent

/-- A member in brackets. -/
def indexMember (left : Expr) (position : Nat) : Checked (Option (Read Expr)) :=
  if stream.reads position "[" && !stream.startsLine position then do
    let (property, next) ← required (inner .any (position + 1)) (stream.errorAt (position + 1))
    expect stream next "]"
    found (.member left property true (stream.spanTo left.span (next + 1))) (next + 1)
  else absent

/-- A call: the parenthesis touches what is called. -/
def call (left : Expr) (position : Nat) : Checked (Option (Read Expr)) :=
  if stream.reads position "(" && stream.touchesPrevious position then do
    let (arguments, next) ← list stream inner (position + 1)
    expect stream next ")"
    found (.call left arguments (stream.spanTo left.span (next + 1))) (next + 1)
  else absent

/-- An operator and its right operand. -/
def binary (floor : Floor) (left : Expr) (position : Nat) : Checked (Option (Read Expr)) :=
  match stream.token? position with
  | none => absent
  | some token =>
    match Operator.binary? token.text with
    | none => absent
    | some precedence =>
      if floor.admitsBinary precedence then do
        match ← inner (.above precedence) (position + 1) with
        | none => absent
        | some (right, next) =>
          found (.binary token.text left right (left.span.to right.span.stop)) next
      else absent

/-- An operator behind its operand. -/
def trailingOperator (left : Expr) (position : Nat) : Checked (Option (Read Expr)) :=
  match stream.token? position with
  | none => absent
  | some token =>
    if (token.text == "++" || token.text == "--") && !stream.startsLine position then
      found (.unary token.text false left (left.span.to token.span.stop)) (position + 1)
    else absent

/-- The two branches of a condition. -/
def conditional (floor : Floor) (left : Expr) (position : Nat) : Checked (Option (Read Expr)) :=
  if stream.reads position "?" && floor.admits Operator.conditional then do
    let (consequent, colon) ← required (inner (.above Operator.comma) (position + 1))
      (stream.errorAt (position + 1))
    expect stream colon ":"
    let (alternate, next) ← required (inner (.above Operator.assignment) (colon + 1))
      (stream.errorAt (colon + 1))
    found (.conditional left consequent alternate (left.span.to alternate.span.stop)) next
  else absent

/-- An operand that is concatenated. -/
def concatenation (floor : Floor) (left : Expr) (position : Nat) : Checked (Option (Read Expr)) :=
  if floor.admits Operator.concatenation && !stream.startsLine position then do
    match ← inner (.above Operator.concatenation) position with
    | none => absent
    | some (right, next) => found (.concat left right (left.span.to right.span.stop)) next
  else absent

/-- One step to the right of an expression, on its logical line. -/
def extend (floor : Floor) (left : Expr) (position : Nat) : Checked (Option (Read Expr)) :=
  if stream.continues position then
    orTry (dotMember stream left position) fun _ =>
    orTry (indexMember stream inner left position) fun _ =>
    orTry (call stream inner left position) fun _ =>
    orTry (binary stream inner floor left position) fun _ =>
    orTry (trailingOperator stream left position) fun _ =>
    orTry (conditional stream inner floor left position) fun _ =>
    concatenation stream inner floor left position
  else absent

/-- Steps to the right as long as there are any, each of which reads a token at least. -/
def climbWithin (floor : Floor) : Nat → Expr → Nat → Checked (Read Expr)
  | 0, left, position => .ok (left, position)
  | bound + 1, left, position => do
    match ← extend stream inner floor left position with
    | none => .ok (left, position)
    | some (longer, next) => climbWithin floor bound longer next

/-- Steps to the right as long as there are any. -/
def climb (floor : Floor) (left : Expr) (position : Nat) : Checked (Read Expr) :=
  climbWithin stream inner floor (stream.size - position) left position

end Rules

/-- An expression, with a bound on how deep expressions nest. -/
def expressionWithin (stream : Stream) : Nat → ExprParser
  | 0, _, _ => absent
  | bound + 1, floor, position => do
    match ← primary stream (expressionWithin stream bound) position with
    | none => absent
    | some (left, next) =>
      some <$> climb stream (expressionWithin stream bound) floor left next

/-- An expression. Expressions inside start behind its first token, so they nest no deeper than
there are tokens left. -/
def expression (stream : Stream) : ExprParser := fun floor position =>
  expressionWithin stream (stream.size - position) floor position

end HotkeyScript.Grammar
