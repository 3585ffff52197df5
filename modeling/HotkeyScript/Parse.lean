import HotkeyScript.Grammar.Statement

/-!
# Parsing

A whole source as a script, or as a single expression.

## Main definitions

* `parse` — the script that a source writes.
* `parseExpression` — the expression that a source writes, if it holds any token of one.
-/

namespace HotkeyScript

/-- The comment that a token is. -/
def Comment.ofToken (token : Token) : Comment :=
  { text := token.text
    block := "/*".toList.isPrefixOf token.text.toList
    span := token.span }

/-- The span of a script: from its first statement to its last, or the whole source if there is
none. -/
def scriptSpan (source : Source) (body : List Stmt) : Span :=
  match body.head?, body.getLast? with
  | some first, some last => { start := first.span.start, stop := last.span.stop }
  | _, _ => { start := 0, stop := Source.byteLength source }

/-- The script that a source writes. -/
def parse (source : Source) : Except SyntaxError Script := do
  let stream := Stream.ofSource source
  let (body, stop) ← Grammar.body stream (Grammar.statement stream) 0
  if stop < stream.size then
    .error (stream.errorAt stop)
  else
    .ok
      { body
        comments := stream.comments.map Comment.ofToken
        span := scriptSpan source body }

/-- The expression that a source writes; none if it has no token. -/
def parseExpression (source : Source) : Except SyntaxError (Option Expr) := do
  let stream := Stream.ofSource source
  match ← Grammar.expression stream .any 0 with
  | none => if 0 < stream.size then .error (stream.errorAt 0) else .ok none
  | some (expr, stop) =>
    if stop < stream.size then .error (stream.errorAt stop) else .ok (some expr)

end HotkeyScript
