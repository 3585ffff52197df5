import HotkeyScript.Tree.Expr

/-!
# Statements and scripts

The statements of a script. The body of a branch, a loop or a hotkey is a single statement, which
may be a block.

## Main definitions

* `Key` — a key of a hotkey.
* `Stmt`, `Block`, `CatchClause` — statements and their parts.
* `Comment`, `Script` — a whole script with its comments.
-/

namespace HotkeyScript

/-- What a loop runs over. -/
inductive LoopKind where
  | count
  | files
  | parse
  | read
  | reg
  deriving DecidableEq, Repr, Inhabited

/-- A key of a hotkey; `up` says that its release is meant. -/
structure Key where
  name : String
  up : Bool
  span : Span
  deriving DecidableEq, Repr, Inhabited

mutual

/-- A statement. -/
inductive Stmt where
  | expression (expr : Expr)
  /-- A command and its arguments; `hash` says that it is a directive. -/
  | command (name : Identifier) (hash : Bool) (arguments : List (Option Expr)) (span : Span)
  | block (braces : Block)
  | branch (test : Expr) (consequent : Stmt) (alternate : Option Stmt) (span : Span)
  | whileLoop (test : Expr) (body : Stmt) (span : Span)
  /-- A loop; after each round it ends if the condition `stop` holds. -/
  | loop (kind : LoopKind) (arguments : List (Option Expr)) (body : Stmt) (stop : Option Expr)
      (span : Span)
  | forLoop (key : Identifier) (value : Option Identifier) (iterable : Expr) (body : Stmt)
      (stop : Option Expr) (span : Span)
  | attempt (body : Stmt) (handler : Option CatchClause) (finalizer : Option Stmt) (span : Span)
  /-- A hotkey; `first` is the key that is held down, in a combination of two keys. -/
  | hotkey (modifiers : String) (first : Option Key) (key : Key) (action : Option Stmt)
      (span : Span)
  | hotstring (options : List String) (trigger : LegacyLiteral)
      (replacement : Option LegacyLiteral) (action : Option Stmt) (span : Span)
  | label (name : String) (span : Span)
  | function (name : Identifier) (params : List (Option Expr)) (body : Block) (span : Span)

/-- Statements in braces. -/
inductive Block where
  | mk (body : List Stmt) (span : Span)

/-- The clause of a `try` that runs after an exception. -/
inductive CatchClause where
  | mk (param : Option Identifier) (body : Stmt) (span : Span)

end

instance : Inhabited Stmt := ⟨.expression default⟩

instance : Inhabited Block := ⟨.mk [] default⟩

instance : Inhabited CatchClause := ⟨.mk none default default⟩

namespace Block

/-- The statements of a block. -/
def body : Block → List Stmt
  | .mk body _ => body

/-- Where a block stands. -/
def span : Block → Span
  | .mk _ span => span

end Block

namespace CatchClause

/-- The variable that takes the exception. -/
def param : CatchClause → Option Identifier
  | .mk param _ _ => param

/-- The statement of a clause. -/
def body : CatchClause → Stmt
  | .mk _ body _ => body

/-- Where a clause stands. -/
def span : CatchClause → Span
  | .mk _ _ span => span

end CatchClause

/-- Where a statement stands. -/
def Stmt.span : Stmt → Span
  | .expression expr => expr.span
  | .command _ _ _ span => span
  | .block braces => braces.span
  | .branch _ _ _ span => span
  | .whileLoop _ _ span => span
  | .loop _ _ _ _ span => span
  | .forLoop _ _ _ _ _ span => span
  | .attempt _ _ _ span => span
  | .hotkey _ _ _ _ span => span
  | .hotstring _ _ _ _ span => span
  | .label _ span => span
  | .function _ _ _ span => span

/-- A comment; `block` says that it is a block comment. -/
structure Comment where
  text : String
  block : Bool
  span : Span
  deriving DecidableEq, Repr, Inhabited

/-- A script. -/
structure Script where
  body : List Stmt
  comments : List Comment
  span : Span
  deriving Inhabited

end HotkeyScript
