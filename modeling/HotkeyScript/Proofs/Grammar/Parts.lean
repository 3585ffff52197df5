import HotkeyScript.Proofs.Grammar.WrittenStatement

/-!
# The rules of statements in parts

The longer rules, each cut into parts that have a result of their own, so that a law about a rule is
put together from laws about its parts. What a part reads is said beside it.

## Main definitions

* `Grammar.ifTest`, `Grammar.loopHead`, `Grammar.secondName` — parts of statements with a keyword.
* `Grammar.action`, `Grammar.hotstringRest` — what follows a double colon.
* `Grammar.commandHead`, `Grammar.argumentsOnLine`, `Grammar.commandArguments` — the parts of a
  command.
-/

namespace HotkeyScript.Grammar

section Definitions

variable (stream : Stream) (statement : StmtParser)

/-- The condition of a branch, of the older kind or not. -/
def ifTest (p : Nat) : Checked (Read Expr) := do
  match ← legacyComparison stream p with
  | some read => .ok read
  | none => condition stream p

theorem ifStatement_eq (start : Span) (p : Nat) :
    ifStatement stream statement start p = (do
      let (test, behind) ← ifTest stream (p + 1)
      let (consequent, next) ← requiredStatement stream statement behind
      let (alternate, stop) ← clause stream statement .elseWord next
      .ok (.branch test consequent alternate (stream.spanTo start stop), stop)) := by
  simp only [ifStatement, ifTest, bind_assoc]
  refine bind_congr_ok fun comparison _ => ?_
  rcases comparison with _ | ⟨test, behind⟩ <;> rfl

/-- The kind of a loop, and where its first argument stands. -/
def loopHead (p : Nat) : LoopKind × Nat :=
  match loopKind? stream (skipComma stream (p + 1)) with
  | some kind => (kind, skipComma stream (skipComma stream (p + 1) + 1))
  | none => (.count, skipComma stream (p + 1))

theorem loopStatement_eq (start : Span) (p : Nat) :
    loopStatement stream statement start p = (do
      let (arguments, behind) ← params stream (atBlockBrace stream) (loopHead stream p).2
      let (body, next) ← requiredStatement stream statement behind
      let (test, stop) ← untilClause stream next
      .ok (.loop (loopHead stream p).1 arguments body test (stream.spanTo start stop), stop)) :=
  rfl

/-- The second name of a loop over entries, if there is one. -/
def secondName (p : Nat) : Checked (Read (Option Identifier)) :=
  if stream.continuesWith p "," then do
    let (value, next) ← nameOnLine stream (p + 1)
    .ok (some value, next)
  else .ok (none, p)

/-- What follows the names of a loop over entries. -/
def forRest (start : Span) (key : Identifier) (value : Option Identifier) (p : Nat) :
    Checked (Read Stmt) :=
  if stream.continues p && atKeyword stream p .inWord then do
    let (iterable, first) ← expressionOnLine stream (p + 1)
    let (body, next) ← requiredStatement stream statement first
    let (test, stop) ← untilClause stream next
    .ok (.forLoop key value iterable body test (stream.spanTo start stop), stop)
  else .error (stream.errorAt p)

theorem forStatement_eq (start : Span) (p : Nat) :
    forStatement stream statement start p = (do
      let (key, behind) ← nameOnLine stream (p + 1)
      let (value, word) ← secondName stream behind
      forRest stream statement start key value word) := by
  simp only [forStatement, secondName, forRest]
  refine bind_congr_ok ?_
  rintro ⟨key, behind⟩ -
  simp only
  split
  · simp only [bind_assoc, ok_bind]
  · rfl

/-- The statement that a trigger runs, if there is one. -/
def action (p : Nat) : Checked (Read (Option Stmt)) := do
  match ← statement p with
  | none => .ok (none, p)
  | some (s, next) => .ok (some s, next)

theorem hotkey_eq (p : Nat) :
    hotkey stream statement p =
      match trigger stream p with
      | none => absent
      | some (read, colons) => (do
        let (action, stop) ←
          if stream.startsLine (colons + 2) then .ok (none, colons + 2)
          else action statement (colons + 2)
        if stream.startsLine stop then
          found (.hotkey read.modifiers read.first read.key action
            (stream.spanTo (stream.spanAt p) stop)) stop
        else .error (stream.errorAt stop)) := by
  unfold hotkey
  split
  · next h => rw [h]
  · next modifiers first key colons h =>
    rw [h]
    simp only
    split
    · rfl
    · simp only [action, bind_assoc]
      refine bind_congr_ok fun outcome _ => ?_
      rcases outcome with _ | ⟨s, next⟩ <;> rfl

/-- What follows the second double colon of a hotstring: a statement, a text, or neither. -/
def hotstringRest (options : List String) (p : Nat) :
    Checked (Read (Option Stmt × Option LegacyLiteral)) :=
  if !stream.continues p then .ok ((none, none), p)
  else if options.any (Text.sameText · "x") then do
    let (s, stop) ← action statement p
    .ok ((s, none), stop)
  else
    match legacyText? stream (fun _ => false) p with
    | none => .ok ((none, none), p)
    | some (text, next) => .ok ((none, some text), next)

theorem hotstring_eq (p : Nat) :
    hotstring stream statement p =
      match (if stream.reads p ":" then hotstringHead stream p else none) with
      | none => absent
      | some ((options, trigger), colons) => (do
        let (rest, stop) ← hotstringRest stream statement options (colons + 2)
        if stream.startsLine stop then
          found (.hotstring options trigger rest.2 rest.1
            (stream.spanTo (stream.spanAt p) stop)) stop
        else .error (stream.errorAt stop)) := by
  unfold hotstring
  generalize (if stream.reads p ":" then hotstringHead stream p else none) = head
  rcases head with _ | ⟨⟨options, trigger⟩, colons⟩
  · rfl
  · simp only [hotstringRest]
    split
    · rfl
    · split
      · simp only [action, bind_assoc]
        refine bind_congr_ok fun outcome _ => ?_
        rcases outcome with _ | ⟨s, next⟩ <;> rfl
      · rcases legacyText? stream (fun _ => false) (colons + 2) with _ | ⟨text, next⟩ <;> rfl

/-- The position of the name of a command, behind a hash or not. -/
def commandHead (p : Nat) : Nat :=
  if isHash stream p then p + 1 else p

/-- The expressions that follow the name of a command on its line. -/
def argumentsOnLine (p : Nat) : Checked (Read (List (Option Expr))) :=
  if stream.continues p then list stream (expression stream) p else .ok ([], p)

theorem expressionArguments_eq (p : Nat) :
    expressionArguments stream p = (do
      let (arguments, next) ← argumentsOnLine stream p
      if stream.continues next then .error (stream.errorAt next) else .ok (arguments, next)) := by
  unfold expressionArguments argumentsOnLine
  split <;> rfl

/-- The arguments of a command, as the command takes them. -/
def commandArguments (name : Token) (p : Nat) : Checked (Read (List (Option Expr))) :=
  if expressionCommands.any (name.is ·) then expressionArguments stream p
  else params stream (fun _ => false) p

theorem command_eq (p : Nat) :
    command stream p =
      match stream.token? (commandHead stream p) with
      | none => absent
      | some name =>
        if name.kind = .word && !Keyword.isClause name &&
            startsCommand stream (commandHead stream p) then (do
          let (arguments, next) ←
            commandArguments stream name (skipComma stream (commandHead stream p + 1))
          found
            (.command (identifier name) (isHash stream p) arguments
              (stream.spanTo (stream.spanAt p) next)) next)
        else absent := by
  change (match stream.token? (commandHead stream p) with | none => _ | some name => _) = _
  cases stream.token? (commandHead stream p) with
  | none => rfl
  | some name =>
    simp only [commandHead, commandArguments]
    by_cases hname : expressionCommands.any (name.is ·) = true <;> simp only [hname] <;> rfl

end Definitions

/-- What a command is made of: its name, which a hash may stand before, and its arguments. -/
theorem exists_of_command {stream : Stream} {s : Stmt} {p q : Nat}
    (h : command stream p = .ok (some (s, q))) :
    ∃ name arguments, stream.token? (commandHead stream p) = some name ∧ name.kind = .word ∧
      commandArguments stream name (skipComma stream (commandHead stream p + 1)) =
        .ok (arguments, q) ∧
      s = .command (identifier name) (isHash stream p) arguments
        (stream.spanTo (stream.spanAt p) q) := by
  rw [command_eq] at h
  split at h
  · cases h
  · next name hname =>
    split at h
    · next hguard =>
      simp only [Bool.and_eq_true, decide_eq_true_eq] at hguard
      obtain ⟨⟨arguments, next⟩, harguments, h⟩ := bind_eq_ok.mp h
      cases h
      exact ⟨name, arguments, hname, hguard.1.1, harguments, rfl⟩
    · cases h

end HotkeyScript.Grammar
