import HotkeyScript.Text.Caseless

/-!
# Command-line arguments

The arguments are read from left to right. The option `--disable` takes a rule code, in the same
argument behind an equals sign or in the next one; `--version` and `--help` end the reading; every
other argument that starts with a hyphen and is not just a hyphen is refused, until two hyphens end
the options. All else are files.

## Main definitions

* `Cli.Request` — what the arguments ask for.
* `Cli.Request.ofArguments` — the request that arguments make.
-/

namespace HotkeyScript.Cli

/-- What the arguments ask for. -/
inductive Request where
  | version
  | help
  /-- The arguments are refused. -/
  | misuse
  /-- Lint the files and patterns without the disabled rules. -/
  | lint (files disabled : List String)
  deriving DecidableEq, Repr, Inhabited

namespace Request

/-- Adds a file in front, if there is something to lint. -/
def withFile (file : String) : Request → Request
  | .lint files disabled => .lint (file :: files) disabled
  | request => request

/-- Adds a disabled rule in front, if there is something to lint. -/
def withDisabled (code : String) : Request → Request
  | .lint files disabled => .lint files (code :: disabled)
  | request => request

/-- The argument is an option, and no value of one: it starts with a hyphen and has more. -/
def isOption (argument : String) : Bool :=
  match argument.toList with
  | '-' :: _ :: _ => true
  | _ => false

/-- The request of an argument that starts with one hyphen; its first letter decides. -/
def ofShort (letter : Char) : Request :=
  if letter = 'V' then .version else if letter = 'h' then .help else .misuse

/-- The value behind `--disable=`. -/
def disableValue? (argument : String) : Option String :=
  let start := "--disable=".toList
  if start.isPrefixOf argument.toList then some (String.ofList (argument.toList.drop start.length))
  else none

/-- The request that arguments make. -/
def ofArguments : List String → Request
  | [] => .lint [] []
  | "--" :: files => .lint files []
  | "--version" :: _ => .version
  | "--help" :: _ => .help
  | ["--disable"] => .misuse
  | "--disable" :: code :: arguments =>
    if isOption code then .misuse else (ofArguments arguments).withDisabled code
  | argument :: arguments =>
    match disableValue? argument with
    | some code => (ofArguments arguments).withDisabled code
    | none =>
      match argument.toList with
      | '-' :: letter :: _ => ofShort letter
      | _ => (ofArguments arguments).withFile argument

end Request

end HotkeyScript.Cli
