import ScriptMachine.Machine.State

/-! # Command-line arguments

A command is named by the first argument; its options and the path may stand in
any order behind it. A single argument that names no command is the path of a
file to run. -/

namespace ScriptMachine

/-- Options and path of a command, as far as they have been read. -/
structure Options where
  path : Option String := none
  json : Bool := false
  maxFrames : Option Nat := none
  stress : Bool := false
  deriving DecidableEq, Repr, Inhabited

inductive Command where
  | run (path : String) (json : Bool) (maxFrames : Option Nat) (stress : Bool)
  | check (path : String) (json : Bool)
  | disasm (path : String)
  deriving DecidableEq, Repr, Inhabited

/-- The commands by name. -/
inductive CommandName where
  | run | check | disasm
  deriving DecidableEq, Repr, Inhabited

namespace CommandName

def text : CommandName → String
  | .run => "run"
  | .check => "check"
  | .disasm => "disasm"

def ofText? : String → Option CommandName
  | "run" => some .run
  | "check" => some .check
  | "disasm" => some .disasm
  | _ => none

end CommandName

inductive Flag where
  | json | maxFrames | stress
  deriving DecidableEq, Repr, Inhabited

namespace Flag

def text : Flag → String
  | .json => "--json"
  | .maxFrames => "--max-frames"
  | .stress => "--gc-stress"

def ofText? : String → Option Flag
  | "--json" => some .json
  | "--max-frames" => some .maxFrames
  | "--gc-stress" => some .stress
  | _ => none

end Flag

/-- Whether a command takes a flag. -/
def CommandName.takes : CommandName → Flag → Bool
  | .run, _ => true
  | .check, .json => true
  | _, _ => false

/-- Why arguments make no command. -/
inductive UsageFault where
  | unknownOption (text : String)
  | unknownCommand (text : String)
  | unexpectedFlag (flag : Flag)
  | missingMaxFrames
  | invalidMaxFrames (text : String)
  | multiplePaths
  | missingPath (command : CommandName)
  deriving DecidableEq, Repr, Inhabited

def UsageFault.message : UsageFault → String
  | .unknownOption text => "unknown option '" ++ text ++ "'"
  | .unknownCommand text => "unknown command '" ++ text ++ "'"
  | .unexpectedFlag flag => "unexpected " ++ flag.text
  | .missingMaxFrames => "missing value for --max-frames"
  | .invalidMaxFrames text =>
    "invalid --max-frames value '" ++ text ++ "' (expected a positive integer)"
  | .multiplePaths => "multiple paths provided"
  | .missingPath command => "missing path for " ++ command.text

/-- A decimal number with digits only. -/
def digits? (text : List Char) : Option Nat :=
  if text.isEmpty || !text.all Char.isDigit then none
  else some (text.foldl (fun n d => 10 * n + (d.toNat - '0'.toNat)) 0)

/-- A text without a plus sign in front. -/
def withoutPlus : List Char → List Char
  | '+' :: text => text
  | text => text

/-- A number of a machine word, which may have a plus sign. -/
def word? (text : String) : Option Nat :=
  match digits? (withoutPlus text.toList) with
  | some n => if n ≤ Config.maxWord then some n else none
  | none => none

/-- A positive number of frames. -/
def maxFrames? (text : String) : Option Nat :=
  match word? text with
  | some n => if 0 < n then some n else none
  | none => none

/-- Whether an argument looks like an option. -/
def isOption (arg : String) : Bool := arg.toList.head? = some '-'

/-- Reads the arguments of a command. -/
def readOptions (command : CommandName) (o : Options) : List String → Except UsageFault Options
  | [] => .ok o
  | arg :: args =>
    match Flag.ofText? arg with
    | some flag =>
      if command.takes flag then
        match flag, args with
        | .json, args => readOptions command { o with json := true } args
        | .stress, args => readOptions command { o with stress := true } args
        | .maxFrames, value :: args =>
          match maxFrames? value with
          | some n => readOptions command { o with maxFrames := some n } args
          | none => .error (.invalidMaxFrames value)
        | .maxFrames, [] => .error .missingMaxFrames
      else .error (.unexpectedFlag flag)
    | none =>
      if isOption arg then .error (.unknownOption arg)
      else
        match o.path with
        | some _ => .error .multiplePaths
        | none => readOptions command { o with path := some arg } args

/-- The command with these arguments. -/
def readCommand (command : CommandName) (args : List String) : Except UsageFault Command :=
  match readOptions command {} args with
  | .error fault => .error fault
  | .ok o =>
    match o.path with
    | none => .error (.missingPath command)
    | some path =>
      match command with
      | .run => .ok (.run path o.json o.maxFrames o.stress)
      | .check => .ok (.check path o.json)
      | .disasm => .ok (.disasm path)

/-- The command that all arguments make. The first one names it, or is alone and the path of a
file to run. -/
def readArguments (first : String) (rest : List String) : Except UsageFault Command :=
  match CommandName.ofText? first with
  | some name => readCommand name rest
  | none =>
    if isOption first then .error (.unknownOption first)
    else if rest.isEmpty then readCommand .run [first]
    else .error (.unknownCommand first)

/-- What the arguments ask for. -/
inductive Request where
  | help
  | helpFor (command : CommandName)
  | version
  | perform (command : Command)
  | misuse (fault : UsageFault)
  deriving DecidableEq, Repr, Inhabited

def isHelp (arg : String) : Bool := arg = "-h" || arg = "--help"

/-- Reads the arguments of a command as a request. -/
def Request.ofCommand (result : Except UsageFault Command) : Request :=
  match result with
  | .ok command => .perform command
  | .error fault => .misuse fault

/-- The command that help is asked for, by a flag anywhere behind its name. -/
def helpFor? (first : String) (rest : List String) : Option CommandName :=
  (CommandName.ofText? first).filter fun _ => rest.any isHelp

/-- Reads all arguments. Help wins over everything behind a command. -/
def readRequest : List String → Request
  | [] => .help
  | first :: rest =>
    if isHelp first then .help
    else if first = "--version" then .version
    else
      match helpFor? first rest with
      | some name => .helpFor name
      | none => .ofCommand (readArguments first rest)

end ScriptMachine
