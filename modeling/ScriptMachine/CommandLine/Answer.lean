import ScriptMachine.CommandLine.Arguments
import ScriptMachine.CommandLine.Files
import ScriptMachine.Diagnostic.Render
import ScriptMachine.Report
import ScriptMachine.Session

/-! # Answers of the command line

What the tool writes and how it exits, for every request and every file. Files
are read only for commands, and what reading them yielded is an argument
here. -/

namespace ScriptMachine

/-- What the tool writes to its two outputs, and its exit code. -/
structure Answer where
  code : Nat := 0
  stdout : String := ""
  stderr : String := ""
  deriving DecidableEq, Repr, Inhabited

def helpText : String :=
  "Flood bytecode compiler and VM\n" ++
  "\n" ++
  "Usage:\n" ++
  "  floodc <file>\n" ++
  "  floodc <command> [options]\n" ++
  "\n" ++
  "Commands:\n" ++
  "  run <file> [--json] [--max-frames <n>] [--gc-stress]\n" ++
  "  check <file> [--json]\n" ++
  "  disasm <file>\n" ++
  "\n" ++
  "Options:\n" ++
  "  -h, --help     Show this help message\n" ++
  "  --version      Show version information\n" ++
  "\n" ++
  "Logging is controlled by FLOOD_LOG (default: warn).\n"

def CommandName.helpText : CommandName → String
  | .run =>
    "Usage:\n" ++
    "  floodc run <file> [--json] [--max-frames <n>] [--gc-stress]\n" ++
    "\n" ++
    "Options:\n" ++
    "  --json             Emit a JSON report instead of program output\n" ++
    "  --max-frames <n>   Maximum call depth (default 256)\n" ++
    "  --gc-stress        Collect garbage after every instruction\n" ++
    "  -h, --help         Show this help message\n"
  | .check =>
    "Usage:\n" ++
    "  floodc check <file> [--json]\n" ++
    "\n" ++
    "Options:\n" ++
    "  --json         Emit JSON diagnostics\n" ++
    "  -h, --help     Show this help message\n"
  | .disasm =>
    "Usage:\n" ++
    "  floodc disasm <file>\n" ++
    "\n" ++
    "Options:\n" ++
    "  -h, --help     Show this help message\n"

/-- The answer to arguments that make no command. -/
def UsageFault.answer (fault : UsageFault) : Answer :=
  { code := 2, stderr := "error: " ++ fault.message ++ "\n\n" ++ helpText ++ "\n" }

def Command.path : Command → String
  | .run path .. | .check path _ | .disasm path => path

/-- Success or failure, depending on whether there are diagnostics. -/
def exitCode (diagnostics : List Diagnostic) : Nat := if diagnostics.isEmpty then 0 else 1

/-- The limits of a run. -/
def runConfig (maxFrames : Option Nat) (stress : Bool) : Config :=
  let config := match maxFrames with
    | some n => .withMaxFrames n
    | none => .default
  if stress then { config with policy := .always } else config

/-- A session without functions of a host. -/
def plainSession (config : Config) : Session Empty Unit := .new config ()

/-- Runs a file. -/
def answerRun (clock : Nat → Float) (config : Config) (json : Bool) (path : String)
    (file : Except ReadFault String) (orders : CandidateOrders := .asGiven) : Answer :=
  match file with
  | .error fault =>
    let diagnostics := [fault.diagnostic path]
    if json then { code := 1, stdout := (runReport none diagnostics).pretty ++ "\n" }
    else { code := 1, stderr := Diagnostic.renderAll diagnostics "" }
  | .ok source =>
    let (result, session) := (plainSession config).runSource (.plain clock) path source orders
    let output := session.memory.output
    let diagnostics := match result with
      | .ok () => []
      | .error error => error.diagnostics path
    if json then
      { code := exitCode diagnostics
        stdout := (runReport (some output) diagnostics).pretty ++ "\n" }
    else
      { code := exitCode diagnostics
        stdout := output
        stderr := Diagnostic.renderAll diagnostics source }

/-- Everything that is wrong with a source text before it runs. -/
def checkSource (path source : String) (orders : CandidateOrders := .asGiven) :
    List Diagnostic :=
  match ((plainSession .default).compileSource path source orders).1 with
  | .ok _ => []
  | .error error => error.diagnostics path

/-- Checks a file. -/
def answerCheck (json : Bool) (path : String) (file : Except ReadFault String)
    (orders : CandidateOrders := .asGiven) : Answer :=
  let (source, diagnostics) := match file with
    | .ok source => (source, checkSource path source orders)
    | .error fault => ("", [fault.diagnostic path])
  let code := exitCode diagnostics
  if json then { code, stdout := (checkReport diagnostics).pretty ++ "\n" }
  else if diagnostics.isEmpty then { code, stdout := path ++ ": ok\n" }
  else { code, stderr := Diagnostic.renderAll diagnostics source }

/-- Lists the code of a file. -/
def answerDisasm (path : String) (file : Except ReadFault String)
    (orders : CandidateOrders := .asGiven) : Answer :=
  match file with
  | .error fault => { code := 1, stderr := Diagnostic.renderAll [fault.diagnostic path] "" }
  | .ok source =>
    match ((plainSession .default).disassembleSource path source orders).1 with
    | .ok text => { stdout := text }
    | .error error =>
      { code := 1, stderr := Diagnostic.renderAll (error.diagnostics path) source }

/-- Carries out a command on what reading its file yielded. -/
def Command.answer (clock : Nat → Float) (file : Except ReadFault String) (command : Command)
    (orders : CandidateOrders := .asGiven) : Answer :=
  match command with
  | .run path json maxFrames stress =>
    answerRun clock (runConfig maxFrames stress) json path file orders
  | .check path json => answerCheck json path file orders
  | .disasm path => answerDisasm path file orders

/-- Answers a request; `read` yields what is in a file. -/
def Request.answer (clock : Nat → Float) (read : String → Except ReadFault String)
    (request : Request) (orders : CandidateOrders := .asGiven) : Answer :=
  match request with
  | .help => { stdout := helpText }
  | .helpFor command => { stdout := command.helpText }
  | .version => { stdout := toolName ++ " " ++ toolVersion ++ "\n" }
  | .perform command => command.answer clock (read command.path) orders
  | .misuse fault => fault.answer

end ScriptMachine
