import ScriptMachine.Codegen.Script
import ScriptMachine.Chunk.Listing
import ScriptMachine.Library
import ScriptMachine.Machine.Run
import ScriptMachine.Program.OfSource
import ScriptMachine.Scope

/-! # Sessions

A session runs one program after the other on the same heap. It holds the native
functions and methods that programs see; the natives are the first globals of
every program. -/

namespace ScriptMachine

/-- Why a program has not run to its end. -/
inductive SessionError where
  | compile (diagnostics : List Diagnostic)
  | runtime (error : RuntimeError)
  deriving Repr, Inhabited

namespace SessionError

def message : SessionError → String
  | .compile diagnostics =>
    "compilation failed with " ++ toString diagnostics.length ++ " error(s)"
  | .runtime error => error.fault.message

def diagnostics (file : String) : SessionError → List Diagnostic
  | .compile diagnostics => diagnostics
  | .runtime error => [error.diagnostic file]

end SessionError

/-- A session with host functions `ε` that share the state `τ`. -/
structure Session (ε τ : Type) where
  config : Config
  memory : Memory (NativeCode ε) (HostState τ)
  natives : Array String := #[]
  methods : MethodTable := []

namespace Session

variable {ε τ : Type}

def addNative (s : Session ε τ) (name : String) (arity : Nat) (code : NativeCode ε) :
    Handle × Session ε τ :=
  let (handle, heap) := s.memory.heap.alloc (.native ⟨name, arity, code⟩)
  (handle, { s with memory := { s.memory with heap } })

/-- Adds a native function, which takes the global slot behind those of the
natives before it. -/
def defineNative (s : Session ε τ) (name : String) (arity : Nat) (code : NativeCode ε) :
    Session ε τ :=
  let (handle, s) := s.addNative name arity code
  { s with
    memory := { s.memory with
      globals := (s.memory.globals.shrink s.natives.size).push (.object handle) }
    natives := s.natives.push name }

/-- Adds a method for all objects of a kind. Its arity does not count the
object, which is its first argument. -/
def defineMethod (s : Session ε τ) (kind : ObjectKind) (name : String) (arity : Nat)
    (code : NativeCode ε) : Session ε τ :=
  let (handle, s) := s.addNative name arity code
  { s with methods := s.methods.define kind name handle }

/-- A session with the built-in functions. -/
def new (config : Config) (state : τ) : Session ε τ :=
  let start : Session ε τ :=
    { config
      memory := { heap := {}, collectAt := config.policy.initial, host := { custom := state } } }
  let s := start.defineNative "clock" 0 (.builtin .clock)
  let s := s.defineNative "type" 1 (.builtin .type)
  let s := s.defineMethod .list "push" 1 (.builtin .push)
  let s := s.defineMethod .list "pop" 0 (.builtin .pop)
  s.defineMethod .list "len" 0 (.builtin .len)

def environment (s : Session ε τ) (host : Host ε τ) : Environment (NativeCode ε) (HostState τ) :=
  ⟨s.config, s.methods, host.call⟩

/-- Resolves and compiles a program against the natives, and makes room for its
globals. -/
def compile (s : Session ε τ) (program : Program) (file : String)
    (orders : CandidateOrders := .asGiven) : Except SessionError Handle × Session ε τ :=
  match (program.resolve s.natives.toList).check file orders with
  | .error diagnostics => (.error (.compile diagnostics), s)
  | .ok (program, symbols) =>
    let { config, memory, natives, methods } := s
    let compilation := program.compile memory.heap symbols
    if compilation.errors.isEmpty then
      let kept := memory.globals.shrink natives.size
      let fresh := Array.replicate (compilation.symbols.globalCount - kept.size) .null
      (.ok compilation.script,
        { config, natives, methods
          memory := { memory with heap := compilation.heap, globals := kept ++ fresh } })
    else
      (.error (.compile (compilation.errors.map (·.diagnostic file))),
        { config, natives, methods, memory := { memory with heap := compilation.heap } })

/-- Runs a compiled script. -/
def execute (s : Session ε τ) (host : Host ε τ) (script : Handle) :
    Except SessionError Unit × Session ε τ :=
  match runScript (s.environment host) script s.memory with
  | (.ok (), memory) => (.ok (), { s with memory })
  | (.error error, memory) => (.error (.runtime error), { s with memory })

/-- Reads, compiles and runs a source text. -/
def runSource (s : Session ε τ) (host : Host ε τ) (file source : String)
    (orders : CandidateOrders := .asGiven) : Except SessionError Unit × Session ε τ :=
  match Program.ofSource file source with
  | .error diagnostics => (.error (.compile diagnostics), s)
  | .ok program =>
    match s.compile program file orders with
    | (.error error, s) => (.error error, s)
    | (.ok script, s) => s.execute host script

/-- Reads and compiles a source text. -/
def compileSource (s : Session ε τ) (file source : String)
    (orders : CandidateOrders := .asGiven) : Except SessionError Handle × Session ε τ :=
  match Program.ofSource file source with
  | .error diagnostics => (.error (.compile diagnostics), s)
  | .ok program => s.compile program file orders

/-- The functions among the constants of a function. -/
def constantFunctions (heap : Heap κ) (function : Function) : List Function :=
  function.chunk.constants.toList.filterMap fun
    | .object handle => (heap.function handle).toOption
    | _ => none

/-- The listing of a script, and of every function it declares. -/
def listScript (heap : Heap κ) (script : Function) : String :=
  script.chunk.listing heap script.name ++
    String.join ((constantFunctions heap script).map fun function =>
      "\n" ++ function.chunk.listing heap function.name)

/-- The listing of a program. -/
def disassemble (s : Session ε τ) (program : Program) (file : String)
    (orders : CandidateOrders := .asGiven) : Except SessionError String × Session ε τ :=
  match s.compile program file orders with
  | (.error error, s) => (.error error, s)
  | (.ok script, s) =>
    match s.memory.heap.function script with
    | .ok function => (.ok (listScript s.memory.heap function), s)
    | .error fault => (.error (.runtime ⟨.heap fault, []⟩), s)

/-- The listing of a source text. -/
def disassembleSource (s : Session ε τ) (file source : String)
    (orders : CandidateOrders := .asGiven) : Except SessionError String × Session ε τ :=
  match Program.ofSource file source with
  | .error diagnostics => (.error (.compile diagnostics), s)
  | .ok program => s.disassemble program file orders

/-- Takes the output that programs have printed so far. -/
def takeOutput (s : Session ε τ) : String × Session ε τ :=
  (s.memory.output, { s with memory := { s.memory with output := "" } })

/-- Frees what neither the globals nor the methods reach. -/
def collectGarbage (s : Session ε τ) : CollectReport × Session ε τ :=
  let (report, memory) := s.memory.collect s.methods #[]
  (report, { s with memory })

end Session

end ScriptMachine
