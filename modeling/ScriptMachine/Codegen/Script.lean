import ScriptMachine.Codegen.Statement

/-! # Code of programs

Every function of a program becomes an object of its own. The script is the
function that starts the program: it stores the functions into their globals,
runs the initialisers of the variables in order, calls `main` if there is one,
and returns null. -/

namespace ScriptMachine

variable {κ : Type}

/-- Globals get their slots in order of declaration, so that the host's names
come first. The first one beyond the last slot is an error. -/
def assignGlobalSlots (table : SymbolTable) : SymbolTable × Array CodeError :=
  let ids := (List.range table.size).filter fun id =>
    match table[id]? with
    | some symbol => symbol.kind = .global
    | none => false
  let errors := match ids[maxSlots]?.bind (table[·]?) with
    | some symbol => #[⟨.tooManyGlobals, symbol.span⟩]
    | none => #[]
  (ids.zipIdx.foldl (fun table (id, slot) => table.setSlot id slot) table, errors)

/-- What code generation of a program works on. -/
structure Assembly (κ : Type) where
  heap : Heap κ
  symbols : SymbolTable
  errors : Array CodeError

/-- Generates a function and puts it on the heap. -/
def Assembly.addFunction (a : Assembly κ) (name : String) (arity : Nat) (body : Gen κ Unit) :
    Handle × Assembly κ :=
  let ((), draft) := body { a with name }
  let (handle, heap) := draft.heap.alloc (.function ⟨name, arity, draft.chunk⟩)
  (handle, { heap, symbols := draft.symbols, errors := draft.errors })

/-- The body of a declared function: parameters are its first locals, and at its
end it returns null. -/
def genFnBody (d : FnDecl) : Gen κ Unit := do
  if maxCount < d.params.length then
    reportCode (.tooManyParams d.name) d.nameSpan
  d.params.forM fun p => declareSlot p.id p.span
  genStmts d.body.stmts
  emit .loadNull d.body.span.stop.line
  emit .ret d.body.span.stop.line

/-- Generates the declared functions in order. -/
def genFns : List Decl → Assembly κ → List (FnDecl × Handle) × Assembly κ
  | [], a => ([], a)
  | .fn d :: decls, a =>
    let (handle, a) := a.addFunction d.name d.params.length (genFnBody d)
    let (fns, a) := genFns decls a
    ((d, handle) :: fns, a)
  | .var _ :: decls, a => genFns decls a

/-- Stores a function into its global. -/
def genFnStore (d : FnDecl) (handle : Handle) : Gen κ Unit := do
  emitConstant (.object handle) d.span
  emitStore? d.id d.span.start.line
  emit .pop d.span.start.line

/-- Initialises a global variable. -/
def genVarInit : Decl → Gen κ Unit
  | .fn _ => pure ()
  | .var d => do
    genExpr? d.init d.span.start.line
    emitStore? d.id d.span.start.line
    emit .pop d.span.start.line

/-- The symbol of the function that the script calls. -/
def Program.main? (program : Program) : Option SymbolId :=
  program.decls.findSome? fun
    | .fn d => if d.name = "main" then d.id else none
    | .var _ => none

/-- The line on which the last declaration ends. -/
def Program.endLine (program : Program) : Nat :=
  match program.decls.getLast? with
  | some decl => decl.span.stop.line
  | none => 1

def genScript (program : Program) (fns : List (FnDecl × Handle)) : Gen κ Unit := do
  fns.forM fun (d, handle) => genFnStore d handle
  program.decls.forM genVarInit
  let line := program.endLine
  match program.main? with
  | some id =>
    emitLoad id line
    emitWith .call 0 line
    emit .pop line
  | none => pure ()
  emit .loadNull line
  emit .ret line

/-- The outcome of code generation: the heap with all functions on it, the
symbols with their slots, the script, and the errors. Only a compilation without
errors may be run. -/
structure Compilation (κ : Type) where
  heap : Heap κ
  symbols : SymbolTable
  script : Handle
  errors : List CodeError

/-- Generates the code of a program. -/
def Program.compile (program : Program) (heap : Heap κ) (symbols : SymbolTable) : Compilation κ :=
  let (symbols, errors) := assignGlobalSlots symbols
  let (fns, a) := genFns program.decls { heap, symbols, errors }
  let (script, a) := a.addFunction "script" 0 (genScript program fns)
  { heap := a.heap, symbols := a.symbols, script, errors := a.errors.toList }

end ScriptMachine
