import ScriptMachine.Diagnostic
import ScriptMachine.Symbol
import ScriptMachine.Text.NameHash
import ScriptMachine.Text.Suggestion

/-! # Name resolution

Every name in a program stands for the innermost declaration of that name that
is visible there. Names declared by the host and at top level are visible
everywhere; a parameter in its function; a local variable from behind its own
initialiser to the end of its block. One walk over the program writes the
number of the symbol at each name, declares the symbols on the way and collects
every scoping error.

The locals of a function are one stack, whatever blocks they belong to. Each has
the depth of its block, and where a block ends, the locals of its depth are taken
off the top. -/

namespace ScriptMachine

/-- The largest number of locals that may be live at once in a function. -/
def maxLocals : Nat := 256

/-! ## Scoping errors -/

/-- What is wrong. Where a name is unknown, the names that are visible there are
candidates for a suggestion. -/
inductive ScopeFault where
  | unknownName (name : String) (candidates : List String)
  | redeclared (name : String) (previous : Span)
  | badTarget
  | repeatedParam (name : String)
  | tooManyLocals
  deriving DecidableEq, Repr, Inhabited

namespace ScopeFault

def code : ScopeFault → String
  | .unknownName .. => "E0300"
  | .redeclared .. => "E0301"
  | .badTarget => "E0302"
  | .repeatedParam _ => "E0303"
  | .tooManyLocals => "E0304"

def message : ScopeFault → String
  | .unknownName name _ => "`" ++ name ++ "` not found in this scope"
  | .redeclared name _ => "redeclared variable `" ++ name ++ "`"
  | .badTarget => "cannot assign to left-hand expression"
  | .repeatedParam name => "`" ++ name ++ "` used as parameter more than once"
  | .tooManyLocals => "too many local variables in function"

/-- The notes on a fault, with candidates tried in the given order. -/
def notes (order : CandidateOrder) : ScopeFault → List String
  | .unknownName name candidates =>
    "Declare it with `var` before use." ::
      ((suggestion? name (order.arrange candidates)).map fun candidate =>
        "Did you mean `" ++ candidate ++ "`?").toList
  | .redeclared name previous =>
    if previous = .nowhere then ["`" ++ name ++ "` is a builtin."]
    else ["Previous declaration on line " ++ toString previous.start.line ++ "."]
  | .badTarget => ["Only variables and list elements can be assigned."]
  | .repeatedParam _ => ["Parameter names must be unique."]
  | .tooManyLocals => ["At most " ++ toString maxLocals ++ " locals may be live at once."]

def help : ScopeFault → Option String
  | .redeclared .. => some "Shadowing is only allowed in a nested block."
  | _ => none

end ScopeFault

structure ScopeError where
  fault : ScopeFault
  span : Span
  deriving DecidableEq, Repr, Inhabited

def ScopeError.diagnostic (file : String) (e : ScopeError)
    (order : CandidateOrder := .asGiven) : Diagnostic :=
  { code := e.fault.code, message := e.fault.message, file, span := e.span,
    notes := e.fault.notes order, help := e.fault.help }

/-! ## Scopes -/

/-- A declared name and its symbol. Names are compared by their hashes first. The
depth is that of the block where the name is declared: the blocks of a function
count from one, and globals have depth zero. -/
structure Binding where
  name : String
  hash : UInt32
  id : SymbolId
  depth : Nat
  hash_eq : hash = hashName name
  deriving DecidableEq, Repr

namespace Binding

/-- A name declared at a depth. -/
def declare (name : String) (id : SymbolId) (depth : Nat) : Binding :=
  ⟨name, hashName name, id, depth, rfl⟩

@[simp] theorem name_declare (name : String) (id : SymbolId) (depth : Nat) :
    (declare name id depth).name = name := rfl

@[simp] theorem id_declare (name : String) (id : SymbolId) (depth : Nat) :
    (declare name id depth).id = id := rfl

@[simp] theorem depth_declare (name : String) (id : SymbolId) (depth : Nat) :
    (declare name id depth).depth = depth := rfl

/-- Whether the name is the one with the given hash. -/
def isNamed (b : Binding) (hash : UInt32) (name : String) : Bool :=
  b.hash = hash && b.name = name

/-- Comparing hashes first finds what comparing names finds. -/
@[simp] theorem isNamed_hashName (b : Binding) (name : String) :
    b.isNamed (hashName name) name = decide (b.name = name) := by
  by_cases h : b.name = name <;> simp [isNamed, b.hash_eq, h]

end Binding

/-- The depth of parameters and of the statements of a function's body. -/
def functionDepth : Nat := 1

/-- What is declared at a place in a program. `locals` is the stack of the locals
of the current function, the latest first, and `depth` is that of the innermost
block; `globals` is in order of declaration. -/
structure Scope where
  symbols : SymbolTable := #[]
  errors : Array ScopeError := #[]
  globals : Array Binding := #[]
  locals : List Binding := []
  depth : Nat := 0
  overflowReported : Bool := false
  deriving Repr, Inhabited

namespace Scope

/-- The symbol that a name stands for: the latest local of that name, or else the
latest global. -/
def lookup? (s : Scope) (name : String) : Option SymbolId :=
  let hash := hashName name
  match s.locals.find? (·.isNamed hash name) with
  | some binding => some binding.id
  | none => (s.globals.findRev? (·.isNamed hash name)).map (·.id)

/-- The symbol declared under a name in the innermost block. -/
def lookupInner? (s : Scope) (name : String) : Option SymbolId :=
  let hash := hashName name
  ((s.locals.takeWhile (·.depth = s.depth)).find? (·.isNamed hash name)).map (·.id)

theorem lookup?_eq (s : Scope) (name : String) :
    s.lookup? name = match s.locals.find? (·.name = name) with
      | some binding => some binding.id
      | none => (s.globals.findRev? (·.name = name)).map (·.id) := by
  simp only [lookup?, Binding.isNamed_hashName]

theorem lookupInner?_eq (s : Scope) (name : String) :
    s.lookupInner? name =
      ((s.locals.takeWhile (·.depth = s.depth)).find? (·.name = name)).map (·.id) := by
  simp only [lookupInner?, Binding.isNamed_hashName]

/-- A block begins. -/
def openBlock (s : Scope) : Scope := { s with depth := s.depth + 1 }

/-- A block ends, and its locals with it. -/
def closeBlock (s : Scope) : Scope :=
  { s with locals := s.locals.dropWhile (·.depth = s.depth), depth := s.depth - 1 }

/-- Where a symbol is declared. -/
def declaredAt (s : Scope) (id : SymbolId) : Span :=
  match s.symbols[id]? with
  | some symbol => symbol.span
  | none => .nowhere

/-- A function begins. -/
def openFn (s : Scope) : Scope :=
  { s with locals := [], overflowReported := false, depth := functionDepth }

/-- A function ends. -/
def closeFn (s : Scope) : Scope := { s with locals := [], depth := 0 }

def report (s : Scope) (fault : ScopeFault) (span : Span) : Scope :=
  { s with errors := s.errors.push ⟨fault, span⟩ }

/-- Declares a global; a second declaration of a name is an error, and the first
one is what it refers to. -/
def declareGlobal (s : Scope) (name : String) (span : Span) : SymbolId × Scope :=
  let s := match s.globals.find? (·.name = name) with
    | some first => s.report (.redeclared name (s.declaredAt first.id)) span
    | none => s
  let id := s.symbols.size
  (id, { s with
    symbols := s.symbols.push { name, span, kind := .global }
    globals := s.globals.push (.declare name id 0) })

/-- Adds a local to the innermost block. The first local beyond the limit is
reported once in each function. -/
def pushLocal (s : Scope) (name : String) (span : Span) : SymbolId × Scope :=
  let s :=
    if maxLocals ≤ s.locals.length && !s.overflowReported then
      { s.report .tooManyLocals span with overflowReported := true }
    else s
  let id := s.symbols.size
  (id, { s with
    symbols := s.symbols.push { name, span, kind := .local }
    locals := .declare name id s.depth :: s.locals })

/-- Declares a local variable; a second declaration in the same block is an
error. -/
def declareLocal (s : Scope) (name : String) (span : Span) : SymbolId × Scope :=
  let s := match s.lookupInner? name with
    | some previous => s.report (.redeclared name (s.declaredAt previous)) span
    | none => s
  s.pushLocal name span

/-- Declares a parameter; a name that an earlier one has is an error. -/
def declareParam (s : Scope) (name : String) (span : Span) : SymbolId × Scope :=
  let s := match s.lookupInner? name with
    | some _ => s.report (.repeatedParam name) span
    | none => s
  s.pushLocal name span

/-- All names that are visible. -/
def visibleNames (s : Scope) : List String :=
  s.locals.map (·.name) ++ s.globals.toList.map (·.name)

end Scope

/-! ## The walk over a program -/

/-- Writes symbols into a part of a program. -/
abbrev Resolve := StateM Scope

/-- The symbol of a name used at `span`; a name that stands for nothing is
reported. -/
def resolveName (name : String) (span : Span) : Resolve (Option SymbolId) := fun s =>
  match s.lookup? name with
  | some id => (some id, s)
  | none => (none, s.report (.unknownName name s.visibleNames) span)

/-- Whether a value can be assigned to the expression. -/
def Expr.isAssignable : Expr → Bool
  | .name .. | .index .. => true
  | _ => false

mutual

def resolveExpr : Expr → Resolve Expr
  | .null s => pure (.null s)
  | .bool b s => pure (.bool b s)
  | .number x s => pure (.number x s)
  | .string t s => pure (.string t s)
  | .name n _ s => do return .name n (← resolveName n s) s
  | .unary op e s => do return .unary op (← resolveExpr e) s
  | .binary op l r s => do
    let l ← resolveExpr l
    let r ← resolveExpr r
    return .binary op l r s
  | .logical op l r s => do
    let l ← resolveExpr l
    let r ← resolveExpr r
    return .logical op l r s
  | .list es s => do return .list (← resolveExprs es) s
  | .index b i s => do
    let b ← resolveExpr b
    let i ← resolveExpr i
    return .index b i s
  | .assign op t v s => do
    if !t.isAssignable then
      modify fun scope => scope.report .badTarget t.span
    let t ← resolveExpr t
    let v ← resolveExpr v
    return .assign op t v s
  | .call c as s => do
    let c ← resolveExpr c
    let as ← resolveExprs as
    return .call c as s
  | .property o n s => do return .property (← resolveExpr o) n s
termination_by structural e => e

def resolveExprs : List Expr → Resolve (List Expr)
  | [] => pure []
  | e :: es => do
    let e ← resolveExpr e
    let es ← resolveExprs es
    return e :: es
termination_by structural es => es

end

def resolveExpr? : Option Expr → Resolve (Option Expr)
  | none => pure none
  | some e => do return some (← resolveExpr e)

/-- Runs a part of the walk in a block of its own. -/
def inBlock (walk : Resolve α) : Resolve α := do
  modify (·.openBlock)
  let result ← walk
  modify (·.closeBlock)
  return result

mutual

def resolveStmt : Stmt → Resolve Stmt
  | .block body => do return .block (← resolveBlock body)
  | .var d => do
    let init ← resolveExpr? d.init
    let id ← modifyGet (·.declareLocal d.name d.nameSpan)
    return .var { d with init, id := some id }
  | .cond test thenBlock none s => do
    let test ← resolveExpr test
    let thenBlock ← resolveBlock thenBlock
    return .cond test thenBlock none s
  | .cond test thenBlock (some elseBlock) s => do
    let test ← resolveExpr test
    let thenBlock ← resolveBlock thenBlock
    let elseBlock ← resolveBlock elseBlock
    return .cond test thenBlock (some elseBlock) s
  | .ret value s => do return .ret (← resolveExpr? value) s
  | .print value s => do return .print (← resolveExpr value) s
  | .expr value s => do return .expr (← resolveExpr value) s
termination_by structural s => s

/-- A block's declarations end with it. -/
def resolveBlock : Block Stmt → Resolve (Block Stmt)
  | ⟨stmts, span⟩ => do return ⟨← inBlock (resolveStmts stmts), span⟩
termination_by structural b => b

def resolveStmts : List Stmt → Resolve (List Stmt)
  | [] => pure []
  | s :: ss => do
    let s ← resolveStmt s
    let ss ← resolveStmts ss
    return s :: ss
termination_by structural ss => ss

end

def resolveParam (p : Param) : Resolve Param := do
  let id ← modifyGet (·.declareParam p.name p.span)
  return { p with id := some id }

/-- Parameters and the statements of the body share one block. -/
def resolveFn (d : FnDecl) : Resolve FnDecl := do
  modify (·.openFn)
  let params ← d.params.mapM resolveParam
  let stmts ← resolveStmts d.body.stmts
  modify (·.closeFn)
  return { d with params, body := { d.body with stmts } }

/-- Declares a top-level name. -/
def declareDecl : Decl → Resolve Decl
  | .fn d => do
    let id ← modifyGet (·.declareGlobal d.name d.nameSpan)
    return .fn { d with id := some id }
  | .var d => do
    let id ← modifyGet (·.declareGlobal d.name d.nameSpan)
    return .var { d with id := some id }

/-- Resolves what is inside a top-level declaration. -/
def resolveDecl : Decl → Resolve Decl
  | .fn d => do return .fn (← resolveFn d)
  | .var d => do return .var { d with init := ← resolveExpr? d.init }

/-- Declares the host's names, then all top-level names, then resolves every
declaration. -/
def resolveProgram (hostNames : List String) (program : Program) : Resolve Program := do
  modify fun s => hostNames.foldl (fun s name => (s.declareGlobal name .nowhere).2) s
  let decls ← program.decls.mapM declareDecl
  let decls ← decls.mapM resolveDecl
  return ⟨decls⟩

/-- A program with its names resolved, its symbols, and all scoping errors. -/
structure Resolution where
  program : Program
  symbols : SymbolTable
  errors : List ScopeError
  deriving Repr, Inhabited

/-- Resolves the names of a program. The host's names are the first globals. -/
def Program.resolve (hostNames : List String) (program : Program) : Resolution :=
  let (program, scope) := resolveProgram hostNames program {}
  ⟨program, scope.symbols, scope.errors.toList⟩

/-- A resolution without errors, or the diagnostics of its errors. Candidates for
suggestions are tried in an order of its own for each error. -/
def Resolution.check (r : Resolution) (file : String)
    (orders : CandidateOrders := .asGiven) :
    Except (List Diagnostic) (Program × SymbolTable) :=
  if r.errors.isEmpty then .ok (r.program, r.symbols)
  else .error (r.errors.mapIdx fun i e => e.diagnostic file (orders i))

end ScriptMachine
