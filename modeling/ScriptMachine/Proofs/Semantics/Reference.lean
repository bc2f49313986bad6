import ScriptMachine.Proofs.Machine.Instructions
import ScriptMachine.Proofs.Scope.Scoped
import ScriptMachine.Session

/-!
# What programs mean

An interpreter of resolved programs that works on their syntax: it knows neither
code nor a stack. Expressions give values and statements say how control goes on
(`evalExpr`, `execStmt`); a program stores its functions, runs the initialisers of
its variables and calls `main` (`Program.evaluate`).

Calls may nest as deep as a given bound. Everything else is by recursion on the
syntax, with the calls of functions as a parameter.
-/

namespace ScriptMachine

/-! ## Stores -/

/-- What a program works on. Functions are objects without code; a name stands
for a local if there is one under its symbol, and for a global otherwise. -/
structure Store (κ σ : Type) where
  heap : Heap κ
  globals : SymbolId → Value
  locals : SymbolId → Option Value
  output : String
  host : σ

/-- Why an evaluation stops before its end: a fault of the program, calls that
nest too deep, or something that is no program. -/
inductive Stop where
  | fault (fault : Fault)
  | tooDeep
  | rejected
  deriving Repr, Inhabited

/-- An evaluation, which works on the store. -/
abbrev Eval (κ σ : Type) := EStateM Stop (Store κ σ)

/-- What stays fixed during an evaluation: the declared functions, the methods and
the host. -/
structure Setting (κ σ : Type) where
  fns : List FnDecl
  methods : MethodTable
  call : NativeCall κ σ

variable {κ σ α : Type}

namespace Store

/-- The value of a variable. -/
def lookup (s : Store κ σ) (id : SymbolId) : Value := (s.locals id).getD (s.globals id)

/-- Gives a local a value, or declares it with that value. -/
def setLocal (s : Store κ σ) (id : SymbolId) (value : Value) : Store κ σ :=
  { s with locals := fun other => if other = id then some value else s.locals other }

def setGlobal (s : Store κ σ) (id : SymbolId) (value : Value) : Store κ σ :=
  { s with globals := fun other => if other = id then value else s.globals other }

/-- Gives a variable a value. -/
def assign (s : Store κ σ) (id : SymbolId) (value : Value) : Store κ σ :=
  if (s.locals id).isSome then s.setLocal id value else s.setGlobal id value

end Store

namespace Eval

def ofResult : Except Fault α → Eval κ σ α
  | .ok a => pure a
  | .error fault => throw (.fault fault)

/-- The boolean that decides a condition. -/
def condition : Value → Eval κ σ Bool
  | .bool b => pure b
  | _ => throw (.fault .operandNotBoolean)

/-- A new list. -/
def newList (items : List Value) : Eval κ σ Value :=
  modifyGet fun s =>
    let (handle, heap) := s.heap.alloc (.list items.toArray)
    (.object handle, { s with heap })

/-- The element of a list. -/
def element (base index : Value) : Eval κ σ Value := do
  ofResult ((← get).heap.element base index)

/-- Replaces an element of a list. -/
def setElement (base index value : Value) : Eval κ σ Unit := do
  let heap ← ofResult ((← get).heap.withElement base index value)
  modify fun s => { s with heap }

def print (value : Value) : Eval κ σ Unit :=
  modify fun s => { s with output := s.output ++ s.heap.display value ++ "\n" }

/-! ## Calls -/

def checkArity (name : String) (arity given : Nat) : Eval κ σ Unit :=
  if arity ≠ given then throw (.fault (.arity name arity given)) else pure ()

def callNative (call : NativeCall κ σ) (code : κ) (args : List Value) : Eval κ σ Value := do
  let result ← modifyGet fun s =>
    let (result, heap, host) := call code args (s.heap, s.host)
    (result, { s with heap, host })
  match result with
  | .ok value => return value
  | .error message => throw (.fault (.native message))

/-- Calls an object. The number of arguments is checked first; declared functions
are called by `apply`. -/
def callObject (S : Setting κ σ) (apply : FnDecl → List Value → Eval κ σ Value)
    (args : List Value) : Object κ → Eval κ σ Value
  | .function f => do
    checkArity f.name f.arity args.length
    match S.fns.find? (·.name = f.name) with
    | some d => apply d args
    | none => throw .rejected
  | .native n => do
    checkArity n.name n.arity args.length
    callNative S.call n.code args
  | .list _ => throw (.fault (.notCallable "list"))
  | .string _ => throw (.fault (.notCallable "string"))

def callValue (S : Setting κ σ) (apply : FnDecl → List Value → Eval κ σ Value) (callee : Value)
    (args : List Value) : Eval κ σ Value := do
  match callee with
  | .object handle =>
    match (← get).heap.get handle with
    | .error fault => throw (.fault (.heap fault))
    | .ok object => callObject S apply args object
  | callee => throw (.fault (.notCallable ((← get).heap.typeWord callee)))

/-- Calls a method of a value, which is its own first argument. -/
def invoke (S : Setting κ σ) (name : String) (receiver : Value) (args : List Value) :
    Eval κ σ Value := do
  let native ← ofResult ((← get).heap.method S.methods name receiver)
  checkArity native.name native.arity args.length
  callNative S.call native.code (receiver :: args)

/-- Applies an operator to the old value of a target and an operand. -/
def updated (op : BinaryOp) (old operand : Eval κ σ Value) : Eval κ σ Value := do
  let left ← old
  let right ← operand
  ofResult (op.apply left right)

/-- The value that is assigned: for a compound assignment, what its operator
makes of the old value and the operand. -/
def assigned (op : AssignOp) (old operand : Eval κ σ Value) : Eval κ σ Value :=
  match op with
  | .assign => operand
  | .add => updated .add old operand
  | .sub => updated .sub old operand
  | .mul => updated .mul old operand
  | .div => updated .div old operand
  | .floorDiv => updated .floorDiv old operand
  | .mod => updated .mod old operand

end Eval

/-- The left operand alone decides. -/
def LogicalOp.decides : LogicalOp → Bool → Bool
  | .and, left => !left
  | .or, left => left

/-! ## Expressions -/

section Evaluation

variable (S : Setting κ σ) (apply : FnDecl → List Value → Eval κ σ Value)

mutual

/-- Evaluates an expression, its parts from left to right. -/
def evalExpr : Expr → Eval κ σ Value
  | .null _ => pure .null
  | .bool value _ => pure (.bool value)
  | .number value _ => pure (.number value)
  | .string _ _ => throw .rejected
  | .name _ (some id) _ => do return (← get).lookup id
  | .name _ none _ => throw .rejected
  | .unary op operand _ => do
    let value ← evalExpr operand
    Eval.ofResult (op.apply value)
  | .binary op left right _ => do
    let left ← evalExpr left
    let right ← evalExpr right
    Eval.ofResult (op.apply left right)
  | .logical op left right _ => do
    let value ← evalExpr left
    if op.decides (← Eval.condition value) then return value else evalExpr right
  | .list items _ => do
    let values ← evalExprs items
    Eval.newList values
  | .index base index _ => do
    let base ← evalExpr base
    let index ← evalExpr index
    Eval.element base index
  | .assign op (.name name (some id) t) value _ => do
    let value ← Eval.assigned op (evalExpr (.name name (some id) t)) (evalExpr value)
    modify (·.assign id value)
    return value
  | .assign op (.index base index t) value _ => do
    let list ← evalExpr base
    let position ← evalExpr index
    let value ← Eval.assigned op (evalExpr (.index base index t)) (evalExpr value)
    Eval.setElement list position value
    return value
  | .assign _ _ _ _ => throw .rejected
  | .call (.property object name _) args _ => do
    let receiver ← evalExpr object
    let args ← evalExprs args
    Eval.invoke S name receiver args
  | .call callee args _ => do
    let callee ← evalExpr callee
    let args ← evalExprs args
    Eval.callValue S apply callee args
  | .property _ _ _ => throw .rejected
termination_by structural e => e

def evalExprs : List Expr → Eval κ σ (List Value)
  | [] => pure []
  | e :: es => do
    let value ← evalExpr e
    let values ← evalExprs es
    return value :: values
termination_by structural es => es

end

/-- The value of an initialiser, null if there is none. -/
def evalInit : Option Expr → Eval κ σ Value
  | some e => evalExpr S apply e
  | none => pure .null

/-! ## Statements -/

/-- How control goes on behind a statement. -/
inductive Flow where
  | next
  | returned (value : Value)
  deriving Repr, Inhabited

/-- The result of a function whose body ends so. -/
def Flow.result : Flow → Value
  | .next => .null
  | .returned value => value

mutual

def execStmt : Stmt → Eval κ σ Flow
  | .block body => execBlock body
  | .var d => do
    let value ← evalInit S apply d.init
    match d.id with
    | some id =>
      modify (·.setLocal id value)
      return .next
    | none => throw .rejected
  | .cond test thenBlock none _ => do
    let value ← evalExpr S apply test
    if ← Eval.condition value then execBlock thenBlock else return .next
  | .cond test thenBlock (some elseBlock) _ => do
    let value ← evalExpr S apply test
    if ← Eval.condition value then execBlock thenBlock else execBlock elseBlock
  | .ret value _ => do return .returned (← evalInit S apply value)
  | .print value _ => do
    let value ← evalExpr S apply value
    Eval.print value
    return .next
  | .expr value _ => do
    let _ ← evalExpr S apply value
    return .next
termination_by structural s => s

def execBlock : Block Stmt → Eval κ σ Flow
  | ⟨stmts, _⟩ => execStmts stmts
termination_by structural b => b

/-- Executes statements until one returns. -/
def execStmts : List Stmt → Eval κ σ Flow
  | [] => pure .next
  | s :: ss => do
    match ← execStmt s with
    | .next => execStmts ss
    | .returned value => return .returned value
termination_by structural ss => ss

end

/-! ## Functions and programs -/

/-- The locals with which a function starts. -/
def FnDecl.bind (d : FnDecl) (args : List Value) : SymbolId → Option Value :=
  fun id => (d.locals.zip args).lookup id

/-- Executes the body of a function with locals of its own. -/
def runFn (d : FnDecl) (args : List Value) : Eval κ σ Value := do
  let saved := (← get).locals
  modify fun s => { s with locals := d.bind args }
  let flow ← execStmts S apply d.body.stmts
  modify fun s => { s with locals := saved }
  return flow.result

/-- Initialises a global variable. -/
def initVar : Decl → Eval κ σ Unit
  | .fn _ => pure ()
  | .var d => do
    let value ← evalInit S apply d.init
    match d.id with
    | some id => modify (·.assign id value)
    | none => throw .rejected

end Evaluation

/-- Calls a function, with calls nested up to a bound. -/
def applyFn (S : Setting κ σ) : Nat → FnDecl → List Value → Eval κ σ Value
  | 0 => fun _ _ => throw .tooDeep
  | depth + 1 => runFn S (applyFn S depth)

/-- Makes a function and stores it into its global. -/
def storeFn (d : FnDecl) : Eval κ σ Unit :=
  match d.id with
  | some id => modify fun s =>
    let (handle, heap) := s.heap.alloc (.function ⟨d.name, d.params.length, {}⟩)
    ({ s with heap } : Store κ σ).assign id (.object handle)
  | none => throw .rejected

/-- Calls the variable of the function `main`, if one is declared. -/
def callMain (S : Setting κ σ) (apply : FnDecl → List Value → Eval κ σ Value) : Eval κ σ Unit :=
  match S.fns.find? (·.name = "main") with
  | none => pure ()
  | some d =>
    match d.id with
    | some id => do
      let _ ← Eval.callValue S apply ((← get).lookup id) []
    | none => throw .rejected

/-- Evaluates a program: all functions are stored first, then the variables are
initialised in order, then `main` is called. -/
def Program.evaluate (program : Program) (S : Setting κ σ) (depth : Nat) : Eval κ σ Unit := do
  program.fns.forM storeFn
  program.decls.forM (initVar S (applyFn S depth))
  callMain S (applyFn S depth)

/-- The store in which a program starts: the globals that the session does not
have yet are null. -/
def Session.store {ε τ : Type} (s : Session ε τ) : Store (NativeCode ε) (HostState τ) where
  heap := s.memory.heap
  globals id := s.memory.globals[id]?.getD .null
  locals _ := none
  output := s.memory.output
  host := s.memory.host

/-- What the evaluation of a program takes from a session. -/
def Session.setting {ε τ : Type} (s : Session ε τ) (host : Host ε τ) (program : Program) :
    Setting (NativeCode ε) (HostState τ) :=
  ⟨program.fns, s.methods, host.call⟩

/-- Evaluates a resolved program in a session. -/
def Session.evaluate {ε τ : Type} (s : Session ε τ) (host : Host ε τ) (program : Program)
    (depth : Nat) : EStateM.Result Stop (Store (NativeCode ε) (HostState τ)) Unit :=
  program.evaluate (s.setting host program) depth s.store

/-! ## Compound assignments -/

/-- The assignment operators that are written as a binary operator and `=`. -/
inductive AssignOp.Compound : AssignOp → BinaryOp → Prop
  | add : Compound .add .add
  | sub : Compound .sub .sub
  | mul : Compound .mul .mul
  | div : Compound .div .div
  | floorDiv : Compound .floorDiv .floorDiv
  | mod : Compound .mod .mod

/-- A compound assignment `t op= v` is the assignment `t = t op v`. -/
theorem evalExpr_compound (S : Setting κ σ) (apply : FnDecl → List Value → Eval κ σ Value)
    {op : AssignOp} {binary : BinaryOp} (hop : op.Compound binary) (target value : Expr)
    (s : Span) :
    evalExpr S apply (.assign op target value s) =
      evalExpr S apply (.assign .assign target (.binary binary target value s) s) := by
  have hassigned : ∀ old operand : Eval κ σ Value, Eval.assigned op old operand =
      Eval.assigned .assign old (Eval.updated binary old operand) := by
    intro old operand
    cases hop <;> rfl
  cases target with
  | name text id t =>
    cases id with
    | none => simp only [evalExpr]
    | some id => simp only [evalExpr, hassigned, Eval.updated]
  | index base index t => simp only [evalExpr, hassigned, Eval.updated]
  | _ => simp only [evalExpr]

end ScriptMachine
