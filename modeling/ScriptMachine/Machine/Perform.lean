import ScriptMachine.Machine.State
import ScriptMachine.Value.Display

/-! # What instructions do

Performing an instruction changes memory and says where the run goes on: with
the next instruction, after a jump, in a function that is called, or behind the
call of the current one. Frames themselves are not touched here. -/

namespace ScriptMachine

/-- Where a run goes on after an instruction. -/
inductive Transfer where
  | next
  | jump (distance : Nat)
  | enter (handle : Handle) (function : Function) (argc : Nat)
  | leave (result : Value)
  deriving Repr, Inhabited

/-- A computation on memory that may end in a fault; what it did before stays
done. -/
abbrev Act (κ σ : Type) := EStateM Fault (Memory κ σ)

variable {κ σ : Type}

/-! ## The stack -/

def push (config : Config) (value : Value) : Act κ σ Unit := do
  if config.maxStack ≤ (← get).stack.size then throw .stackOverflow
  modify fun m => { m with stack := m.stack.push value }

def pop : Act κ σ Value := do
  match (← get).stack.back? with
  | some value =>
    modify fun m => { m with stack := m.stack.pop }
    return value
  | none => throw .stackUnderflow

/-- The value at a distance from the top. -/
def peek (distance : Nat) : Act κ σ Value := do
  let stack := (← get).stack
  if h : distance < stack.size then
    have : stack.size - (distance + 1) < stack.size := by omega
    return stack[stack.size - (distance + 1)]
  else throw .stackUnderflow

/-- Takes the topmost values off the stack, the lowest of them first. -/
def popMany (count : Nat) : Act κ σ (Array Value) := do
  if (← get).stack.size < count then throw .stackUnderflow
  modifyGet fun m =>
    let start := m.stack.size - count
    (m.stack.extract start m.stack.size, { m with stack := m.stack.shrink start })

/-- Gives a computation on the heap its place in memory. -/
def onHeap (result : Except HeapFault α) : Act κ σ α :=
  match result with
  | .ok value => pure value
  | .error fault => throw (.heap fault)

/-! ## Operators -/

/-- Replaces two numbers by the result of an operator on them. -/
def numericBinary (config : Config) (op : Float → Float → Value) : Act κ σ Unit := do
  let right ← pop
  let left ← pop
  match left, right with
  | .number a, .number b => push config (op a b)
  | _, _ => throw .operandsNotNumbers

/-- The place in a list of the given size that an index names. -/
def listPosition (index : Value) (size : Nat) : Except Fault (Fin size) :=
  match index with
  | .number x =>
    match (Binary64.ofFloat x).toInt? with
    | some n =>
      if h : 0 ≤ n ∧ n < size then .ok ⟨n.toNat, by omega⟩ else .error (.indexOutOfBounds x size)
    | none => .error .indexNotInteger
  | _ => .error .indexNotNumber

/-- The list that a value refers to. -/
def subscript (base : Value) : Act κ σ Handle := do
  match base with
  | .object handle =>
    if (← onHeap ((← get).heap.kind handle)) = .list then return handle
    else throw .notSubscriptable
  | _ => throw .notSubscriptable

/-- The value in a list at the place that an index names. -/
def getElement (base index : Value) : Act κ σ Value := do
  let handle ← subscript base
  let items ← onHeap ((← get).heap.list handle)
  match listPosition index items.size with
  | .ok position => return items[position]
  | .error fault => throw fault

/-- Puts a value into a list at the place that an index names. -/
def setElement (base index value : Value) : Act κ σ Unit := do
  let handle ← subscript base
  let size := (← onHeap ((← get).heap.list handle)).size
  match listPosition index size with
  | .ok position =>
    modify fun m => { m with heap := m.heap.modifyList handle (·.setIfInBounds position value) }
  | .error fault => throw fault

/-! ## Calls -/

def checkArity (name : String) (arity argc : Nat) : Act κ σ Unit := do
  if arity ≠ argc then throw (.arity name arity argc)

/-- Runs native code on the topmost `argc` values and puts its result in place
of the topmost `popped`. -/
def callNative (env : Environment κ σ) (code : κ) (popped argc : Nat) : Act κ σ Unit := do
  let result ← modifyGet fun ⟨heap, stack, globals, output, collectAt, host⟩ =>
    let args := (stack.extract (stack.size - argc) stack.size).toList
    let (result, heap, host) := env.call code args (heap, host)
    (result, ⟨heap, stack, globals, output, collectAt, host⟩)
  match result with
  | .ok value =>
    modify fun m => { m with stack := m.stack.shrink (m.stack.size - popped) }
    push env.config value
  | .error message => throw (.native message)

/-- Calls the value below its arguments. -/
def callValue (env : Environment κ σ) (argc : Nat) : Act κ σ Transfer := do
  match ← peek argc with
  | .object handle =>
    match ← onHeap ((← get).heap.get handle) with
    | .function f =>
      checkArity f.name f.arity argc
      return .enter handle f argc
    | .native n =>
      checkArity n.name n.arity argc
      callNative env n.code (argc + 1) argc
      return .next
    | object => throw (.notCallable object.kind.name)
  | callee => throw (.notCallable ((← get).heap.typeName callee))

/-- The method of an object. -/
def findMethod (env : Environment κ σ) (name : String) (receiver : Value) : Act κ σ Handle := do
  let found ← match receiver with
    | .object handle => do
      let kind ← onHeap ((← get).heap.kind handle)
      pure (env.methods.find? kind name)
    | _ => pure none
  match found with
  | some native => return native
  | none => throw (.undefinedMethod name ((← get).heap.typeName receiver))

/-- Calls a method of the value below the arguments, which is itself the first
argument. -/
def invoke (env : Environment κ σ) (name : Value) (argc : Nat) : Act κ σ Unit := do
  match name with
  | .object handle =>
    let name ← onHeap ((← get).heap.string handle)
    let receiver ← peek argc
    let method ← findMethod env name receiver
    let native ← onHeap ((← get).heap.native method)
    checkArity native.name native.arity argc
    callNative env native.code (argc + 1) (argc + 1)
  | _ => throw .methodNameNotString

/-! ## Instructions -/

/-- A constant of the running function. -/
def constantAt (frame : Frame) (index : UInt8) : Act κ σ Value :=
  match frame.function.chunk.constants[index.toNat]? with
  | some value => pure value
  | none => throw (.fetch (.constantOutOfRange index))

/-- Jumps if the value on top of the stack, which stays there, is the given
one. -/
def jumpIf (expected : Bool) (distance : Nat) : Act κ σ Transfer := do
  match ← peek 0 with
  | .bool value => return if value = expected then .jump distance else .next
  | _ => throw .operandNotBoolean

/-- Does what an instruction of the running function says. -/
def perform (env : Environment κ σ) (frame : Frame) (i : Instruction) : Act κ σ Transfer := do
  match i.opcode with
  | .constant =>
    push env.config (← constantAt frame i.first)
    return .next
  | .loadNull =>
    push env.config .null
    return .next
  | .loadTrue =>
    push env.config (.bool true)
    return .next
  | .loadFalse =>
    push env.config (.bool false)
    return .next
  | .pop =>
    let _ ← pop
    return .next
  | .popN =>
    modify fun m => { m with stack := m.stack.shrink (m.stack.size - i.first.toNat) }
    return .next
  | .getLocal =>
    match (← get).stack[frame.base + i.first.toNat]? with
    | some value => push env.config value
    | none => throw (.noLocal i.first.toNat)
    return .next
  | .setLocal =>
    let index := frame.base + i.first.toNat
    if (← get).stack.size ≤ index then throw (.noLocal i.first.toNat)
    let value ← peek 0
    modify fun m => { m with stack := m.stack.setIfInBounds index value }
    return .next
  | .getGlobal =>
    match (← get).globals[i.first.toNat]? with
    | some value => push env.config value
    | none => throw (.noGlobal i.first.toNat)
    return .next
  | .setGlobal =>
    let value ← peek 0
    if (← get).globals.size ≤ i.first.toNat then throw (.noGlobal i.first.toNat)
    modify fun m => { m with globals := m.globals.setIfInBounds i.first.toNat value }
    return .next
  | .add =>
    numericBinary env.config fun a b => .number (a + b)
    return .next
  | .sub =>
    numericBinary env.config fun a b => .number (a - b)
    return .next
  | .mul =>
    numericBinary env.config fun a b => .number (a * b)
    return .next
  | .div =>
    numericBinary env.config fun a b => .number (a / b)
    return .next
  | .floorDiv =>
    numericBinary env.config fun a b => .number (floorQuotient a b)
    return .next
  | .mod =>
    numericBinary env.config fun a b => .number (remainder a b)
    return .next
  | .less =>
    numericBinary env.config fun a b => .bool (a < b)
    return .next
  | .lessEqual =>
    numericBinary env.config fun a b => .bool (a ≤ b)
    return .next
  | .greater =>
    numericBinary env.config fun a b => .bool (b < a)
    return .next
  | .greaterEqual =>
    numericBinary env.config fun a b => .bool (b ≤ a)
    return .next
  | .equal =>
    let right ← pop
    let left ← pop
    push env.config (.bool (left.equals right))
    return .next
  | .notEqual =>
    let right ← pop
    let left ← pop
    push env.config (.bool (!left.equals right))
    return .next
  | .negate =>
    match ← pop with
    | .number value => push env.config (.number (-value))
    | _ => throw .operandNotNumber
    return .next
  | .invert =>
    match ← pop with
    | .bool value => push env.config (.bool !value)
    | _ => throw .operandNotBoolean
    return .next
  | .makeList =>
    let items ← popMany i.first.toNat
    let handle ← modifyGet fun m =>
      let (handle, heap) := m.heap.alloc (.list items)
      (handle, { m with heap })
    push env.config (.object handle)
    return .next
  | .getIndex =>
    let index ← pop
    let base ← pop
    push env.config (← getElement base index)
    return .next
  | .setIndex =>
    let value ← pop
    let index ← pop
    let base ← pop
    setElement base index value
    push env.config value
    return .next
  | .jump => return .jump i.distance
  | .jumpIfFalse => jumpIf false i.distance
  | .jumpIfTrue => jumpIf true i.distance
  | .call => callValue env i.first.toNat
  | .invoke =>
    invoke env (← constantAt frame i.first) i.second.toNat
    return .next
  | .ret => return .leave (← pop)
  | .print =>
    let value ← pop
    let text := (← get).heap.display value
    modify fun m => { m with output := m.output ++ text ++ "\n" }
    return .next

end ScriptMachine
