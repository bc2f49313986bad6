import ScriptMachine.Codegen.Fault
import ScriptMachine.Heap.Basic
import ScriptMachine.Symbol

/-! # Functions under construction

A draft is the code of one function so far, together with the heap on which its
constants live, the symbols of the program and the errors found. Generating
code is a walk that extends the draft. Errors do not stop it: it emits
something harmless and goes on. -/

namespace ScriptMachine

/-- A function under construction. `height` is the slot of the next local. -/
structure Draft (κ : Type) where
  heap : Heap κ
  symbols : SymbolTable
  errors : Array CodeError := #[]
  name : String
  chunk : Chunk := {}
  height : Nat := 0

/-- A walk that extends a draft. -/
abbrev Gen (κ : Type) := StateM (Draft κ)

variable {κ : Type}

def reportCode (fault : CodeFault) (span : Span) : Gen κ Unit :=
  modify fun d => { d with errors := d.errors.push ⟨fault, span⟩ }

/-! ## Emitting code -/

def emitByte (byte : UInt8) (line : Nat) : Gen κ Unit :=
  modify fun d => { d with chunk := d.chunk.write byte line }

def emit (op : Opcode) (line : Nat) : Gen κ Unit := emitByte op.toByte line

def emitWith (op : Opcode) (operand : UInt8) (line : Nat) : Gen κ Unit := do
  emit op line
  emitByte operand line

/-- Adds a constant; when the pool is full this is an error and the index is
zero. -/
def addConstant (value : Value) (span : Span) : Gen κ UInt8 := do
  let added ← modifyGet fun d =>
    let (index, chunk) := d.chunk.addConstant value
    (index, { d with chunk })
  match added with
  | some index => return index
  | none =>
    reportCode (.tooManyConstants (← get).name) span
    return 0

def emitConstant (value : Value) (span : Span) : Gen κ Unit := do
  let index ← addConstant value span
  emitWith .constant index span.start.line

/-- The constant that holds a text, if the pool has one. -/
def Draft.textConstant? (d : Draft κ) (text : String) : Option Nat :=
  d.chunk.constants.findIdx? fun
    | .object handle =>
      match d.heap.string handle with
      | .ok found => found = text
      | .error _ => false
    | _ => false

/-- The index of a constant that holds the name of a method. Names are shared
within a function. -/
def methodConstant (name : String) (span : Span) : Gen κ UInt8 := do
  match (← get).textConstant? name with
  | some index => return index.toUInt8
  | none =>
    let handle ← modifyGet fun d =>
      let (handle, heap) := d.heap.alloc (.string name)
      (handle, { d with heap })
    addConstant (.object handle) span

/-- Emits a jump whose distance is not known yet, and gives its offset. -/
def emitJump (op : Opcode) (line : Nat) : Gen κ Nat := do
  let offset := (← get).chunk.code.size
  emit op line
  emitByte 0xff line
  emitByte 0xff line
  return offset

/-- The code with the jump at `offset` leading over the following `distance`
bytes. -/
def Chunk.patchJump (chunk : Chunk) (offset distance : Nat) : Chunk :=
  { chunk with
    code := (chunk.code.setIfInBounds (offset + 1) (distance / 256).toUInt8).setIfInBounds
      (offset + 2) (distance % 256).toUInt8 }

/-- Lets the jump at `offset` lead to the end of the code so far. -/
def landJump (offset : Nat) (span : Span) : Gen κ Unit := do
  let distance := (← get).chunk.code.size - (offset + 3)
  if distance ≤ maxDistance then
    modify fun d => { d with chunk := d.chunk.patchJump offset distance }
  else reportCode .jumpTooFar span

/-! ## Variables -/

/-- The kind and slot of a symbol, if it has a slot that fits into a byte. -/
def Draft.slot? (d : Draft κ) (id : SymbolId) : Option (SymbolKind × UInt8) :=
  match d.symbols[id]? with
  | some { slot := some slot, kind, .. } =>
    if slot < maxSlots then some (kind, slot.toUInt8) else none
  | _ => none

/-- Pushes the value of a variable, or null where there is none. -/
def emitLoad (id : SymbolId) (line : Nat) : Gen κ Unit := do
  match (← get).slot? id with
  | some (.local, slot) => emitWith .getLocal slot line
  | some (.global, slot) => emitWith .getGlobal slot line
  | none => emit .loadNull line

/-- Stores the value on top of the stack, which stays there. -/
def emitStore (id : SymbolId) (line : Nat) : Gen κ Unit := do
  match (← get).slot? id with
  | some (.local, slot) => emitWith .setLocal slot line
  | some (.global, slot) => emitWith .setGlobal slot line
  | none => pure ()

def emitStore? (id : Option SymbolId) (line : Nat) : Gen κ Unit :=
  match id with
  | some id => emitStore id line
  | none => pure ()

/-- Makes the value on top of the stack a local. -/
def declareSlot (id : Option SymbolId) (span : Span) : Gen κ Unit := do
  match id with
  | some id =>
    let slot := (← get).height
    if slot = maxSlots then
      reportCode .tooManyLocals span
    modify fun d => { d with symbols := d.symbols.setSlot id slot, height := slot + 1 }
  | none => modify fun d => { d with height := d.height + 1 }

/-- Pops several values, up to 255 at once. -/
def emitPopMany (count line : Nat) : Gen κ Unit :=
  if 0 < count then do
    emitWith .popN (min count maxCount).toUInt8 line
    emitPopMany (count - maxCount) line
  else pure ()
termination_by count
decreasing_by
  unfold maxCount
  omega

/-- Pops locals at the end of their block. -/
def emitPops (count line : Nat) : Gen κ Unit :=
  if count = 1 then emit .pop line else emitPopMany count line

/-- A count as an operand; one that is too large is an error, and zero. -/
def countOperand (role : CountRole) (count : Nat) (span : Span) : Gen κ UInt8 := do
  if count ≤ maxCount then return count.toUInt8
  reportCode (.tooMany role count) span
  return 0

end ScriptMachine
