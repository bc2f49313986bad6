import ScriptMachine.Chunk.Basic

/-! # The heap

Objects live in numbered slots. A slot that is freed is used again under the
next generation, so that handles to the old object are recognised as stale
instead of reaching the new one. The heap does not know what native code is:
its type `κ` is left open. -/

namespace ScriptMachine

inductive ObjectKind where
  | function | list | native | string
  deriving DecidableEq, Repr, Inhabited

def ObjectKind.name : ObjectKind → String
  | .function => "function"
  | .list => "list"
  | .native => "native"
  | .string => "string"

/-- A function with its code. -/
structure Function where
  name : String
  arity : Nat
  chunk : Chunk
  deriving Repr, Inhabited

/-- A function of the host. -/
structure Native (κ : Type) where
  name : String
  arity : Nat
  code : κ
  deriving Repr, Inhabited

inductive Object (κ : Type) where
  | function (function : Function)
  | list (items : Array Value)
  | native (native : Native κ)
  | string (text : String)
  deriving Repr

namespace Object

variable {κ : Type}

def kind : Object κ → ObjectKind
  | .function _ => .function
  | .list _ => .list
  | .native _ => .native
  | .string _ => .string

/-- The objects that an object refers to: the items of a list and the constants
of a function. -/
def children : Object κ → List Handle
  | .function f => f.chunk.constants.toList.filterMap Value.handle?
  | .list items => items.toList.filterMap Value.handle?
  | .native _ | .string _ => []

end Object

/-- How far a collection has come with an object: not reached, reached, or
reached together with all it refers to. -/
inductive Color where
  | white | gray | black
  deriving DecidableEq, Repr, Inhabited

/-- An object in its slot. Between collections it is white. -/
structure Entry (κ : Type) where
  color : Color
  object : Object κ
  deriving Repr

/-- A place for an object, with the generation of the handles that reach it. -/
structure Slot (κ : Type) where
  generation : UInt32
  entry : Option (Entry κ)
  deriving Repr, Inhabited

structure HeapStats where
  allocated : Nat := 0
  live : Nat := 0
  peakLive : Nat := 0
  collections : Nat := 0
  lastFreed : Nat := 0
  lastLive : Nat := 0
  deriving DecidableEq, Repr, Inhabited

/-- The heap. `free` is the stack of vacant slots, the next one to use last. -/
structure Heap (κ : Type) where
  slots : Array (Slot κ) := #[]
  free : Array Nat := #[]
  stats : HeapStats := {}
  deriving Repr, Inhabited

/-- Why a handle does not reach what it should. -/
inductive HeapFault where
  | stale (handle : Handle)
  | wrongKind (expected found : ObjectKind)
  deriving DecidableEq, Repr, Inhabited

def HeapFault.message : HeapFault → String
  | .stale handle =>
    "stale object reference (slot " ++ toString handle.index ++ ", generation " ++
      toString handle.generation ++ ")"
  | .wrongKind expected found => "expected " ++ expected.name ++ ", found " ++ found.name

namespace HeapStats

/-- The counts after one more allocation. -/
def allocate (s : HeapStats) : HeapStats :=
  { s with
    allocated := s.allocated + 1
    live := s.live + 1
    peakLive := max s.peakLive (s.live + 1) }

end HeapStats

namespace Heap

variable {κ : Type}

/-- The generation of the handles that reach a slot. -/
def generationAt (heap : Heap κ) (index : Nat) : UInt32 :=
  match heap.slots[index]? with
  | some slot => slot.generation
  | none => 0

/-- Puts a new object into the slot freed last, or into a new slot. -/
def alloc (heap : Heap κ) (object : Object κ) : Handle × Heap κ :=
  let entry : Option (Entry κ) := some ⟨.white, object⟩
  let stats := heap.stats.allocate
  match heap.free.back? with
  | some index =>
    (⟨index, heap.generationAt index⟩,
      { slots := heap.slots.modify index fun slot => { slot with entry },
        free := heap.free.pop, stats })
  | none => (⟨heap.slots.size, 0⟩, { heap with slots := heap.slots.push ⟨0, entry⟩, stats })

/-- The entry that a handle reaches, if its object is live. -/
def entry? (heap : Heap κ) (handle : Handle) : Option (Entry κ) :=
  match heap.slots[handle.index]? with
  | some slot => if slot.generation = handle.generation then slot.entry else none
  | none => none

/-- The object that a handle reaches. -/
def get (heap : Heap κ) (handle : Handle) : Except HeapFault (Object κ) :=
  match heap.entry? handle with
  | some entry => .ok entry.object
  | none => .error (.stale handle)

def isLive (heap : Heap κ) (handle : Handle) : Bool := (heap.entry? handle).isSome

def kind (heap : Heap κ) (handle : Handle) : Except HeapFault ObjectKind :=
  match heap.get handle with
  | .ok object => .ok object.kind
  | .error e => .error e

def function (heap : Heap κ) (handle : Handle) : Except HeapFault Function :=
  match heap.get handle with
  | .ok (.function f) => .ok f
  | .ok object => .error (.wrongKind .function object.kind)
  | .error e => .error e

def list (heap : Heap κ) (handle : Handle) : Except HeapFault (Array Value) :=
  match heap.get handle with
  | .ok (.list items) => .ok items
  | .ok object => .error (.wrongKind .list object.kind)
  | .error e => .error e

def string (heap : Heap κ) (handle : Handle) : Except HeapFault String :=
  match heap.get handle with
  | .ok (.string text) => .ok text
  | .ok object => .error (.wrongKind .string object.kind)
  | .error e => .error e

def native (heap : Heap κ) (handle : Handle) : Except HeapFault (Native κ) :=
  match heap.get handle with
  | .ok (.native n) => .ok n
  | .ok object => .error (.wrongKind .native object.kind)
  | .error e => .error e

/-- Changes the object that a handle reaches; a stale handle changes nothing. -/
def modifyObject (heap : Heap κ) (handle : Handle) (f : Object κ → Object κ) : Heap κ :=
  { heap with
    slots := heap.slots.modify handle.index fun slot =>
      if slot.generation = handle.generation then
        { slot with entry := slot.entry.map fun entry => { entry with object := f entry.object } }
      else slot }

/-- Changes the items of a list; a handle that reaches no list changes
nothing. -/
def modifyList (heap : Heap κ) (handle : Handle) (f : Array Value → Array Value) : Heap κ :=
  { heap with
    slots := heap.slots.modify handle.index fun
      | ⟨generation, some ⟨color, .list items⟩⟩ =>
        ⟨generation, some ⟨color, .list
          (if generation = handle.generation then f items else items)⟩⟩
      | slot => slot }

/-- Changes the object that a handle reaches, which must not be stale. -/
def mutate (heap : Heap κ) (handle : Handle) (f : Object κ → Object κ) :
    Except HeapFault (Heap κ) :=
  match heap.get handle with
  | .ok _ => .ok (heap.modifyObject handle f)
  | .error e => .error e

/-- Changes the items of the list that a handle reaches, which must reach one. -/
def mutateList (heap : Heap κ) (handle : Handle) (f : Array Value → Array Value) :
    Except HeapFault (Heap κ) :=
  match heap.list handle with
  | .ok _ => .ok (heap.modifyList handle f)
  | .error e => .error e

/-- What kind of thing a value is, in words. -/
def typeName (heap : Heap κ) : Value → String
  | .null => "null"
  | .bool _ => "bool"
  | .number _ => "number"
  | .object handle =>
    match heap.kind handle with
    | .ok kind => kind.name
    | .error _ => "freed"

end Heap

end ScriptMachine
