import ScriptMachine.Machine.State

/-! # Built-in functions

The functions every program can call without declaring them: `clock` and `type`,
and the methods `push`, `pop` and `len` of lists. The readings of the clock are
given from outside, as a sequence. -/

namespace ScriptMachine

inductive Builtin where
  | clock | type | push | pop | len
  deriving DecidableEq, Repr, Inhabited

/-- Native code: a built-in function, or one that the host adds. -/
inductive NativeCode (ε : Type) where
  | builtin (builtin : Builtin)
  | custom (code : ε)
  deriving Repr

/-- What native code works on besides the heap: how often the clock has been
read, and the state of the host's own functions. -/
structure HostState (τ : Type) where
  readings : Nat := 0
  custom : τ
  deriving Repr

/-- The heap and the state of the host. -/
abbrev World (ε τ : Type) := Heap (NativeCode ε) × HostState τ

/-- A host: the readings of its clock, and its own functions. -/
structure Host (ε τ : Type) where
  clock : Nat → Float
  custom : ε → List Value → World ε τ → Except String Value × World ε τ

variable {ε τ : Type}

namespace Builtin

/-- Executes a built-in function. -/
def call (clock : Nat → Float) : Builtin → List Value → World ε τ →
    Except String Value × World ε τ
  | .clock, _, (heap, host) =>
    (.ok (.number (clock host.readings)), (heap, { host with readings := host.readings + 1 }))
  | .type, [value], (heap, host) =>
    let name := heap.typeName value
    let (handle, heap) := heap.alloc (.string name)
    (.ok (.object handle), (heap, host))
  | .type, _, world => (.error "type expects 1 argument", world)
  | .push, [.object list, value], (heap, host) =>
    match heap.list list with
    | .ok _ => (.ok .null, (heap.modifyList list (·.push value), host))
    | .error fault => (.error fault.message, (heap, host))
  | .push, _, world => (.error "push expects a list receiver and 1 argument", world)
  | .pop, [.object list], (heap, host) =>
    match heap.list list with
    | .ok items =>
      match items.back? with
      | some value => (.ok value, (heap.modifyList list Array.pop, host))
      | none => (.error "pop from empty list", (heap, host))
    | .error fault => (.error fault.message, (heap, host))
  | .pop, _, world => (.error "pop expects a list receiver", world)
  | .len, [.object list], (heap, host) =>
    match heap.list list with
    | .ok items => (.ok (.number (Float.ofNat items.size)), (heap, host))
    | .error fault => (.error fault.message, (heap, host))
  | .len, _, world => (.error "len expects a list receiver", world)

end Builtin

/-- Executes native code on a host. -/
def Host.call (host : Host ε τ) : NativeCall (NativeCode ε) (HostState τ)
  | .builtin b, args, world => b.call host.clock args world
  | .custom code, args, world => host.custom code args world

/-- A host without functions of its own. -/
def Host.plain (clock : Nat → Float) : Host Empty Unit := ⟨clock, fun code => nomatch code⟩

end ScriptMachine
