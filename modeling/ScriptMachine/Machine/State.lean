import ScriptMachine.Heap.Collect
import ScriptMachine.Machine.Fault

/-! # The state of the machine

A run works on memory (heap, value stack, globals, output) and on a stack of
call frames. What stays fixed during a run is its environment: the limits, the
methods, and the host that executes native code. -/

namespace ScriptMachine

/-- When garbage is collected: after every instruction, or once the number of
live objects reaches a threshold, which is then twice the number that survived
but at least the given minimum. -/
inductive CollectPolicy where
  | always
  | threshold (minimum : Nat)
  deriving DecidableEq, Repr, Inhabited

/-- The number of live objects at which a fresh machine collects first. -/
def CollectPolicy.initial : CollectPolicy → Nat
  | .always => 0
  | .threshold minimum => minimum

structure Config where
  maxFrames : Nat
  maxStack : Nat
  policy : CollectPolicy
  deriving DecidableEq, Repr, Inhabited

namespace Config

/-- How many stack slots there are for each frame. -/
def slotsPerFrame : Nat := 256

/-- The largest count that fits into a machine word. -/
def maxWord : Nat := UInt64.size - 1

/-- The least number of live objects at which garbage is collected. -/
def minThreshold : Nat := 1024

/-- Limits for a call depth; the stack grows with it as far as a machine word
goes. -/
def withMaxFrames (maxFrames : Nat) : Config :=
  { maxFrames
    maxStack := min (maxFrames * slotsPerFrame) maxWord
    policy := .threshold minThreshold }

def default : Config := withMaxFrames 256

end Config

/-- The methods of each kind of object. -/
abbrev MethodTable := List ((ObjectKind × String) × Handle)

namespace MethodTable

def find? (methods : MethodTable) (kind : ObjectKind) (name : String) : Option Handle :=
  methods.lookup (kind, name)

/-- Adds a method in place of one with the same name. -/
def define (methods : MethodTable) (kind : ObjectKind) (name : String) (native : Handle) :
    MethodTable :=
  ((kind, name), native) :: methods.filter (·.1 ≠ (kind, name))

end MethodTable

/-- Executes native code `κ` on its arguments. It may change the heap and the
host's own state `σ`, also when it fails. -/
abbrev NativeCall (κ σ : Type) :=
  κ → List Value → Heap κ × σ → Except String Value × (Heap κ × σ)

/-- What stays fixed during a run. -/
structure Environment (κ σ : Type) where
  config : Config
  methods : MethodTable
  call : NativeCall κ σ

/-- A call in progress. Local slot zero is at `base` on the stack; the callee
lies just below. The function that runs is the one at `handle`; `function` is what
was read there last. -/
structure Frame where
  handle : Handle
  function : Function
  base : Nat
  ip : Nat
  deriving Repr, Inhabited

/-- What a run works on. -/
structure Memory (κ σ : Type) where
  heap : Heap κ
  stack : Array Value := #[]
  globals : Array Value := #[]
  output : String := ""
  collectAt : Nat
  host : σ

namespace Memory

variable {κ σ : Type}

/-- What keeps objects alive: the stack, the globals, the functions of the
active frames and the methods. -/
def roots (m : Memory κ σ) (methods : MethodTable) (frames : Array Frame) : Roots :=
  { stack := m.stack
    globals := m.globals
    frames := frames.toList.map (·.handle)
    pinned := methods.map fun (_, native) => .object native }

/-- Frees what is not reachable. -/
def collect (m : Memory κ σ) (methods : MethodTable) (frames : Array Frame) :
    CollectReport × Memory κ σ :=
  let roots := m.roots methods frames
  let (report, heap) := m.heap.collect roots
  (report, { m with heap })

/-- Collects garbage if the policy asks for it now. -/
def collectIfDue (m : Memory κ σ) (env : Environment κ σ) (frames : Array Frame) : Memory κ σ :=
  match env.config.policy with
  | .always => (m.collect env.methods frames).2
  | .threshold minimum =>
    if m.collectAt ≤ m.heap.stats.live then
      let (report, m) := m.collect env.methods frames
      { m with collectAt := max (2 * report.live) minimum }
    else m

section CollectIfDue

variable (m : Memory κ σ) (env : Environment κ σ) (frames : Array Frame)

@[simp] theorem stack_collectIfDue : (m.collectIfDue env frames).stack = m.stack := by
  unfold collectIfDue
  split
  · rfl
  · split <;> rfl

@[simp] theorem globals_collectIfDue : (m.collectIfDue env frames).globals = m.globals := by
  unfold collectIfDue
  split
  · rfl
  · split <;> rfl

end CollectIfDue

end Memory

end ScriptMachine
