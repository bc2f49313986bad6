import ScriptMachine.Library

/-! # Host functions given as data

A recipe describes a host function without code: what it returns, fails with or
does to the heap. Recipes are enough to embed the machine where functions of the
host cannot be passed in, and to put any code at all before the machine. -/

namespace ScriptMachine

/-- How to make a value: take one that exists, or allocate an object. -/
inductive ValueRecipe where
  | given (value : Value)
  | string (text : String)
  | list (items : List ValueRecipe)
  | function (name : String)
  deriving Repr, Inhabited

variable {κ : Type}

mutual

/-- Makes a value. The items of a list are made from left to right, before the
list itself. -/
def ValueRecipe.make : ValueRecipe → Heap κ → Value × Heap κ
  | .given value, heap => (value, heap)
  | .string text, heap =>
    let (handle, heap) := heap.alloc (.string text)
    (.object handle, heap)
  | .list items, heap =>
    let (items, heap) := makeAll items heap
    let (handle, heap) := heap.alloc (.list items.toArray)
    (.object handle, heap)
  | .function name, heap =>
    let (handle, heap) := heap.alloc (.function ⟨name, 0, {}⟩)
    (.object handle, heap)
termination_by structural recipe => recipe

def ValueRecipe.makeAll : List ValueRecipe → Heap κ → List Value × Heap κ
  | [], heap => ([], heap)
  | recipe :: recipes, heap =>
    let (value, heap) := recipe.make heap
    let (values, heap) := makeAll recipes heap
    (value :: values, heap)
termination_by structural recipes => recipes

end

/-- A host function given as data. The functions of one host share a cell that
keeps a value without keeping it alive. -/
inductive Recipe where
  | produce (value : ValueRecipe)
  | fail (message : String)
  | arg (index : Nat)
  | argCount
  | argList
  | stash
  | unstash
  | collect
  | apply
  | function (name : String) (arity : Nat) (code : List (UInt8 × Nat))
      (constants : List ValueRecipe)
  deriving Repr

namespace Recipe

/-- Executes a recipe. `apply` executes its first argument, a native, on the
others. -/
def call (clock : Nat → Float) (recipe : Recipe) (args : List Value) (world : World Recipe Value) :
    Except String Value × World Recipe Value :=
  match recipe, args, world with
  | .produce recipe, _, (heap, host) =>
    let (value, heap) := recipe.make heap
    (.ok value, (heap, host))
  | .fail message, _, world => (.error message, world)
  | .arg index, args, world =>
    match args[index]? with
    | some value => (.ok value, world)
    | none => (.error "no such argument", world)
  | .argCount, args, world => (.ok (.number (Float.ofNat args.length)), world)
  | .argList, args, (heap, host) =>
    let (handle, heap) := heap.alloc (.list args.toArray)
    (.ok (.object handle), (heap, host))
  | .stash, args, (heap, host) =>
    (.ok .null, (heap, { host with custom := args.getLastD .null }))
  | .unstash, _, (heap, host) => (.ok host.custom, (heap, host))
  | .collect, args, (heap, host) =>
    let (report, heap) := heap.collect { stack := args.toArray }
    (.ok (.number (Float.ofNat report.freed)), (heap, host))
  | .apply, .object handle :: args, (heap, host) =>
    match heap.native handle with
    | .ok ⟨_, _, .builtin b⟩ => b.call clock args (heap, host)
    | .ok ⟨_, _, .custom recipe⟩ => call clock recipe args (heap, host)
    | .error fault => (.error fault.message, (heap, host))
  | .apply, _, world => (.error "apply expects a native", world)
  | .function name arity code constants, _, (heap, host) =>
    let (constants, heap) := ValueRecipe.makeAll constants heap
    let chunk : Chunk := code.foldl (fun chunk (byte, line) => chunk.write byte line)
      { constants := constants.toArray }
    let (handle, heap) := heap.alloc (.function ⟨name, arity, chunk⟩)
    (.ok (.object handle), (heap, host))
termination_by args.length

/-- The host whose functions are recipes. Its cell starts as null. -/
def host (clock : Nat → Float) : Host Recipe Value := ⟨clock, call clock⟩

end Recipe

end ScriptMachine
