import ScriptMachine.Chunk.Instruction
import ScriptMachine.Codegen.Statement
import ScriptMachine.Proofs.Machine.Actions

/-!
# What single instructions do

For every instruction, what `perform` does to a memory whose stack is given by
its topmost values. Operators are applied by `BinaryOp.apply` and
`UnaryOp.apply`, elements of lists are read and written by `Heap.element` and
`Heap.withElement`, and methods are found by `Heap.method`. None of these knows
of a stack, and equality and the words for types are spelt out for them anew.
-/

namespace ScriptMachine

variable {κ σ : Type}

/-! ## Operators -/

/-- Whether values are the same to a program. Numbers compare as numbers and
objects by identity; values of different types are never the same. -/
def Value.same : Value → Value → Bool
  | .null, .null => true
  | .bool a, .bool b => a == b
  | .number a, .number b => a == b
  | .object a, .object b => a == b
  | _, _ => false

theorem Value.same_eq (v w : Value) : v.same w = v.equals w := by
  cases v <;> cases w <;> rfl

/-- An operator on numbers. -/
def BinaryOp.onNumbers (a b : Float) : BinaryOp → Value
  | .add => .number (a + b)
  | .sub => .number (a - b)
  | .mul => .number (a * b)
  | .div => .number (a / b)
  | .floorDiv => .number (a / b).floor
  | .mod => .number (remainder a b)
  | .equal => .bool (a == b)
  | .notEqual => .bool (a != b)
  | .less => .bool (a < b)
  | .lessEqual => .bool (a ≤ b)
  | .greater => .bool (b < a)
  | .greaterEqual => .bool (b ≤ a)

/-- The value of a binary operation. Any two values can be compared for
equality, the other operators take numbers. -/
def BinaryOp.apply (op : BinaryOp) (left right : Value) : Except Fault Value :=
  match op, left, right with
  | .equal, left, right => .ok (.bool (left.same right))
  | .notEqual, left, right => .ok (.bool !(left.same right))
  | op, .number a, .number b => .ok (op.onNumbers a b)
  | _, _, _ => .error .operandsNotNumbers

def UnaryOp.apply (op : UnaryOp) (operand : Value) : Except Fault Value :=
  match op, operand with
  | .neg, .number a => .ok (.number (-a))
  | .not, .bool b => .ok (.bool !b)
  | .neg, _ => .error .operandNotNumber
  | .not, _ => .error .operandNotBoolean

namespace Heap

/-- The list that a value refers to, as something that can be indexed. -/
def subscripted (heap : Heap κ) (base : Value) : Except Fault (Handle × Array Value) :=
  match base with
  | .object handle =>
    match heap.get handle with
    | .ok (.list items) => .ok (handle, items)
    | .ok _ => .error .notSubscriptable
    | .error fault => .error (.heap fault)
  | _ => .error .notSubscriptable

/-- The element of a list at an index. -/
def element (heap : Heap κ) (base index : Value) : Except Fault Value :=
  match heap.subscripted base with
  | .error fault => .error fault
  | .ok (_, items) =>
    match listPosition index items.size with
    | .ok ⟨position, _⟩ => .ok items[position]
    | .error fault => .error fault

/-- The heap with an element of a list replaced. -/
def withElement (heap : Heap κ) (base index value : Value) : Except Fault (Heap κ) :=
  match heap.subscripted base with
  | .error fault => .error fault
  | .ok (handle, items) =>
    match listPosition index items.size with
    | .ok position => .ok (heap.modifyList handle (·.setIfInBounds position value))
    | .error fault => .error fault

end Heap

/-- The word for the type of a value. -/
def Heap.typeWord (heap : Heap κ) : Value → String
  | .null => "null"
  | .bool _ => "bool"
  | .number _ => "number"
  | .object handle =>
    match heap.get handle with
    | .ok (.function _) => "function"
    | .ok (.list _) => "list"
    | .ok (.native _) => "native"
    | .ok (.string _) => "string"
    | .error _ => "freed"

theorem Heap.typeWord_eq (heap : Heap κ) (value : Value) :
    heap.typeWord value = heap.typeName value := by
  cases value with
  | object handle =>
    simp only [Heap.typeWord, Heap.typeName, Heap.kind]
    cases heap.get handle with
    | error fault => rfl
    | ok object => cases object <;> rfl
  | _ => rfl

/-- The native behind a method of a value. -/
def Heap.method (heap : Heap κ) (methods : MethodTable) (name : String) (receiver : Value) :
    Except Fault (Native κ) :=
  match receiver with
  | .object handle =>
    match heap.kind handle with
    | .error fault => .error (.heap fault)
    | .ok kind =>
      match methods.lookup (kind, name) with
      | none => .error (.undefinedMethod name (heap.typeWord receiver))
      | some native =>
        match heap.native native with
        | .ok native => .ok native
        | .error fault => .error (.heap fault)
  | _ => .error (.undefinedMethod name (heap.typeWord receiver))

/-! ## Instructions that push one value -/

/-- The outcome of an instruction whose last act is to push a value. -/
def placed (config : Config) (m : Memory κ σ) (value : Value) :
    EStateM.Result Fault (Memory κ σ) Transfer :=
  if config.maxStack ≤ m.stack.size then .error .stackOverflow m
  else .ok .next { m with stack := m.stack.push value }

/-- The outcome of an instruction that pushes a value if there is one. -/
def placedOr (config : Config) (m : Memory κ σ) :
    Except Fault Value → EStateM.Result Fault (Memory κ σ) Transfer
  | .ok value => placed config m value
  | .error fault => .error fault m

theorem push_next (config : Config) (value : Value) (m : Memory κ σ) :
    (do push config value; return .next : Act κ σ Transfer) m = placed config m value := by
  by_cases hfull : config.maxStack ≤ m.stack.size
  · simp [act_bind, push_apply, placed, hfull]
  · simp [act_bind, push_apply, placed, hfull]

section Perform

variable {env : Environment κ σ} {frame : Frame} {m : Memory κ σ} {rest : Array Value}

/-- Operand bytes that an instruction does not have do not matter. -/
theorem perform_bare {op : Opcode} (hop : op.layout.width = 0) (first second : UInt8) :
    perform env frame ⟨op, first, second⟩ m = perform env frame { opcode := op } m := by
  cases op <;> first | rfl | cases hop

theorem perform_byte {op : Opcode} (hop : op.layout.width = 1) (first second : UInt8) :
    perform env frame ⟨op, first, second⟩ m = perform env frame ⟨op, first, 0⟩ m := by
  cases op <;> first | rfl | cases hop

theorem pop_push {value : Value} (h : m.stack = rest.push value) :
    pop m = .ok value { m with stack := rest } := by
  rw [pop_apply, h]
  simp

theorem pop_pop {left right : Value} (h : m.stack = (rest.push left).push right)
    (k : Value → Value → Act κ σ Transfer) :
    (do let right ← pop; let left ← pop; k left right : Act κ σ Transfer) m =
      k left right { m with stack := rest } := by
  rw [act_bind, pop_push h]
  dsimp only
  rw [act_bind, pop_push rfl]

theorem peek_push {value : Value} (h : m.stack = rest.push value) : peek 0 m = .ok value m := by
  rw [peek_apply, h]
  simp

theorem perform_constant {index : UInt8} {value : Value}
    (h : frame.function.chunk.constants[index.toNat]? = some value) :
    perform env frame ⟨.constant, index, 0⟩ m = placed env.config m value := by
  have hconstant : constantAt (κ := κ) (σ := σ) frame index = pure value := by
    rw [constantAt, h]
  show (constantAt frame index >>= fun value => do push env.config value; return .next :
    Act κ σ Transfer) m = _
  rw [hconstant]
  exact push_next _ _ _

theorem perform_loadNull : perform env frame { opcode := .loadNull } m =
    placed env.config m .null :=
  push_next _ _ _

theorem perform_loadTrue :
    perform env frame { opcode := .loadTrue } m = placed env.config m (.bool true) :=
  push_next _ _ _

theorem perform_loadFalse :
    perform env frame { opcode := .loadFalse } m = placed env.config m (.bool false) :=
  push_next _ _ _

theorem perform_getLocal {slot : UInt8} {value : Value}
    (h : m.stack[frame.base + slot.toNat]? = some value) :
    perform env frame ⟨.getLocal, slot, 0⟩ m = placed env.config m value := by
  rw [← push_next]
  simp only [perform, act_bind, act_get, h]

theorem perform_getGlobal {slot : UInt8} {value : Value}
    (h : m.globals[slot.toNat]? = some value) :
    perform env frame ⟨.getGlobal, slot, 0⟩ m = placed env.config m value := by
  rw [← push_next]
  simp only [perform, act_bind, act_get, h]

/-! ## Operators on the stack -/

/-- What an operation on two numbers makes of two values. -/
def numericResult (f : Float → Float → Value) : Value → Value → Except Fault Value
  | .number a, .number b => .ok (f a b)
  | _, _ => .error .operandsNotNumbers

theorem perform_binary {left right : Value} (op : BinaryOp)
    (h : m.stack = (rest.push left).push right) :
    perform env frame { opcode := op.opcode } m =
      placedOr env.config { m with stack := rest } (op.apply left right) := by
  have hnumeric : ∀ f : Float → Float → Value,
      (do numericBinary env.config f; return .next : Act κ σ Transfer) m =
        placedOr env.config { m with stack := rest } (numericResult f left right) := by
    intro f
    unfold numericBinary
    cases left with
    | number a =>
      cases right with
      | number b =>
        refine Eq.trans ?_ (push_next env.config (f a b) { m with stack := rest })
        simp only [act_bind, pop_push h, pop_push (m := { m with stack := rest.push _ }) rfl]
      | _ =>
        simp only [act_bind, pop_push h, pop_push (m := { m with stack := rest.push _ }) rfl]
        rfl
    | _ =>
      simp only [act_bind, pop_push h, pop_push (m := { m with stack := rest.push _ }) rfl]
      rfl
  cases op with
  | equal =>
    rw [BinaryOp.apply, Value.same_eq]
    exact (pop_pop h _).trans (push_next _ _ _)
  | notEqual =>
    rw [BinaryOp.apply, Value.same_eq]
    exact (pop_pop h _).trans (push_next _ _ _)
  | _ => 
    refine (hnumeric _).trans ?_
    cases left <;> cases right <;> rfl

theorem perform_unary {operand : Value} (op : UnaryOp) (h : m.stack = rest.push operand) :
    perform env frame { opcode := op.opcode } m =
      placedOr env.config { m with stack := rest } (op.apply operand) := by
  cases op with
  | neg =>
    cases operand with
    | number a =>
      refine Eq.trans ?_ (push_next env.config (.number (-a)) { m with stack := rest })
      simp only [perform, UnaryOp.opcode, act_bind, pop_push h]
    | _ =>
      simp only [perform, UnaryOp.opcode, act_bind, pop_push h]
      rfl
  | not =>
    cases operand with
    | bool b =>
      refine Eq.trans ?_ (push_next env.config (.bool !b) { m with stack := rest })
      simp only [perform, UnaryOp.opcode, act_bind, pop_push h]
    | _ =>
      simp only [perform, UnaryOp.opcode, act_bind, pop_push h]
      rfl

/-! ## Moving values -/

theorem perform_pop {value : Value} (h : m.stack = rest.push value) :
    perform env frame { opcode := .pop } m = .ok .next { m with stack := rest } := by
  simp only [perform, act_bind, pop_push h]
  rfl

theorem perform_popN (count : UInt8) :
    perform env frame ⟨.popN, count, 0⟩ m =
      .ok .next { m with stack := m.stack.shrink (m.stack.size - count.toNat) } := rfl

theorem perform_setLocal {slot : UInt8} {value : Value} (h : m.stack = rest.push value)
    (hslot : frame.base + slot.toNat < m.stack.size) :
    perform env frame ⟨.setLocal, slot, 0⟩ m =
      .ok .next { m with stack := m.stack.setIfInBounds (frame.base + slot.toNat) value } := by
  simp only [perform, act_bind, act_get]
  rw [if_neg (Nat.not_le.2 hslot)]
  simp only [act_bind, peek_push h]
  rfl

theorem perform_setGlobal {slot : UInt8} {value : Value} (h : m.stack = rest.push value)
    (hslot : slot.toNat < m.globals.size) :
    perform env frame ⟨.setGlobal, slot, 0⟩ m =
      .ok .next { m with globals := m.globals.setIfInBounds slot.toNat value } := by
  simp only [perform, act_bind, peek_push h, act_get]
  rw [if_neg (Nat.not_le.2 hslot)]
  rfl

theorem perform_print {value : Value} (h : m.stack = rest.push value) :
    perform env frame { opcode := .print } m =
      .ok .next { m with stack := rest, output := m.output ++ m.heap.display value ++ "\n" } := by
  simp only [perform, act_bind, pop_push h]
  rfl

/-! ## Lists -/

theorem perform_makeList {count : UInt8} (h : count.toNat ≤ m.stack.size) :
    perform env frame ⟨.makeList, count, 0⟩ m =
      let items := m.stack.extract (m.stack.size - count.toNat) m.stack.size
      placed env.config
        { m with
          heap := (m.heap.alloc (.list items)).2
          stack := m.stack.shrink (m.stack.size - count.toNat) }
        (.object (m.heap.alloc (.list items)).1) := by
  simp only
  rw [← push_next]
  simp only [perform, act_bind, popMany_apply, if_neg (Nat.not_lt.2 h), act_modifyGet]

theorem subscript_apply (base : Value) :
    subscript base m = match m.heap.subscripted base with
      | .ok (handle, _) => .ok handle m
      | .error fault => .error fault m := by
  unfold subscript Heap.subscripted
  cases base with
  | object handle =>
    simp only [act_bind, act_get, Heap.kind]
    cases m.heap.get handle with
    | error fault => rfl
    | ok object => cases object <;> simp [Object.kind]
  | _ => rfl

theorem Heap.list_of_subscripted {heap : Heap κ} {base : Value} {handle : Handle}
    {items : Array Value} (h : heap.subscripted base = .ok (handle, items)) :
    heap.list handle = .ok items := by
  unfold Heap.subscripted at h
  split at h
  · split at h
    · next hget =>
      cases h
      simp [Heap.list, hget]
    · cases h
    · cases h
  · cases h

/-- An element is an item of a list. -/
theorem Heap.exists_list_of_element {heap : Heap κ} {base index value : Value}
    (h : heap.element base index = .ok value) :
    ∃ handle items, heap.list handle = .ok items ∧ value ∈ items := by
  unfold Heap.element at h
  split at h
  · cases h
  · next handle items hfound =>
    split at h
    · cases h
      exact ⟨handle, items, list_of_subscripted hfound, Array.getElem_mem _⟩
    · cases h

/-- Replacing an element changes one item of a list. -/
theorem Heap.exists_eq_of_withElement {heap heap' : Heap κ} {base index value : Value}
    (h : heap.withElement base index value = .ok heap') :
    ∃ (handle : Handle) (position : Nat),
      heap' = heap.modifyList handle (·.setIfInBounds position value) := by
  unfold Heap.withElement at h
  split at h
  · cases h
  · split at h
    · cases h
      exact ⟨_, _, rfl⟩
    · cases h

theorem getElement_apply (base index : Value) :
    getElement base index m = match m.heap.element base index with
      | .ok value => .ok value m
      | .error fault => .error fault m := by
  unfold getElement Heap.element
  rw [act_bind, subscript_apply]
  cases hbase : m.heap.subscripted base with
  | error fault => rfl
  | ok found =>
    obtain ⟨handle, items⟩ := found
    simp only [act_bind, act_get, Heap.list_of_subscripted hbase, onHeap_ok]
    cases listPosition index items.size <;> rfl

theorem setElement_apply (base index value : Value) :
    setElement base index value m = match m.heap.withElement base index value with
      | .ok heap => .ok () { m with heap }
      | .error fault => .error fault m := by
  unfold setElement Heap.withElement
  rw [act_bind, subscript_apply]
  cases hbase : m.heap.subscripted base with
  | error fault => rfl
  | ok found =>
    obtain ⟨handle, items⟩ := found
    simp only [act_bind, act_get, Heap.list_of_subscripted hbase, onHeap_ok]
    cases listPosition index items.size <;> rfl

theorem perform_getIndex {base index : Value} (h : m.stack = (rest.push base).push index) :
    perform env frame { opcode := .getIndex } m =
      placedOr env.config { m with stack := rest } (m.heap.element base index) := by
  refine (pop_pop h _).trans ?_
  rw [act_bind, getElement_apply]
  cases m.heap.element base index with
  | ok value => exact push_next _ _ _
  | error fault => rfl

theorem perform_setIndex {base index value : Value}
    (h : m.stack = ((rest.push base).push index).push value) :
    perform env frame { opcode := .setIndex } m =
      match m.heap.withElement base index value with
      | .ok heap => placed env.config { m with stack := rest, heap } value
      | .error fault => .error fault { m with stack := rest } := by
  simp only [perform, act_bind, pop_push h,
    pop_push (m := { m with stack := (rest.push base).push index }) rfl,
    pop_push (m := { m with stack := rest.push base }) rfl, setElement_apply]
  cases m.heap.withElement base index value with
  | ok heap =>
    dsimp only
    rw [← push_next, act_bind]
  | error fault => rfl

/-! ## Transfers -/

theorem perform_jump (first second : UInt8) :
    perform env frame ⟨.jump, first, second⟩ m = .ok (.jump (Chunk.wordOf first second)) m := rfl

/-- The outcome of a conditional jump. -/
def jumped (expected : Bool) (distance : Nat) (m : Memory κ σ) :
    Value → EStateM.Result Fault (Memory κ σ) Transfer
  | .bool value => .ok (if value = expected then .jump distance else .next) m
  | _ => .error .operandNotBoolean m

theorem jumpIf_apply {value : Value} (h : m.stack = rest.push value) (expected : Bool)
    (distance : Nat) : jumpIf expected distance m = jumped expected distance m value := by
  unfold jumpIf
  rw [act_bind, peek_push h]
  cases value <;> rfl

theorem perform_jumpIfFalse {value : Value} (h : m.stack = rest.push value) (first second : UInt8) :
    perform env frame ⟨.jumpIfFalse, first, second⟩ m =
      jumped false (Chunk.wordOf first second) m value := jumpIf_apply h _ _

theorem perform_jumpIfTrue {value : Value} (h : m.stack = rest.push value) (first second : UInt8) :
    perform env frame ⟨.jumpIfTrue, first, second⟩ m =
      jumped true (Chunk.wordOf first second) m value := jumpIf_apply h _ _

theorem perform_ret {value : Value} (h : m.stack = rest.push value) :
    perform env frame { opcode := .ret } m = .ok (.leave value) { m with stack := rest } := by
  simp only [perform, act_bind, pop_push h]
  rfl

/-! ## Calls -/

/-- The outcome of a call of native code, whose result takes the place of the
topmost `popped` values. -/
def nativeCalled (env : Environment κ σ) (m : Memory κ σ) (popped : Nat) (code : κ)
    (args : List Value) : EStateM.Result Fault (Memory κ σ) Transfer :=
  let outcome := env.call code args (m.heap, m.host)
  let m := { m with heap := outcome.2.1, host := outcome.2.2 }
  match outcome.1 with
  | .ok value => placed env.config { m with stack := m.stack.shrink (m.stack.size - popped) } value
  | .error message => .error (.native message) m

theorem callNative_next (code : κ) (popped argc : Nat) :
    (do callNative env code popped argc; return .next : Act κ σ Transfer) m =
      nativeCalled env m popped code
        (m.stack.extract (m.stack.size - argc) m.stack.size).toList := by
  rw [act_bind, callNative_apply]
  simp only [nativeCalled]
  generalize env.call code _ (m.heap, m.host) = outcome
  cases outcome.1 with
  | error message => rfl
  | ok value =>
    dsimp only
    rw [← push_next, act_bind]

/-- The outcome of a call of a value with `argc` arguments. -/
def called (env : Environment κ σ) (m : Memory κ σ) (argc : Nat) :
    Value → EStateM.Result Fault (Memory κ σ) Transfer
  | .object handle =>
    match m.heap.get handle with
    | .error fault => .error (.heap fault) m
    | .ok (.function f) =>
      if f.arity ≠ argc then .error (.arity f.name f.arity argc) m
      else .ok (.enter handle f argc) m
    | .ok (.native n) =>
      if n.arity ≠ argc then .error (.arity n.name n.arity argc) m
      else nativeCalled env m (argc + 1) n.code
        (m.stack.extract (m.stack.size - argc) m.stack.size).toList
    | .ok object => .error (.notCallable object.kind.name) m
  | callee => .error (.notCallable (m.heap.typeName callee)) m

theorem perform_call {count : UInt8} {callee : Value} (hcount : count.toNat < m.stack.size)
    (h : m.stack[m.stack.size - (count.toNat + 1)]? = some callee) :
    perform env frame ⟨.call, count, 0⟩ m = called env m count.toNat callee := by
  show callValue env count.toNat m = _
  rw [callValue_apply, peek_apply, if_pos hcount, h]
  cases callee with
  | object handle =>
    unfold called
    dsimp only
    cases m.heap.get handle with
    | error fault => rfl
    | ok object =>
      cases object with
      | native n =>
        dsimp only
        rw [callNative_next]
      | _ => rfl
  | _ => rfl

theorem findMethod_bind (name : String) (receiver : Value) (k : Native κ → Act κ σ Transfer) :
    (do
      let method ← findMethod env name receiver
      let native ← onHeap ((← get).heap.native method)
      k native : Act κ σ Transfer) m =
      match m.heap.method env.methods name receiver with
      | .ok native => k native m
      | .error fault => .error fault m := by
  unfold findMethod Heap.method MethodTable.find?
  rw [Heap.typeWord_eq]
  cases receiver with
  | object handle =>
    simp only [act_bind, act_get]
    cases m.heap.kind handle with
    | error fault => rfl
    | ok kind =>
      simp only [onHeap_ok, act_pure]
      cases env.methods.lookup (kind, name) with
      | none => rfl
      | some method =>
        simp only [act_pure]
        cases m.heap.native method <;> rfl
  | _ => rfl

/-- The outcome of a call of a method with `argc` arguments. -/
def invoked (env : Environment κ σ) (m : Memory κ σ) (argc : Nat) (name : String)
    (receiver : Value) : EStateM.Result Fault (Memory κ σ) Transfer :=
  match m.heap.method env.methods name receiver with
  | .error fault => .error fault m
  | .ok native =>
    if native.arity ≠ argc then .error (.arity native.name native.arity argc) m
    else nativeCalled env m (argc + 1) native.code
      (m.stack.extract (m.stack.size - (argc + 1)) m.stack.size).toList

theorem perform_invoke {index count : UInt8} {handle : Handle} {name : String} {receiver : Value}
    (hname : frame.function.chunk.constants[index.toNat]? = some (.object handle))
    (hstring : m.heap.get handle = .ok (.string name)) (hcount : count.toNat < m.stack.size)
    (h : m.stack[m.stack.size - (count.toNat + 1)]? = some receiver) :
    perform env frame ⟨.invoke, index, count⟩ m = invoked env m count.toNat name receiver := by
  have hcode : perform env frame ⟨.invoke, index, count⟩ m = (do
      let method ← findMethod env name receiver
      let native ← onHeap ((← get).heap.native method)
      checkArity native.name native.arity count.toNat
      callNative env native.code (count.toNat + 1) (count.toNat + 1)
      return .next : Act κ σ Transfer) m := by
    simp only [perform, act_bind, constantAt, hname, act_pure, invoke, act_get,
      Heap.string, hstring,
      onHeap_ok, peek_apply, if_pos hcount, h]
    cases findMethod env name receiver m with
    | error fault m₁ => rfl
    | ok method m₁ =>
      dsimp only
      cases (onHeap (m₁.heap.native method) : Act κ σ (Native κ)) m₁ with
      | error fault m₂ => rfl
      | ok native m₂ =>
        dsimp only
        cases checkArity native.name native.arity count.toNat m₂ <;> rfl
  rw [hcode, findMethod_bind, invoked]
  cases m.heap.method env.methods name receiver with
  | error fault => rfl
  | ok native =>
    dsimp only
    rw [act_bind, checkArity_apply]
    by_cases harity : native.arity = count.toNat
    · rw [if_neg (fun hne => hne harity), if_neg (fun hne => hne harity)]
      exact callNative_next _ _ _
    · rw [if_pos harity, if_pos harity]

end Perform

end ScriptMachine
