import ScriptMachine.Proofs.Codegen.Heights
import ScriptMachine.Proofs.Codegen.Liveness
import ScriptMachine.Proofs.Machine.Instructions

/-!
# Instructions on a stack that is high enough

An instruction that finds the stack as high as it needs, names what exists and
meets no dangling handle does not fail from within the machine: it ends in a
fault of the program or of a native, or it changes the height of the stack as it
should and leaves alone what lies below its frame (`perform_performed`).
-/

namespace ScriptMachine

variable {κ σ : Type}

/-! ## Faults -/

/-- Faults of the machine itself, which no program should be able to cause. -/
def Fault.Internal : Fault → Prop
  | .fetch _ | .noFrame | .stackUnderflow | .noLocal _ | .noGlobal _ | .methodNameNotString
  | .heap _ => True
  | _ => False

/-- Faults that native code reports. -/
def Fault.IsNative : Fault → Prop
  | .native _ => True
  | _ => False

/-- Faults of a program: neither the machine nor native code has caused them. -/
def Fault.Own (fault : Fault) : Prop := ¬fault.Internal ∧ ¬fault.IsNative

theorem Fault.internal_or_native_of_code {fault : Fault} (h : fault.code = "E0400") :
    fault.Internal ∨ ∃ message, fault = .native message := by
  cases fault with
  | native message => exact .inr ⟨message, rfl⟩
  | fetch _ | noFrame | stackUnderflow | noLocal _ | noGlobal _ | methodNameNotString | heap _ =>
    exact .inl trivial
  | _ => simp [Fault.code] at h

/-- A fault that a program may end with: its own, or one that native code
reports. -/
inductive Fault.Proper (env : Environment κ σ) : Fault → Prop
  | own {fault : Fault} (h : fault.Own) : Proper env fault
  | native {message : String} (code : κ) (args : List Value) (world : Heap κ × σ)
      (h : (env.call code args world).1 = .error message) : Proper env (.native message)

theorem Fault.Proper.not_internal {env : Environment κ σ} {fault : Fault} (h : fault.Proper env) :
    ¬fault.Internal := by
  cases h with
  | own h => exact h.1
  | native => exact id

theorem BinaryOp.own_of_apply {op : BinaryOp} {left right : Value} {fault : Fault}
    (h : op.apply left right = .error fault) : fault.Own := by
  unfold BinaryOp.apply at h
  split at h <;> cases h
  exact ⟨id, id⟩

theorem UnaryOp.own_of_apply {op : UnaryOp} {operand : Value} {fault : Fault}
    (h : op.apply operand = .error fault) : fault.Own := by
  unfold UnaryOp.apply at h
  split at h <;> cases h
  · exact ⟨id, id⟩
  · exact ⟨id, id⟩

theorem own_of_listPosition {index : Value} {size : Nat} {fault : Fault}
    (h : listPosition index size = .error fault) : fault.Own := by
  unfold listPosition at h
  split at h
  · split at h
    · split at h <;> cases h
      exact ⟨id, id⟩
    · cases h
      exact ⟨id, id⟩
  · cases h
    exact ⟨id, id⟩

section Heap

variable {heap : Heap κ}

theorem Heap.Holds.exists_get {handle : Handle} (h : heap.Holds (.object handle)) :
    ∃ object, heap.get handle = .ok object := Heap.isLive_iff.1 (h handle rfl)

theorem Heap.own_of_subscripted {base : Value} (hbase : heap.Holds base) {fault : Fault}
    (h : heap.subscripted base = .error fault) : fault.Own := by
  unfold Heap.subscripted at h
  split at h
  · next handle =>
    obtain ⟨object, hget⟩ := hbase.exists_get
    rw [hget] at h
    split at h
    · cases h
    · cases h
      exact ⟨id, id⟩
    · next heq => cases heq
  · cases h
    exact ⟨id, id⟩

theorem Heap.own_of_element {base index : Value} (hbase : heap.Holds base) {fault : Fault}
    (h : heap.element base index = .error fault) : fault.Own := by
  unfold Heap.element at h
  split at h
  · next hfound =>
    cases h
    exact Heap.own_of_subscripted hbase hfound
  · split at h
    · cases h
    · next hposition =>
      cases h
      exact own_of_listPosition hposition

theorem Heap.own_of_withElement {base index value : Value} (hbase : heap.Holds base) {fault : Fault}
    (h : heap.withElement base index value = .error fault) : fault.Own := by
  unfold Heap.withElement at h
  split at h
  · next hfound =>
    cases h
    exact Heap.own_of_subscripted hbase hfound
  · split at h
    · cases h
    · next hposition =>
      cases h
      exact own_of_listPosition hposition

/-- The methods of a table are natives on the heap. -/
def MethodTable.On (methods : MethodTable) (heap : Heap κ) : Prop :=
  ∀ method ∈ methods, ∃ native, heap.get method.2 = .ok (.native native)

theorem Heap.own_of_method {methods : MethodTable} (hmethods : methods.On heap) {name : String}
    {receiver : Value} (hreceiver : heap.Holds receiver) {fault : Fault}
    (h : heap.method methods name receiver = .error fault) : fault.Own := by
  unfold Heap.method at h
  split at h
  · next handle =>
    obtain ⟨object, hget⟩ := hreceiver.exists_get
    rw [show heap.kind handle = .ok object.kind by rw [Heap.kind, hget]] at h
    dsimp only at h
    split at h
    · cases h
      exact ⟨id, id⟩
    · next method hfind =>
      obtain ⟨before, after, rfl, -⟩ := List.lookup_eq_some_iff.1 hfind
      obtain ⟨native, hnative⟩ := hmethods ((object.kind, name), method) (by simp)
      rw [show heap.native method = .ok native by rw [Heap.native, hnative]] at h
      cases h
  · cases h
    exact ⟨id, id⟩

end Heap

/-! ## The stack below a frame -/

/-- The stacks are the same below `base`. -/
def SameBelow (base : Nat) (stack stack' : Array Value) : Prop :=
  ∀ j < base, stack'[j]? = stack[j]?

theorem SameBelow.refl (base : Nat) (stack : Array Value) : SameBelow base stack stack :=
  fun _ _ => rfl

theorem SameBelow.trans {base : Nat} {s s' s'' : Array Value} (h : SameBelow base s s')
    (h' : SameBelow base s' s'') : SameBelow base s s'' :=
  fun j hj => (h' j hj).trans (h j hj)

theorem SameBelow.mono {base base' : Nat} {s s' : Array Value} (h : SameBelow base s s')
    (hle : base' ≤ base) : SameBelow base' s s' :=
  fun j hj => h j (Nat.lt_of_lt_of_le hj hle)

theorem SameBelow.push {base : Nat} {s s' : Array Value} (h : SameBelow base s s')
    (hbase : base ≤ s'.size) (value : Value) : SameBelow base s (s'.push value) := by
  intro j hj
  rw [Array.getElem?_push, if_neg (by omega)]
  exact h j hj

theorem getElem?_shrink {α : Type} (xs : Array α) (n i : Nat) :
    (xs.shrink n)[i]? = if i < n then xs[i]? else none := by
  rw [Array.shrink_eq_take, Array.take_eq_extract, Array.getElem?_extract]
  split
  · next h => rw [if_pos (by omega), Nat.zero_add]
  · next h =>
    split
    · exact (Array.getElem?_eq_none (by omega)).symm
    · rfl

theorem SameBelow.shrink {base n : Nat} {s : Array Value} (h : base ≤ n) :
    SameBelow base s (s.shrink n) := by
  intro j hj
  rw [getElem?_shrink, if_pos (by omega)]

theorem SameBelow.set {base index : Nat} {s : Array Value} (h : base ≤ index) (value : Value) :
    SameBelow base s (s.setIfInBounds index value) := by
  intro j hj
  rw [Array.getElem?_setIfInBounds_ne (by omega)]

theorem SameBelow.of_push {base : Nat} {rest : Array Value} (h : base ≤ rest.size)
    (value : Value) : SameBelow base (rest.push value) rest := by
  intro j hj
  rw [Array.getElem?_push, if_neg (by omega)]

theorem SameBelow.of_push_push {base : Nat} {rest : Array Value} (h : base ≤ rest.size)
    (first second : Value) : SameBelow base ((rest.push first).push second) rest :=
  (SameBelow.of_push (by rw [Array.size_push]; omega) second).trans (.of_push h first)

theorem size_shrink_sub {stack : Array Value} {base n count : Nat} (h : stack.size = base + n)
    (hle : count ≤ n) : (stack.shrink (stack.size - count)).size = base + (n - count) := by
  rw [Array.size_shrink]
  omega

/-- A stack with a value on top. -/
theorem exists_push {stack : Array Value} {base n : Nat} (h : stack.size = base + (n + 1)) :
    ∃ (rest : Array Value) (value : Value), stack = rest.push value ∧ rest.size = base + n := by
  obtain ⟨value, hvalue⟩ : ∃ value, stack.back? = some value := by
    rw [Array.back?_eq_getElem?, Array.getElem?_eq_getElem (by omega)]
    exact ⟨_, rfl⟩
  obtain ⟨rest, rfl⟩ := Array.back?_eq_some_iff.1 hvalue
  rw [Array.size_push] at h
  exact ⟨rest, value, rfl, by omega⟩

/-! ## What instructions do to the height of the stack -/

/-- How far a transfer within a function jumps. -/
def Transfer.distance? : Transfer → Option Nat
  | .next => some 0
  | .jump distance => some distance
  | .enter .. | .leave _ => none

/-- What the instruction `i` at `p` may do, on a stack that is `n` higher than
the base of its frame. -/
inductive Performed (env : Environment κ σ) (base p n : Nat) (i : Instruction) (m : Memory κ σ) :
    EStateM.Result Fault (Memory κ σ) Transfer → Prop
  | fault {fault : Fault} {m' : Memory κ σ} (h : fault.Proper env) :
      Performed env base p n i m (.error fault m')
  | stays {t : Transfer} {distance : Nat} {m' : Memory κ σ} (ht : t.distance? = some distance)
      (htarget : p + i.length + distance ∈ i.targets p)
      (hsize : m'.stack.size = base + (n - i.pops + i.pushes))
      (hbelow : SameBelow base m.stack m'.stack) (hglobals : m'.globals.size = m.globals.size) :
      Performed env base p n i m (.ok t m')
  | enters {handle : Handle} {function : Function} (hop : i.opcode = .call)
      (harity : function.arity = i.first.toNat)
      (hcallee : m.stack[m.stack.size - (i.first.toNat + 1)]? = some (.object handle))
      (hget : m.heap.get handle = .ok (.function function)) :
      Performed env base p n i m (.ok (.enter handle function i.first.toNat) m)
  | leaves {value : Value} {rest : Array Value} (hop : i.opcode = .ret)
      (hstack : m.stack = rest.push value) :
      Performed env base p n i m (.ok (.leave value) { m with stack := rest })

/-- A memory that the code of a site can work on, with a stack `n` higher than
the base of the frame. -/
structure Site.Ready (k : Site κ) (env : Environment κ σ) (frame : Frame) (n : Nat)
    (m : Memory κ σ) : Prop where
  chunk : frame.function.chunk = k.chunk
  heap : k.heap.Kept m.heap
  globals : m.globals.size = k.globals
  size : m.stack.size = frame.base + n
  live : ∀ value ∈ m.stack, m.heap.Holds value
  methods : env.methods.On m.heap

section Performed

variable {env : Environment κ σ} {frame : Frame} {base p n : Nat} {i : Instruction}
  {m : Memory κ σ} {k : Site κ}

theorem Performed.placed {m' : Memory κ σ} {value : Value}
    (hsize : m'.stack.size = base + (n - i.pops))
    (hbelow : SameBelow base m.stack m'.stack) (hglobals : m'.globals.size = m.globals.size)
    (hpushes : i.pushes = 1) (htarget : p + i.length ∈ i.targets p) :
    Performed env base p n i m (placed env.config m' value) := by
  unfold ScriptMachine.placed
  split
  · exact .fault (.own ⟨id, id⟩)
  · refine .stays rfl htarget ?_ (hbelow.push (by omega) value) hglobals
    rw [Array.size_push, hsize, hpushes]
    omega

theorem Performed.placedOr {m' : Memory κ σ} {result : Except Fault Value}
    (hown : ∀ {fault}, result = .error fault → fault.Own)
    (hsize : m'.stack.size = base + (n - i.pops)) (hbelow : SameBelow base m.stack m'.stack)
    (hglobals : m'.globals.size = m.globals.size) (hpushes : i.pushes = 1)
    (htarget : p + i.length ∈ i.targets p) :
    Performed env base p n i m (placedOr env.config m' result) := by
  cases result with
  | ok value => exact .placed hsize hbelow hglobals hpushes htarget
  | error fault => exact .fault (.own (hown rfl))

theorem Performed.nativeCalled {popped : Nat} {code : κ} {args : List Value}
    (hsize : m.stack.size - popped = base + (n - i.pops)) (hpushes : i.pushes = 1)
    (htarget : p + i.length ∈ i.targets p) :
    Performed env base p n i m (nativeCalled env m popped code args) := by
  unfold ScriptMachine.nativeCalled
  generalize hcall : env.call code args (m.heap, m.host) = outcome
  dsimp only
  split
  · refine .placed ?_ (SameBelow.shrink (by omega)) rfl hpushes htarget
    have hmin : min (m.stack.size - popped) m.stack.size = m.stack.size - popped := by omega
    simpa [hmin] using hsize
  · next message hmessage =>
      exact .fault (.native code args (m.heap, m.host) (by rw [hcall, hmessage]))

theorem Performed.called (h : k.Ready env frame n m) {argc : Nat} {callee : Value}
    (hcallee : m.stack[m.stack.size - (argc + 1)]? = some callee) (hop : i.opcode = .call)
    (hargc : i.first.toNat = argc)
    (hpops : i.pops = argc + 1) (hle : i.pops ≤ n)
    (htarget : p + i.length ∈ i.targets p) :
    Performed env frame.base p n i m (called env m argc callee) := by
  unfold ScriptMachine.called
  split
  · next handle =>
    obtain ⟨object, hget⟩ := (h.live _ (Array.mem_of_getElem? hcallee)).exists_get
    rw [hget]
    cases object with
    | function f =>
      dsimp only
      split
      · exact .fault (.own ⟨id, id⟩)
      · next harity =>
        subst hargc
        exact .enters hop (not_not.1 harity) hcallee hget
    | native native =>
      dsimp only
      split
      · exact .fault (.own ⟨id, id⟩)
      · have hsize := h.size
        exact .nativeCalled (by omega) (by rw [Instruction.pushes, hop]) htarget
    | list items => exact .fault (.own ⟨id, id⟩)
    | string text => exact .fault (.own ⟨id, id⟩)
  · exact .fault (.own ⟨id, id⟩)

theorem Performed.invoked (h : k.Ready env frame n m) {argc : Nat} {name : String}
    {receiver : Value} (hreceiver : receiver ∈ m.stack) (hop : i.opcode = .invoke)
    (hpops : i.pops = argc + 1) (hle : i.pops ≤ n) (htarget : p + i.length ∈ i.targets p) :
    Performed env frame.base p n i m (invoked env m argc name receiver) := by
  unfold ScriptMachine.invoked
  split
  · next fault hfault =>
    exact .fault (.own (Heap.own_of_method h.methods (h.live _ hreceiver) hfault))
  · split
    · exact .fault (.own ⟨id, id⟩)
    · have hsize := h.size
      exact .nativeCalled (by omega) (by rw [Instruction.pushes, hop]) htarget

theorem Performed.jumped {value : Value} {expected : Bool} {distance : Nat}
    (hsize : m.stack.size = base + n) (hpops : i.pops = 1) (hle : i.pops ≤ n)
    (hpushes : i.pushes = 1) (htarget : p + i.length ∈ i.targets p)
    (htarget' : p + i.length + distance ∈ i.targets p) :
    Performed env base p n i m (jumped expected distance m value) := by
  have hsize' : m.stack.size = base + (n - i.pops + i.pushes) := by
    rw [hsize, hpops, hpushes]
    omega
  unfold ScriptMachine.jumped
  split
  · split
    · exact .stays rfl htarget' hsize' (.refl _ _) rfl
    · exact .stays rfl htarget hsize' (.refl _ _) rfl
  · exact .fault (.own ⟨id, id⟩)

theorem Performed.binary (h : k.Ready env frame n m) (op : BinaryOp) (first second : UInt8)
    (hle : 2 ≤ n) :
    Performed env frame.base p n ⟨op.opcode, first, second⟩ m
      (perform env frame ⟨op.opcode, first, second⟩ m) := by
  obtain ⟨n, rfl⟩ := Nat.exists_eq_add_of_le' hle
  obtain ⟨rest', right, hstack, hsize'⟩ := exists_push (n := n + 1) h.size
  obtain ⟨rest, left, rfl, hsize⟩ := exists_push hsize'
  have hperform : perform env frame ⟨op.opcode, first, second⟩ m =
      ScriptMachine.placedOr env.config { m with stack := rest } (op.apply left right) := by
    rw [perform_bare (by cases op <;> rfl), perform_binary op hstack]
  have hbelow : SameBelow frame.base m.stack rest := hstack ▸ .of_push_push (by omega) left right
  rw [hperform]
  cases op <;> exact .placedOr BinaryOp.own_of_apply hsize hbelow rfl rfl (.head _)

theorem Performed.unary (h : k.Ready env frame n m) (op : UnaryOp) (first second : UInt8)
    (hle : 1 ≤ n) :
    Performed env frame.base p n ⟨op.opcode, first, second⟩ m
      (perform env frame ⟨op.opcode, first, second⟩ m) := by
  obtain ⟨n, rfl⟩ := Nat.exists_eq_add_of_le' hle
  obtain ⟨rest, operand, hstack, hsize⟩ := exists_push h.size
  have hperform : perform env frame ⟨op.opcode, first, second⟩ m =
      ScriptMachine.placedOr env.config { m with stack := rest } (op.apply operand) := by
    rw [perform_bare (by cases op <;> rfl), perform_unary op hstack]
  have hbelow : SameBelow frame.base m.stack rest := hstack ▸ .of_push (by omega) operand
  rw [hperform]
  cases op <;> exact .placedOr UnaryOp.own_of_apply hsize hbelow rfl rfl (.head _)

/-- An instruction on a stack that is high enough, all of whose operands are
there, does not fail from within. -/
theorem perform_performed (h : k.Ready env frame n m) (hpops : i.pops ≤ n)
    (hoperand : i.OperandOk k n) (p : Nat) :
    Performed env frame.base p n i m (perform env frame i m) := by
  have hsize := h.size
  obtain ⟨op, first, second⟩ := i
  cases op with
  | constant =>
    obtain ⟨value, hvalue⟩ := hoperand
    rw [← h.chunk] at hvalue
    rw [perform_byte rfl, perform_constant hvalue]
    exact .placed hsize (.refl _ _) rfl rfl (.head _)
  | loadNull =>
    rw [perform_bare rfl, perform_loadNull]
    exact .placed hsize (.refl _ _) rfl rfl (.head _)
  | loadTrue =>
    rw [perform_bare rfl, perform_loadTrue]
    exact .placed hsize (.refl _ _) rfl rfl (.head _)
  | loadFalse =>
    rw [perform_bare rfl, perform_loadFalse]
    exact .placed hsize (.refl _ _) rfl rfl (.head _)
  | pop =>
    obtain ⟨n, rfl⟩ := Nat.exists_eq_add_of_le' hpops
    obtain ⟨rest, value, hstack, hsize⟩ := exists_push hsize
    rw [perform_bare rfl, perform_pop hstack]
    exact .stays rfl (.head _) hsize (hstack ▸ .of_push (by omega) value) rfl
  | popN =>
    rw [perform_byte rfl, perform_popN]
    have hle : first.toNat ≤ n := hpops
    exact .stays rfl (.head _) (size_shrink_sub hsize hle) (.shrink (by omega)) rfl
  | getLocal =>
    have hlt : first.toNat < n := hoperand
    obtain ⟨value, hvalue⟩ : ∃ value, m.stack[frame.base + first.toNat]? = some value :=
      ⟨_, Array.getElem?_eq_getElem (by omega)⟩
    rw [perform_byte rfl, perform_getLocal hvalue]
    exact .placed hsize (.refl _ _) rfl rfl (.head _)
  | setLocal =>
    have hlt : first.toNat < n := hoperand
    obtain ⟨n, rfl⟩ := Nat.exists_eq_add_of_le' hpops
    obtain ⟨rest, value, hstack, -⟩ := exists_push hsize
    rw [perform_byte rfl, perform_setLocal hstack (by omega)]
    exact .stays rfl (.head _) (Array.size_setIfInBounds.trans hsize) (.set (by omega) value) rfl
  | getGlobal =>
    have hlt : first.toNat < k.globals := hoperand
    obtain ⟨value, hvalue⟩ : ∃ value, m.globals[first.toNat]? = some value :=
      ⟨_, Array.getElem?_eq_getElem (by rw [h.globals]; exact hlt)⟩
    rw [perform_byte rfl, perform_getGlobal hvalue]
    exact .placed hsize (.refl _ _) rfl rfl (.head _)
  | setGlobal =>
    obtain ⟨n, rfl⟩ := Nat.exists_eq_add_of_le' hpops
    obtain ⟨rest, value, hstack, -⟩ := exists_push hsize
    rw [perform_byte rfl, perform_setGlobal hstack (by rw [h.globals]; exact hoperand)]
    exact .stays rfl (.head _) hsize (.refl _ _) (by simp)
  | add => exact .binary h .add first second hpops
  | sub => exact .binary h .sub first second hpops
  | mul => exact .binary h .mul first second hpops
  | div => exact .binary h .div first second hpops
  | floorDiv => exact .binary h .floorDiv first second hpops
  | mod => exact .binary h .mod first second hpops
  | equal => exact .binary h .equal first second hpops
  | notEqual => exact .binary h .notEqual first second hpops
  | less => exact .binary h .less first second hpops
  | lessEqual => exact .binary h .lessEqual first second hpops
  | greater => exact .binary h .greater first second hpops
  | greaterEqual => exact .binary h .greaterEqual first second hpops
  | negate => exact .unary h .neg first second hpops
  | invert => exact .unary h .not first second hpops
  | makeList =>
    have hle : first.toNat ≤ n := hpops
    rw [perform_byte rfl, perform_makeList (by omega)]
    exact .placed (size_shrink_sub hsize hle) (.shrink (by omega)) rfl rfl (.head _)
  | getIndex =>
    obtain ⟨n, rfl⟩ := Nat.exists_eq_add_of_le' hpops
    obtain ⟨rest', index, hstack, hsize'⟩ := exists_push (n := n + 1) hsize
    obtain ⟨rest, base, rfl, hsize⟩ := exists_push hsize'
    have hbase : base ∈ m.stack := by simp [hstack]
    have hbelow : SameBelow frame.base m.stack rest := hstack ▸ .of_push_push (by omega) base index
    rw [perform_bare rfl, perform_getIndex hstack]
    exact .placedOr (Heap.own_of_element (h.live base hbase)) hsize hbelow rfl rfl (.head _)
  | setIndex =>
    obtain ⟨n, rfl⟩ := Nat.exists_eq_add_of_le' hpops
    obtain ⟨rest'', value, hstack, hsize''⟩ := exists_push (n := n + 2) hsize
    obtain ⟨rest', index, rfl, hsize'⟩ := exists_push (n := n + 1) hsize''
    obtain ⟨rest, base, rfl, hsize⟩ := exists_push hsize'
    have hbase : base ∈ m.stack := by simp [hstack]
    have hbelow : SameBelow frame.base m.stack rest := by
      rw [hstack]
      exact (SameBelow.of_push (by omega) value).trans (.of_push_push (by omega) base index)
    rw [perform_bare rfl, perform_setIndex hstack]
    split
    · exact .placed hsize hbelow rfl rfl (.head _)
    · next fault hfault =>
      exact .fault (.own (Heap.own_of_withElement (h.live base hbase) hfault))
  | jump => exact .stays rfl (.head _) hsize (.refl _ _) rfl
  | jumpIfFalse =>
    obtain ⟨n, rfl⟩ := Nat.exists_eq_add_of_le' hpops
    obtain ⟨rest, value, hstack, -⟩ := exists_push hsize
    rw [perform_jumpIfFalse hstack]
    exact .jumped hsize rfl hpops rfl (.head _) (.tail _ (.head _))
  | jumpIfTrue =>
    obtain ⟨n, rfl⟩ := Nat.exists_eq_add_of_le' hpops
    obtain ⟨rest, value, hstack, -⟩ := exists_push hsize
    rw [perform_jumpIfTrue hstack]
    exact .jumped hsize rfl hpops rfl (.head _) (.tail _ (.head _))
  | call =>
    have hle : first.toNat + 1 ≤ n := hpops
    have hlt : m.stack.size - (first.toNat + 1) < m.stack.size := by omega
    rw [perform_byte rfl, perform_call (by omega) (Array.getElem?_eq_getElem hlt)]
    exact .called h (Array.getElem?_eq_getElem hlt) rfl rfl rfl hpops (.head _)
  | invoke =>
    have hle : second.toNat + 1 ≤ n := hpops
    obtain ⟨name, handle, hname, hstring⟩ := hoperand
    have hlt : m.stack.size - (second.toNat + 1) < m.stack.size := by omega
    rw [← h.chunk] at hname
    rw [perform_invoke hname (h.heap.get hstring (by simp [Object.kind])) (by omega)
      (Array.getElem?_eq_getElem hlt)]
    exact .invoked h (Array.getElem_mem _) rfl rfl hpops (.head _)
  | ret =>
    obtain ⟨n, rfl⟩ := Nat.exists_eq_add_of_le' hpops
    obtain ⟨rest, value, hstack, -⟩ := exists_push hsize
    rw [perform_bare rfl, perform_ret hstack]
    exact .leaves rfl hstack
  | print =>
    obtain ⟨n, rfl⟩ := Nat.exists_eq_add_of_le' hpops
    obtain ⟨rest, value, hstack, hsize⟩ := exists_push hsize
    rw [perform_bare rfl, perform_print hstack]
    exact .stays rfl (.head _) hsize (hstack ▸ .of_push (by omega) value) rfl

end Performed

end ScriptMachine
