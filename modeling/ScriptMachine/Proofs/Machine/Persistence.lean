import ScriptMachine.Machine.Run
import ScriptMachine.Proofs.Heap.Slab
import ScriptMachine.Proofs.Machine.Actions
import ScriptMachine.Library

/-!
# What instructions leave as it is

Instructions change a memory in a few ways only, and what survives all of these
survives every instruction (`perform_maintains`). So they allocate objects and
change lists; functions, natives and strings stay as they are (`perform_keeps`).
In particular the function of a frame is on the heap with the code that the frame
runs, for as long as it runs.
-/

namespace ScriptMachine

variable {κ σ α δ : Type}

/-- A heap that has come from `origin` by allocating objects that are no
functions and by changing lists. -/
structure Heap.Evolves (origin heap : Heap κ) : Prop extends origin.Kept heap where
  function : ∀ {a f}, heap.get a = .ok (.function f) → origin.get a = .ok (.function f)

namespace Heap.Evolves

variable {origin heap : Heap κ}

theorem refl (h : heap.WF) : heap.Evolves heap := ⟨.refl h, id⟩

theorem alloc (h : origin.Evolves heap) (object : Object κ) (hkind : object.kind ≠ .function) :
    origin.Evolves (heap.alloc object).2 := by
  refine ⟨h.toKept.alloc object, fun {a f} hget => ?_⟩
  rcases get_of_get_alloc h.wf hget with ⟨-, rfl⟩ | hget
  · exact absurd rfl hkind
  · exact h.function hget

theorem modifyList (h : origin.Evolves heap) (handle : Handle) (f : Array Value → Array Value) :
    origin.Evolves (heap.modifyList handle f) := by
  refine ⟨h.toKept.modifyList handle f, fun {a g} hget => h.function ?_⟩
  rcases get_of_get_modifyList hget with hget | ⟨items, -, -, heq⟩
  · exact hget
  · cases heq

end Heap.Evolves

/-- Native code that changes nothing but lists. -/
def KeepsObjects (call : NativeCall κ σ) : Prop :=
  ∀ {origin heap : Heap κ}, origin.Evolves heap → ∀ code args host,
    origin.Evolves (call code args (heap, host)).2.1

theorem Builtin.call_keeps {ε τ : Type} {origin : Heap (NativeCode ε)} (clock : Nat → Float)
    (builtin : Builtin) (args : List Value) (world : World ε τ) :
    origin.Evolves world.1 → origin.Evolves (builtin.call clock args world).2.1 := by
  intro h
  fun_cases Builtin.call clock builtin args world with
  | case2 heap host value name handle heap' halloc =>
    have hheap := h.alloc (.string name) (by simp [Object.kind])
    rw [halloc] at hheap
    exact hheap
  | case4 => exact h.modifyList _ _
  | case7 => exact h.modifyList _ _
  | _ => exact h

theorem Host.plain_keepsObjects (clock : Nat → Float) :
    KeepsObjects (Host.plain clock).call := by
  intro origin heap h code args host
  cases code with
  | builtin builtin => exact builtin.call_keeps clock args _ h
  | custom code => exact nomatch code

/-- An instruction that is fetched is performed, and control is transferred. -/
theorem executeIn_fetched {env : Environment κ σ} {outer : Array Frame} {frame : Frame}
    {m : Memory κ σ} {f : Function} {i : Instruction} {ip : Nat}
    (hfunction : m.heap.function frame.handle = .ok f)
    (hfetch : frame.function.chunk.fetch frame.ip = .instruction i ip) :
    executeIn env outer frame m = match perform env { frame with ip } i m with
      | .error fault m => .faulted fault (outer.push { frame with ip }) m
      | .ok t m => transfer env.config outer { frame with ip } m t := by
  rewrite [executeIn, hfunction, hfetch]
  rfl

/-! ## Computations -/

/-- The memory that a computation leaves, also when it fails. -/
def memoryOf : EStateM.Result Fault (Memory κ σ) α → Memory κ σ
  | .ok _ m => m
  | .error _ m => m

/-- What survives the ways in which instructions other than the assignment to a
global change a memory: the stack gets higher only within its limit, elements of
lists get other values, lists are made, and native code is called. -/
structure Steady (env : Environment κ σ) (P : Memory κ σ → Prop) : Prop where
  stack : ∀ {m} {stack : Array Value}, P m →
    stack.size ≤ max m.stack.size env.config.maxStack → P { m with stack }
  output : ∀ {m} (text : String), P m → P { m with output := m.output ++ text ++ "\n" }
  newList : ∀ {m} (items : Array Value), P m →
    P { m with heap := (m.heap.alloc (.list items)).2 }
  setItem : ∀ {m} (handle : Handle) (position : Nat) (value : Value), P m →
    P { m with heap := m.heap.modifyList handle (·.setIfInBounds position value) }
  native : ∀ {m} (code : κ) (args : List Value), P m →
    P { m with heap := (env.call code args (m.heap, m.host)).2.1,
               host := (env.call code args (m.heap, m.host)).2.2 }

/-- What survives these and also another value in a global. -/
structure Stable (env : Environment κ σ) (P : Memory κ σ → Prop) : Prop extends Steady env P where
  globals : ∀ {m} (index : Nat) (value : Value), P m →
    P { m with globals := m.globals.setIfInBounds index value }

/-- A computation that does not end what holds of the memory. -/
def Maintains (P : Memory κ σ → Prop) (x : Act κ σ α) : Prop := ∀ m, P m → P (memoryOf (x m))

namespace Maintains

variable {env : Environment κ σ} {P : Memory κ σ → Prop}

theorem pure (a : α) : Maintains P (Pure.pure a) := fun _ h => h

theorem throw (fault : Fault) : Maintains (α := α) P (throwThe Fault fault) := fun _ h => h

theorem bind {x : Act κ σ α} {k : α → Act κ σ δ} (hx : Maintains P x)
    (hk : ∀ a, Maintains P (k a)) : Maintains P (x >>= k) := by
  intro m h
  have hfirst := hx m h
  rw [act_bind]
  generalize x m = r at hfirst
  cases r with
  | ok a m' => exact hk a m' hfirst
  | error fault m' => exact hfirst

theorem get : Maintains P get := fun _ h => h

theorem peek (distance : Nat) : Maintains P (peek distance) := by
  intro m h
  rw [peek_apply]
  split <;> exact h

theorem onHeap (x : Except HeapFault α) : Maintains P (onHeap x) := by
  cases x <;> exact fun _ h => h

theorem subscript (base : Value) : Maintains P (subscript base) := by
  unfold ScriptMachine.subscript
  split
  · refine get.bind fun m => (onHeap _).bind fun kind => ?_
    split
    · exact pure _
    · exact throw _
  · exact throw _

theorem getElement (base index : Value) : Maintains P (getElement base index) := by
  refine (subscript base).bind fun handle => get.bind fun m => (onHeap _).bind fun items => ?_
  split
  · exact pure _
  · exact throw _

theorem checkArity (name : String) (arity argc : Nat) :
    Maintains P (checkArity name arity argc) := by
  intro m h
  rw [checkArity_apply]
  split <;> exact h

theorem findMethod (name : String) (receiver : Value) :
    Maintains P (findMethod env name receiver) := by
  unfold ScriptMachine.findMethod
  dsimp only
  split
  · refine get.bind fun m => (onHeap _).bind fun kind => (pure _).bind fun found => ?_
    split
    · exact pure _
    · exact get.bind fun m => throw _
  · refine (pure none).bind fun found => ?_
    split
    · exact pure _
    · exact get.bind fun m => throw _

theorem constantAt (frame : Frame) (index : UInt8) : Maintains P (constantAt frame index) := by
  unfold ScriptMachine.constantAt
  split
  · exact pure _
  · exact throw _

theorem jumpIf (expected : Bool) (distance : Nat) : Maintains P (jumpIf expected distance) := by
  refine (peek 0).bind fun value => ?_
  split
  · exact pure _
  · exact throw _

section Steady

variable (hP : Steady env P)

include hP

theorem push (value : Value) : Maintains P (push env.config value) := by
  intro m h
  rw [push_apply]
  split
  · exact h
  · refine hP.stack h ?_
    rw [Array.size_push]
    omega

theorem pop : Maintains P pop := by
  intro m h
  rw [pop_apply]
  split
  · refine hP.stack h ?_
    rw [Array.size_pop]
    omega
  · exact h

/-- Cutting the stack down. -/
theorem shrink (size : Memory κ σ → Nat) :
    Maintains P (modify fun m => { m with stack := m.stack.shrink (size m) }) := by
  intro m h
  refine hP.stack h ?_
  rw [Array.size_shrink]
  omega

theorem popMany (count : Nat) : Maintains P (popMany count) := by
  intro m h
  rw [popMany_apply]
  split
  · exact h
  · exact shrink hP (fun m => m.stack.size - count) m h

theorem numericBinary (op : Float → Float → Value) :
    Maintains P (numericBinary env.config op) := by
  refine (pop hP).bind fun right => (pop hP).bind fun left => ?_
  split
  · exact push hP _
  · exact throw _

theorem setElement (base index value : Value) : Maintains P (setElement base index value) := by
  refine (subscript base).bind fun handle => get.bind fun m => (onHeap _).bind fun items => ?_
  dsimp only
  split
  · exact fun m h => hP.setItem _ _ _ h
  · exact throw _

theorem callNative (code : κ) (popped argc : Nat) :
    Maintains P (callNative env code popped argc) := by
  intro m h
  have hcalled := hP.native code (m.stack.extract (m.stack.size - argc) m.stack.size).toList h
  rw [callNative_apply]
  dsimp only
  split
  · exact push hP _ _ (shrink hP (fun m => m.stack.size - popped) _ hcalled)
  · exact hcalled

theorem callValue (argc : Nat) : Maintains P (callValue env argc) := by
  refine (peek argc).bind fun callee => ?_
  split
  · refine get.bind fun m => (onHeap _).bind fun object => ?_
    split
    · exact (checkArity _ _ _).bind fun _ => pure _
    · exact (checkArity _ _ _).bind fun _ => (callNative hP _ _ _).bind fun _ => pure _
    · exact throw _
  · exact get.bind fun m => throw _

theorem invoke (name : Value) (argc : Nat) : Maintains P (invoke env name argc) := by
  unfold ScriptMachine.invoke
  split
  · refine get.bind fun m => (onHeap _).bind fun text => (peek argc).bind fun receiver => ?_
    refine (findMethod text receiver).bind fun method => get.bind fun m => ?_
    refine (onHeap _).bind fun native => (checkArity _ _ _).bind fun _ => ?_
    exact callNative hP _ _ _
  · exact throw _

end Steady

end Maintains

/-- What is steady survives an instruction, if an assignment to a global leaves it as well. -/
theorem perform_maintains_of {env : Environment κ σ} {P : Memory κ σ → Prop} (hP : Steady env P)
    (frame : Frame) (i : Instruction)
    (hglobals : i.opcode = .setGlobal → ∀ m value, P m →
      P { m with globals := m.globals.setIfInBounds i.first.toNat value }) :
    Maintains P (perform env frame i) := by
  have hpush : ∀ value, Maintains P (push env.config value) := Maintains.push hP
  have hpop : Maintains P (pop : Act κ σ Value) := Maintains.pop hP
  unfold perform
  cases hop : i.opcode with
  | constant => exact (Maintains.constantAt _ _).bind fun _ => (hpush _).bind fun _ => .pure _
  | loadNull => exact (hpush _).bind fun _ => .pure _
  | loadTrue => exact (hpush _).bind fun _ => .pure _
  | loadFalse => exact (hpush _).bind fun _ => .pure _
  | pop => exact hpop.bind fun _ => .pure _
  | popN => exact (Maintains.shrink hP _).bind fun _ => .pure _
  | getLocal =>
    refine Maintains.get.bind fun m => ?_
    dsimp only
    split
    · exact (hpush _).bind fun _ => .pure _
    · exact (Maintains.throw _).bind fun _ => .pure _
  | setLocal =>
    refine Maintains.get.bind fun m => ?_
    dsimp only
    split
    · exact Maintains.throw _
    · refine (Maintains.peek 0).bind fun value => .bind (fun m h => hP.stack h ?_) fun _ => .pure _
      rw [Array.size_setIfInBounds]
      omega
  | getGlobal =>
    refine Maintains.get.bind fun m => ?_
    dsimp only
    split
    · exact (hpush _).bind fun _ => .pure _
    · exact (Maintains.throw _).bind fun _ => .pure _
  | setGlobal =>
    refine (Maintains.peek 0).bind fun value => Maintains.get.bind fun m => ?_
    dsimp only
    split
    · exact Maintains.throw _
    · exact .bind (fun m h => hglobals hop m _ h) fun _ => .pure _
  | equal => exact hpop.bind fun _ => hpop.bind fun _ => (hpush _).bind fun _ => .pure _
  | notEqual => exact hpop.bind fun _ => hpop.bind fun _ => (hpush _).bind fun _ => .pure _
  | negate =>
    refine hpop.bind fun _ => ?_
    dsimp only
    split
    · exact (hpush _).bind fun _ => .pure _
    · exact (Maintains.throw _).bind fun _ => .pure _
  | invert =>
    refine hpop.bind fun _ => ?_
    dsimp only
    split
    · exact (hpush _).bind fun _ => .pure _
    · exact (Maintains.throw _).bind fun _ => .pure _
  | makeList =>
    exact (Maintains.popMany hP _).bind fun items => .bind (fun m h => hP.newList items h) fun _ =>
      (hpush _).bind fun _ => .pure _
  | getIndex =>
    exact hpop.bind fun _ => hpop.bind fun _ => (Maintains.getElement _ _).bind fun _ =>
      (hpush _).bind fun _ => .pure _
  | setIndex =>
    exact hpop.bind fun _ => hpop.bind fun _ => hpop.bind fun _ =>
      (Maintains.setElement hP _ _ _).bind fun _ => (hpush _).bind fun _ => .pure _
  | jump => exact Maintains.pure _
  | jumpIfFalse => exact Maintains.jumpIf _ _
  | jumpIfTrue => exact Maintains.jumpIf _ _
  | call => exact Maintains.callValue hP _
  | invoke =>
    exact (Maintains.constantAt _ _).bind fun _ => (Maintains.invoke hP _ _).bind fun _ => .pure _
  | ret => exact hpop.bind fun _ => .pure _
  | print =>
    exact hpop.bind fun _ => Maintains.get.bind fun _ => .bind (fun m h => hP.output _ h) fun _ =>
      .pure _
  | _ => exact (Maintains.numericBinary hP _).bind fun _ => .pure _

/-- What is stable survives an instruction. -/
theorem perform_maintains {env : Environment κ σ} {P : Memory κ σ → Prop} (hP : Stable env P)
    (frame : Frame) (i : Instruction) : Maintains P (perform env frame i) :=
  perform_maintains_of hP.toSteady frame i fun _ _ value => hP.globals _ value

theorem KeepsObjects.stable {env : Environment κ σ} (h : KeepsObjects env.call)
    (origin : Heap κ) : Stable env fun m => origin.Evolves m.heap where
  stack hm _ := hm
  globals _ _ hm := hm
  output _ hm := hm
  newList items hm := hm.alloc (.list items) (by simp [Object.kind])
  setItem _ _ _ hm := hm.modifyList _ _
  native code args hm := h hm code args _

/-- An instruction changes no object of `origin` but lists. -/
theorem perform_keeps {env : Environment κ σ} (hcall : KeepsObjects env.call) (origin : Heap κ)
    (frame : Frame) (i : Instruction) :
    Maintains (fun m => origin.Evolves m.heap) (perform env frame i) :=
  perform_maintains (hcall.stable origin) frame i

/-- A function that is entered is on the heap. -/
theorem get_of_callValue {env : Environment κ σ} {m m' : Memory κ σ} {handle : Handle}
    {function : Function} {argc argc' : Nat}
    (h : callValue env argc m = .ok (.enter handle function argc') m') :
    m'.heap.get handle = .ok (.function function) := by
  rw [callValue_apply] at h
  split at h
  · cases h
  · next found m₁ _ =>
    split at h
    · cases h
    · next f hget =>
      split at h
      · cases h
      · cases h
        exact hget
    · next n _ =>
      split at h
      · cases h
      · obtain ⟨_, _, _, hnext⟩ := act_bind_eq_ok.1 h
        cases hnext
    · cases h
  · cases h

/-- A computation whose results all satisfy a predicate. -/
def Returns (P : α → Prop) (x : Act κ σ α) : Prop := ∀ m a m', x m = .ok a m' → P a

namespace Returns

variable {P : δ → Prop}

theorem pure {a : δ} (h : P a) : Returns (κ := κ) (σ := σ) P (Pure.pure a) := by
  rintro m _ _ ⟨⟩
  exact h

theorem throw (fault : Fault) : Returns (κ := κ) (σ := σ) P (throwThe Fault fault) := by
  rintro m _ _ ⟨⟩

theorem bind {x : Act κ σ α} {k : α → Act κ σ δ} (hk : ∀ a, Returns P (k a)) :
    Returns P (x >>= k) := by
  intro m a m' h
  obtain ⟨b, m₁, _, hb⟩ := act_bind_eq_ok.1 h
  exact hk b m₁ a m' hb

end Returns

/-- The transfer into a function. -/
def Transfer.IsCall : Transfer → Prop
  | .enter .. => True
  | _ => False

theorem not_isCall_of_jumpIf (expected : Bool) (distance : Nat) :
    Returns (κ := κ) (σ := σ) (fun t => ¬t.IsCall) (jumpIf expected distance) := by
  refine .bind fun value => ?_
  split
  · refine .pure ?_
    split <;> exact id
  · exact .throw _

/-- Only a call enters a function. -/
theorem not_isCall_of_perform {env : Environment κ σ} {frame : Frame} {i : Instruction}
    (h : i.opcode ≠ .call) : Returns (fun t => ¬t.IsCall) (perform env frame i) := by
  unfold perform
  cases hop : i.opcode with
  | call => exact absurd hop h
  | jumpIfFalse => exact not_isCall_of_jumpIf _ _
  | jumpIfTrue => exact not_isCall_of_jumpIf _ _
  | _ =>
    -- Whatever comes first, the last thing done is to return a fixed transfer.
    repeat first
      | exact .pure id
      | exact .throw _
      | refine .bind fun _ => ?_
      | split

theorem get_of_enter {env : Environment κ σ} {frame : Frame} {i : Instruction}
    {m m' : Memory κ σ} {handle : Handle} {function : Function} {argc : Nat}
    (h : perform env frame i m = .ok (.enter handle function argc) m') :
    m'.heap.get handle = .ok (.function function) := by
  by_cases hop : i.opcode = .call
  · unfold perform at h
    exact get_of_callValue (by simpa only [hop] using h)
  · exact absurd trivial (not_isCall_of_perform hop _ _ _ h)

end ScriptMachine
