import ScriptMachine.Machine.Perform

/-!
# The basic actions as functions on memory

What the actions on the stack do to a memory, written out. Proofs about
instructions use these equations and the rules for sequencing, and open no
action themselves.
-/

namespace ScriptMachine

variable {κ σ α β : Type}

@[simp] theorem act_pure (a : α) (m : Memory κ σ) : (pure a : Act κ σ α) m = .ok a m := rfl

@[simp] theorem act_throw (fault : Fault) (m : Memory κ σ) :
    (throw fault : Act κ σ α) m = .error fault m := rfl

theorem act_bind (x : Act κ σ α) (k : α → Act κ σ β) (m : Memory κ σ) :
    (x >>= k) m = match x m with
      | .ok a m => k a m
      | .error fault m => .error fault m := by
  show EStateM.bind x k m = _
  unfold EStateM.bind
  cases x m <;> rfl

theorem act_bind_eq_ok {x : Act κ σ α} {k : α → Act κ σ β} {m m' : Memory κ σ} {b : β} :
    (x >>= k) m = .ok b m' ↔ ∃ a m₁, x m = .ok a m₁ ∧ k a m₁ = .ok b m' := by
  rw [act_bind]
  constructor
  · intro h
    split at h
    · next a m₁ hx => exact ⟨a, m₁, hx, h⟩
    · cases h
  · rintro ⟨a, m₁, hx, hk⟩
    rw [hx]
    exact hk

@[simp] theorem act_get (m : Memory κ σ) : (get : Act κ σ (Memory κ σ)) m = .ok m m := rfl

@[simp] theorem act_modify (f : Memory κ σ → Memory κ σ) (m : Memory κ σ) :
    (modify f : Act κ σ PUnit) m = .ok () (f m) := rfl

@[simp] theorem act_modifyGet (f : Memory κ σ → α × Memory κ σ) (m : Memory κ σ) :
    (modifyGet f : Act κ σ α) m = .ok (f m).1 (f m).2 := rfl

/-- What a search for a method answers: the method found, or that there is none. -/
def answered (name : String) (receiver : Value) : Option Handle → Act κ σ Handle
  | some native => pure native
  | none => do throw (.undefinedMethod name ((← get).heap.typeName receiver))

theorem push_apply (config : Config) (value : Value) (m : Memory κ σ) :
    push config value m =
      if config.maxStack ≤ m.stack.size then .error .stackOverflow m
      else .ok () { m with stack := m.stack.push value } := by
  unfold push
  by_cases hfull : config.maxStack ≤ m.stack.size
  · simp [act_bind, hfull]
  · simp [act_bind, hfull]

theorem pop_apply (m : Memory κ σ) :
    pop m = match m.stack.back? with
      | some value => .ok value { m with stack := m.stack.pop }
      | none => .error .stackUnderflow m := by
  unfold pop
  simp only [act_bind, act_get]
  cases hback : m.stack.back? <;> simp only [act_bind, act_modify, act_pure, act_throw]

theorem peek_apply (distance : Nat) (m : Memory κ σ) :
    peek distance m =
      match if distance < m.stack.size then m.stack[m.stack.size - (distance + 1)]? else none with
      | some value => .ok value m
      | none => .error .stackUnderflow m := by
  unfold peek
  by_cases hinside : distance < m.stack.size
  · have hindex : m.stack.size - (distance + 1) < m.stack.size := by omega
    simp [act_bind, hinside, Array.getElem?_eq_getElem hindex]
  · simp [act_bind, hinside]

theorem popMany_apply (count : Nat) (m : Memory κ σ) :
    popMany count m =
      if m.stack.size < count then .error .stackUnderflow m
      else .ok (m.stack.extract (m.stack.size - count) m.stack.size)
        { m with stack := m.stack.shrink (m.stack.size - count) } := by
  unfold popMany
  by_cases hshort : m.stack.size < count
  · simp [act_bind, hshort]
  · simp [act_bind, hshort]

@[simp] theorem onHeap_ok (value : α) (m : Memory κ σ) :
    (onHeap (.ok value) : Act κ σ α) m = .ok value m := rfl

@[simp] theorem onHeap_error (fault : HeapFault) (m : Memory κ σ) :
    (onHeap (.error fault) : Act κ σ α) m = .error (.heap fault) m := rfl

theorem checkArity_apply (name : String) (arity argc : Nat) (m : Memory κ σ) :
    checkArity name arity argc m =
      if arity ≠ argc then .error (.arity name arity argc) m else .ok () m := by
  unfold checkArity
  by_cases harity : arity = argc <;> simp [harity]

theorem callNative_apply (env : Environment κ σ) (code : κ) (popped argc : Nat)
    (m : Memory κ σ) :
    callNative env code popped argc m =
      let outcome := env.call code (m.stack.extract (m.stack.size - argc) m.stack.size).toList
        (m.heap, m.host)
      let m := { m with heap := outcome.2.1, host := outcome.2.2 }
      match outcome.1 with
      | .ok value => push env.config value
          { m with stack := m.stack.shrink (m.stack.size - popped) }
      | .error message => .error (.native message) m := by
  obtain ⟨config, methods, call⟩ := env
  obtain ⟨heap, stack, globals, output, collectAt, host⟩ := m
  unfold callNative
  simp only [act_bind, act_modifyGet]
  cases (call code (stack.extract (stack.size - argc) stack.size).toList (heap, host)).1 <;> rfl

theorem callValue_apply (env : Environment κ σ) (argc : Nat) (m : Memory κ σ) :
    callValue env argc m =
      match peek argc m with
      | .error fault m => .error fault m
      | .ok (.object handle) m =>
        match m.heap.get handle with
        | .error fault => .error (.heap fault) m
        | .ok (.function f) =>
          if f.arity ≠ argc then .error (.arity f.name f.arity argc) m
          else .ok (.enter handle f argc) m
        | .ok (.native n) =>
          if n.arity ≠ argc then .error (.arity n.name n.arity argc) m
          else (do callNative env n.code (argc + 1) argc; return .next : Act κ σ Transfer) m
        | .ok object => .error (.notCallable object.kind.name) m
      | .ok callee m => .error (.notCallable (m.heap.typeName callee)) m := by
  unfold callValue
  rw [act_bind]
  cases peek argc m with
  | error fault m₁ => rfl
  | ok callee m₁ =>
    cases callee with
    | null => rfl
    | bool _ => rfl
    | number _ => rfl
    | object handle =>
      simp only [act_bind, act_get]
      cases m₁.heap.get handle with
      | error fault => rfl
      | ok object =>
        cases object with
        | list items => rfl
        | string text => rfl
        | function f =>
          simp only [onHeap_ok, act_bind, checkArity_apply]
          by_cases harity : f.arity = argc <;> simp [harity]
        | native n =>
          simp only [onHeap_ok, act_bind, checkArity_apply]
          by_cases harity : n.arity = argc <;> simp [harity]

end ScriptMachine
