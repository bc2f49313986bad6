import ScriptMachine.Proofs.Machine.Rereading
import ScriptMachine.Proofs.Number.Position

/-!
# A machine with unguarded accesses

The accesses of the machine to its stack, to lists and to its frames give a result
whatever the index is. Here is the same machine with accesses that have none when
an index is out of range or a difference is negative (`Unguarded.step`); it relies
on the checks that stand before an access in the same instruction. Whatever code it
runs, it never misses one: it takes the steps of the machine (`Unguarded.step_eq`),
as long as lists have less than 2^53 elements, so that their sizes are exact as
doubles.
-/

namespace ScriptMachine

variable {κ σ α β : Type}

/-- Why an unguarded computation stops: with a fault of the machine, or with an
access that is out of range. -/
inductive RawFault where
  | fault (fault : Fault)
  | outOfRange

/-- A computation on memory with unguarded accesses. -/
abbrev RawAct (κ σ : Type) := EStateM RawFault (Memory κ σ)

/-- A computation without such accesses. -/
def Act.raw (x : Act κ σ α) : RawAct κ σ α := fun m =>
  match x m with
  | .ok a m => .ok a m
  | .error fault m => .error (.fault fault) m

namespace Unguarded

/-! ## Accesses -/

def getAt (xs : Array α) (index : Nat) : RawAct κ σ α :=
  match xs[index]? with
  | some x => pure x
  | none => throw .outOfRange

/-- Asks for an index in range, before an element is replaced. -/
def inRange (index size : Nat) : RawAct κ σ Unit :=
  if index < size then pure () else throw .outOfRange

/-- A difference that must not be negative. -/
def minus (a b : Nat) : RawAct κ σ Nat :=
  if b ≤ a then pure (a - b) else throw .outOfRange

/-- The elements from an index on. -/
def sliceFrom (xs : Array α) (start : Nat) : RawAct κ σ (Array α) :=
  if start ≤ xs.size then pure (xs.extract start xs.size) else throw .outOfRange

/-! ## The instructions with accesses -/

def peek (distance : Nat) : RawAct κ σ Value := do
  let stack := (← get).stack
  if distance + 1 ≤ stack.size then getAt stack (stack.size - (distance + 1))
  else throw (.fault .stackUnderflow)

/-- Where a local is on the stack. -/
def localIndex (frame : Frame) (slot : Nat) : RawAct κ σ Nat := do
  let index := frame.base + slot
  if index < (← get).stack.size then return index
  else throw (.fault (.noLocal slot))

def popMany (count : Nat) : RawAct κ σ (Array Value) := do
  let stack := (← get).stack
  if count ≤ stack.size then
    let start := stack.size - count
    let items ← sliceFrom stack start
    modify fun m => { m with stack := stack.shrink start }
    return items
  else throw (.fault .stackUnderflow)

def getElement (base index : Value) : RawAct κ σ Value := do
  let handle ← (subscript base).raw
  let items ← (onHeap ((← get).heap.list handle)).raw
  match doublePosition index items.size with
  | .ok position => getAt items position
  | .error fault => throw (.fault fault)

def setElement (base index value : Value) : RawAct κ σ Unit := do
  let handle ← (subscript base).raw
  let items ← (onHeap ((← get).heap.list handle)).raw
  match doublePosition index items.size with
  | .ok position =>
    inRange position items.size
    modify fun m => { m with heap := m.heap.modifyList handle (·.setIfInBounds position value) }
  | .error fault => throw (.fault fault)

def callNative (env : Environment κ σ) (code : κ) (popped argc : Nat) : RawAct κ σ Unit := do
  let stack := (← get).stack
  let start ← minus stack.size argc
  let args ← sliceFrom stack start
  let result ← modifyGet fun m =>
    let outcome := env.call code args.toList (m.heap, m.host)
    (outcome.1, { m with heap := outcome.2.1, host := outcome.2.2 })
  match result with
  | .ok value =>
    let kept ← minus stack.size popped
    modify fun m => { m with stack := m.stack.shrink kept }
    (push env.config value).raw
  | .error message => throw (.fault (.native message))

def callValue (env : Environment κ σ) (argc : Nat) : RawAct κ σ Transfer := do
  match ← peek argc with
  | .object handle =>
    match ← (onHeap ((← get).heap.get handle)).raw with
    | .function f =>
      (checkArity f.name f.arity argc).raw
      return .enter handle f argc
    | .native n =>
      (checkArity n.name n.arity argc).raw
      callNative env n.code (argc + 1) argc
      return .next
    | object => throw (.fault (.notCallable object.kind.name))
  | callee => throw (.fault (.notCallable ((← get).heap.typeName callee)))

def invoke (env : Environment κ σ) (name : Value) (argc : Nat) : RawAct κ σ Unit := do
  match name with
  | .object handle =>
    let name ← (onHeap ((← get).heap.string handle)).raw
    let receiver ← peek argc
    let method ← (findMethod env name receiver).raw
    let native ← (onHeap ((← get).heap.native method)).raw
    (checkArity native.name native.arity argc).raw
    callNative env native.code (argc + 1) (argc + 1)
  | _ => throw (.fault .methodNameNotString)

def jumpIf (expected : Bool) (distance : Nat) : RawAct κ σ Transfer := do
  match ← peek 0 with
  | .bool value => return if value = expected then .jump distance else .next
  | _ => throw (.fault .operandNotBoolean)

/-- Does what an instruction says. Only the instructions with accesses differ. -/
def perform (env : Environment κ σ) (frame : Frame) (i : Instruction) : RawAct κ σ Transfer := do
  match i.opcode with
  | .getLocal =>
    let index ← localIndex frame i.first.toNat
    (push env.config (← getAt (← get).stack index)).raw
    return .next
  | .setLocal =>
    let index ← localIndex frame i.first.toNat
    let value ← peek 0
    inRange index (← get).stack.size
    modify fun m => { m with stack := m.stack.setIfInBounds index value }
    return .next
  | .setGlobal =>
    let value ← peek 0
    if (← get).globals.size ≤ i.first.toNat then throw (.fault (.noGlobal i.first.toNat))
    modify fun m => { m with globals := m.globals.setIfInBounds i.first.toNat value }
    return .next
  | .makeList =>
    let items ← popMany i.first.toNat
    let handle ← modifyGet fun m =>
      let (handle, heap) := m.heap.alloc (.list items)
      (handle, { m with heap })
    (push env.config (.object handle)).raw
    return .next
  | .getIndex =>
    let index ← pop.raw
    let base ← pop.raw
    (push env.config (← getElement base index)).raw
    return .next
  | .setIndex =>
    let value ← pop.raw
    let index ← pop.raw
    let base ← pop.raw
    setElement base index value
    (push env.config value).raw
    return .next
  | .jumpIfFalse => jumpIf false i.distance
  | .jumpIfTrue => jumpIf true i.distance
  | .call => callValue env i.first.toNat
  | .invoke =>
    invoke env (← (constantAt frame i.first).raw) i.second.toNat
    return .next
  | _ => (ScriptMachine.perform env frame i).raw

/-- Carries out a transfer. The base of a new frame is a difference. -/
def transfer (config : Config) (outer : Array Frame) (frame : Frame) (m : Memory κ σ) :
    Transfer → Option (StepResult κ σ)
  | .enter handle function argc =>
    if config.maxFrames ≤ outer.size + 1 then some (.faulted .stackOverflow (outer.push frame) m)
    else if argc ≤ m.stack.size then
      some (.running ((outer.push frame).push ⟨handle, function, m.stack.size - argc, 0⟩) m)
    else none
  | t => some (ScriptMachine.transfer config outer frame m t)

/-- One instruction, and a collection if it is due; none if an access is out of
range. -/
def step (env : Environment κ σ) (frames : Array Frame) (m : Memory κ σ) :
    Option (StepResult κ σ) := do
  match frames.back? with
  | none => some (.faulted .noFrame frames m)
  | some frame =>
    match m.heap.function frame.handle with
    | .error fault => some (.faulted (.heap fault) frames m)
    | .ok _ =>
      match frame.function.chunk.fetch frame.ip with
      | .fault fault ip => some (.faulted (.fetch fault) (frames.pop.push { frame with ip }) m)
      | .instruction i next =>
        let frame := { frame with ip := next }
        match perform env frame i m with
        | .error .outOfRange _ => none
        | .error (.fault fault) m => some (.faulted fault (frames.pop.push frame) m)
        | .ok t m =>
          match ← transfer env.config frames.pop frame m t with
          | .running frames m => some (.running frames (m.collectIfDue env frames))
          | result => some result

/-- The calls in progress: those behind the script if there are any. -/
def traceOf (heap : Heap κ) (frames : Array Frame) : Option (List TraceEntry) :=
  let skip := if 1 < frames.size then 1 else 0
  if skip ≤ frames.size then
    some ((frames.extract skip frames.size).toList.reverse.filterMap fun frame =>
      match heap.function frame.handle with
      | .ok function => some ⟨function.name, function.chunk.lineAt (frame.ip - 1)⟩
      | .error _ => none)
  else none

end Unguarded

/-! ## No access is out of range -/

/-- A heap on which all lists have less than 2^53 elements. -/
def Heap.ShortLists (heap : Heap κ) : Prop :=
  ∀ {handle items}, heap.list handle = .ok items → items.size < 2 ^ 53

theorem Heap.ShortLists.empty : ({} : Heap κ).ShortLists := by
  intro handle items hlist
  rw [Heap.list_eq_ok] at hlist
  simp [Heap.get, Heap.entry?] at hlist

theorem Heap.ShortLists.alloc {heap : Heap κ} (h : heap.ShortLists) (hwf : heap.WF)
    {object : Object κ} (hobject : ∀ items, object = .list items → items.size < 2 ^ 53) :
    (heap.alloc object).2.ShortLists := by
  intro handle items hlist
  rw [Heap.list_eq_ok] at hlist
  rcases Heap.get_of_get_alloc hwf hlist with ⟨-, heq⟩ | hget
  · exact hobject items heq.symm
  · exact h (Heap.list_eq_ok.2 hget)

/-! ### Sequencing -/

section Raw

variable (m : Memory κ σ)

@[simp] theorem raw_pure (a : α) : (pure a : RawAct κ σ α) m = .ok a m := rfl

@[simp] theorem raw_throw (fault : RawFault) : (throw fault : RawAct κ σ α) m = .error fault m :=
    rfl

theorem raw_bind (x : RawAct κ σ α) (k : α → RawAct κ σ β) :
    (x >>= k) m = match x m with
      | .ok a m => k a m
      | .error fault m => .error fault m := by
  show EStateM.bind x k m = _
  unfold EStateM.bind
  cases x m <;> rfl

@[simp] theorem raw_get : (get : RawAct κ σ (Memory κ σ)) m = .ok m m := rfl

@[simp] theorem raw_modify (f : Memory κ σ → Memory κ σ) :
    (modify f : RawAct κ σ PUnit) m = .ok () (f m) := rfl

@[simp] theorem raw_modifyGet (f : Memory κ σ → α × Memory κ σ) :
    (modifyGet f : RawAct κ σ α) m = .ok (f m).1 (f m).2 := rfl

end Raw

/-- Where `P` holds, the unguarded computation does what the guarded one does, and
`Q` holds afterwards. -/
def Agrees (P : Memory κ σ → Prop) (Q : α → Memory κ σ → Prop) (x : Act κ σ α)
    (y : RawAct κ σ α) : Prop :=
  ∀ m, P m → y m = x.raw m ∧ ∀ {a m'}, x m = .ok a m' → Q a m'

namespace Agrees

variable {P : Memory κ σ → Prop} {Q : α → Memory κ σ → Prop} {R : β → Memory κ σ → Prop}

theorem bind {x : Act κ σ α} {y : RawAct κ σ α} {f : α → Act κ σ β} {g : α → RawAct κ σ β}
    (hx : Agrees P Q x y) (hf : ∀ a, Agrees (Q a) R (f a) (g a)) :
    Agrees P R (x >>= f) (y >>= g) := by
  intro m hm
  obtain ⟨hxy, hpost⟩ := hx m hm
  rw [raw_bind, hxy]
  simp only [Act.raw, act_bind]
  cases hresult : x m with
  | error fault m' => exact ⟨rfl, by rintro _ _ ⟨⟩⟩
  | ok a m' => exact hf a m' (hpost hresult)

theorem raw {x : Act κ σ α} (h : ∀ {m a m'}, P m → x m = .ok a m' → Q a m') :
    Agrees P Q x x.raw :=
  fun _ hm => ⟨rfl, h hm⟩

theorem pure {a : α} (h : ∀ {m}, P m → Q a m) : Agrees P Q (Pure.pure a) (Pure.pure a) :=
  fun _ hm => ⟨rfl, by rintro _ _ ⟨⟩; exact h hm⟩

theorem throw (fault : Fault) : Agrees P Q (MonadExcept.throw fault)
    (MonadExcept.throw (.fault fault)) :=
  fun _ _ => ⟨rfl, nofun⟩

theorem get : Agrees P (fun a m => P m ∧ a = m) MonadState.get MonadState.get :=
  fun _ hm => ⟨rfl, by rintro _ _ ⟨⟩; exact ⟨hm, rfl⟩⟩

theorem modifyGet {f : Memory κ σ → α × Memory κ σ} (h : ∀ {m}, P m → Q (f m).1 (f m).2) :
    Agrees P Q (MonadState.modifyGet f) (MonadState.modifyGet f) :=
  fun _ hm => ⟨rfl, by rintro _ _ ⟨⟩; exact h hm⟩

/-- A computation on the heap changes nothing. -/
theorem onHeap {result : Except HeapFault α}
    (h : ∀ {m a}, P m → result = .ok a → Q a m) :
    Agrees P Q (ScriptMachine.onHeap result) (ScriptMachine.onHeap result).raw := by
  refine raw fun {m a m'} hm hresult => ?_
  cases result with
  | error fault => cases hresult
  | ok value =>
    cases hresult
    exact h hm rfl

/-- Taking a value off the stack leaves the heap alone. -/
theorem pop {P : Heap κ → Prop} :
    Agrees (fun m : Memory κ σ => P m.heap) (fun _ m => P m.heap) ScriptMachine.pop
      ScriptMachine.pop.raw := by
  refine raw fun {m a m'} hm hresult => ?_
  rw [pop_apply] at hresult
  split at hresult
  · cases hresult
    exact hm
  · cases hresult

/-- The last action of an instruction. -/
theorem next {x : Act κ σ PUnit} {y : RawAct κ σ PUnit} {Q : PUnit → Memory κ σ → Prop}
    (h : Agrees P Q x y) :
    Agrees P (fun _ _ => True) (do x; return .next : Act κ σ Transfer)
      (do y; return .next : RawAct κ σ Transfer) :=
  h.bind fun _ => pure fun _ => trivial

end Agrees

namespace Unguarded

theorem traceOf_eq (heap : Heap κ) (frames : Array Frame) :
    traceOf heap frames = some (ScriptMachine.traceOf heap frames) := by
  have hskip : (if 1 < frames.size then 1 else 0) ≤ frames.size := by
    split <;> omega
  have hslice : (frames.extract (if 1 < frames.size then 1 else 0) frames.size).toList =
      frames.toList.drop (if 1 < frames.size then 1 else 0) := by
    rw [Array.toList_extract, List.extract_eq_take_drop]
    exact List.take_of_length_le (by simp)
  unfold traceOf
  dsimp only
  rw [if_pos hskip, hslice]
  rfl

theorem getAt_of_lt {xs : Array α} {index : Nat} (h : index < xs.size) :
    (getAt xs index : RawAct κ σ α) = pure xs[index] := by
  simp only [getAt, Array.getElem?_eq_getElem h]

/-- A value that is peeked at is there, and nothing changes. -/
theorem agrees_peek (distance : Nat) (P : Memory κ σ → Prop) :
    Agrees P (fun _ m => P m ∧ distance < m.stack.size) (ScriptMachine.peek distance)
      (peek distance) := by
  intro m hm
  unfold ScriptMachine.peek peek
  by_cases h : distance < m.stack.size
  · have hindex : m.stack.size - (distance + 1) < m.stack.size := by omega
    have hle : distance + 1 ≤ m.stack.size := h
    refine ⟨?_, ?_⟩
    · simp only [Act.raw, act_bind, raw_bind, act_get, raw_get, h, hle, dif_pos, if_pos,
        getAt_of_lt hindex, act_pure, raw_pure]
    · simp only [act_bind, act_get, h, dif_pos, act_pure]
      rintro _ _ ⟨⟩
      exact ⟨hm, h⟩
  · simp [Act.raw, act_bind, raw_bind, h]

theorem agrees_jumpIf (expected : Bool) (distance : Nat) (P : Memory κ σ → Prop) :
    Agrees P (fun _ _ => True) (ScriptMachine.jumpIf expected distance)
      (jumpIf expected distance) := by
  refine (agrees_peek 0 P).bind fun value => ?_
  cases value with
  | bool value => exact .pure fun _ => trivial
  | _ => exact .throw _

theorem agrees_subscript {P : Heap κ → Prop} (base : Value) :
    Agrees (fun m : Memory κ σ => P m.heap) (fun _ m => P m.heap) (subscript base)
      (subscript base).raw := by
  refine .raw fun {m a m'} hm hresult => ?_
  unfold subscript at hresult
  cases base with
  | object handle =>
    simp only [act_bind, act_get] at hresult
    cases hkind : m.heap.kind handle with
    | error fault =>
      rw [hkind] at hresult
      cases hresult
    | ok kind =>
      rw [hkind] at hresult
      simp only [onHeap_ok] at hresult
      split at hresult <;> cases hresult
      exact hm
  | _ => cases hresult

/-- The list that a value refers to, with less than 2^53 elements. -/
theorem agrees_getList (base : Value) {f : Handle → Array Value → Act κ σ α}
    {g : Handle → Array Value → RawAct κ σ α} {Q : α → Memory κ σ → Prop}
    (h : ∀ handle items, items.size < 2 ^ 53 →
      Agrees (fun m => m.heap.ShortLists) Q (f handle items) (g handle items)) :
    Agrees (fun m => m.heap.ShortLists) Q
      (do let handle ← subscript base
          f handle (← onHeap ((← get).heap.list handle)))
      (do let handle ← (subscript base).raw
          g handle (← (onHeap ((← get).heap.list handle)).raw)) := by
  refine (agrees_subscript base).bind fun handle => Agrees.get.bind fun m => ?_
  refine (Agrees.onHeap (Q := fun items m => m.heap.ShortLists ∧ items.size < 2 ^ 53) ?_).bind
    fun items m' hm => h handle items hm.2 m' hm.1
  rintro m' items ⟨hshort, rfl⟩ hlist
  exact ⟨hshort, hshort hlist⟩

theorem agrees_getElement (base index : Value) :
    Agrees (fun m : Memory κ σ => m.heap.ShortLists) (fun _ m => m.heap.ShortLists)
      (ScriptMachine.getElement base index) (getElement base index) := by
  refine agrees_getList base fun handle items hshort => ?_
  rw [doublePosition_eq index hshort]
  cases listPosition index items.size with
  | error fault => exact .throw fault
  | ok position =>
    simp only [Except.map, getAt_of_lt position.isLt]
    exact .pure id

theorem agrees_setElement (base index value : Value) :
    Agrees (fun m : Memory κ σ => m.heap.ShortLists) (fun _ _ => True)
      (ScriptMachine.setElement base index value) (setElement base index value) := by
  refine agrees_getList base fun handle items hshort => ?_
  dsimp only
  rw [doublePosition_eq index hshort]
  cases listPosition index items.size with
  | error fault => exact .throw fault
  | ok position =>
    simp only [Except.map, inRange, position.isLt, if_true, pure_bind]
    exact fun _ _ => ⟨rfl, fun _ => trivial⟩

/-- Native code gets its arguments from the stack, if that is high enough. -/
theorem agrees_callNative (env : Environment κ σ) (code : κ) {popped argc : Nat}
    (hle : argc ≤ popped) :
    Agrees (fun m => popped ≤ m.stack.size) (fun _ _ => True)
      (ScriptMachine.callNative env code popped argc) (callNative env code popped argc) := by
  intro m hm
  refine ⟨?_, fun _ => trivial⟩
  have hargc : argc ≤ m.stack.size := hle.trans hm
  unfold callNative Act.raw
  rw [callNative_apply]
  simp only [raw_bind, raw_get, minus, hargc, hm, if_true, raw_pure, sliceFrom, Nat.sub_le,
    raw_modifyGet]
  cases (env.call code (m.stack.extract (m.stack.size - argc) m.stack.size).toList
    (m.heap, m.host)).1 with
  | error message => rfl
  | ok value => rfl

theorem agrees_checkArity (name : String) (arity argc : Nat) (P : Memory κ σ → Prop) :
    Agrees P (fun _ => P) (checkArity name arity argc) (checkArity name arity argc).raw := by
  refine .raw fun {m a m'} hm hresult => ?_
  rw [checkArity_apply] at hresult
  split at hresult <;> cases hresult
  exact hm

theorem agrees_callValue (env : Environment κ σ) (argc : Nat) :
    Agrees (fun _ => True) (fun t m => ∀ {handle f n}, t = .enter handle f n → n ≤ m.stack.size)
      (ScriptMachine.callValue env argc) (callValue env argc) := by
  refine (agrees_peek argc _).bind fun callee => ?_
  cases callee with
  | object handle =>
    refine Agrees.get.bind fun m => ?_
    refine (Agrees.onHeap (Q := fun _ m => argc < m.stack.size) fun hm _ => hm.1.2).bind
      fun object => ?_
    cases object with
    | function f =>
      refine (agrees_checkArity _ _ _ _).bind fun _ => .pure fun hm => ?_
      rintro _ _ _ ⟨⟩
      exact hm.le
    | native n =>
      refine (agrees_checkArity _ _ _ _).bind fun _ => ?_
      refine Agrees.bind (Q := fun _ _ => True) (fun m hm => ?_) fun _ => .pure fun _ => nofun
      exact agrees_callNative env n.code (Nat.le_succ argc) m hm
    | list items => exact .throw _
    | string text => exact .throw _
  | _ => exact Agrees.get.bind fun _ => .throw _

/-- Looking a method up changes nothing. -/
theorem agrees_findMethod (env : Environment κ σ) (name : String) (receiver : Value)
    (P : Memory κ σ → Prop) :
    Agrees P (fun _ => P) (findMethod env name receiver) (findMethod env name receiver).raw := by
  refine .raw fun {m a m'} hm hresult => ?_
  unfold findMethod at hresult
  have hfound : ∀ found : Option Handle, (answered name receiver found : Act κ σ Handle)
    m = .ok a m' →
      m' = m := by
    intro found hresult
    cases found <;> cases hresult
    rfl
  have hsame : m' = m := by
    cases receiver with
    | object handle =>
      simp only [act_bind, act_get] at hresult
      cases hkind : m.heap.kind handle with
      | error fault =>
        rw [hkind] at hresult
        cases hresult
      | ok kind =>
        rw [hkind] at hresult
        exact hfound (env.methods.find? kind name) hresult
    | _ => exact hfound none hresult
  exact hsame ▸ hm

theorem agrees_invoke (env : Environment κ σ) (name : Value) (argc : Nat)
    (P : Memory κ σ → Prop) :
    Agrees P (fun _ _ => True) (ScriptMachine.invoke env name argc) (invoke env name argc) := by
  unfold ScriptMachine.invoke invoke
  cases name with
  | object handle =>
    refine Agrees.get.bind fun m => ?_
    refine (Agrees.onHeap (Q := fun _ _ => True) fun _ _ => trivial).bind fun text => ?_
    refine (agrees_peek argc _).bind fun receiver => ?_
    refine (agrees_findMethod env text receiver _).bind fun method => ?_
    refine Agrees.get.bind fun m => ?_
    refine (Agrees.onHeap (Q := fun _ m => argc < m.stack.size) fun hm _ => hm.1.2).bind
      fun native => ?_
    refine (agrees_checkArity _ _ _ _).bind fun _ => ?_
    exact agrees_callNative env native.code (Nat.le_refl _)
  | _ => exact .throw _

theorem agrees_popMany (count : Nat) (P : Memory κ σ → Prop) :
    Agrees P (fun _ _ => True) (ScriptMachine.popMany count) (popMany count) := by
  intro m hm
  refine ⟨?_, fun _ => trivial⟩
  unfold popMany Act.raw
  rw [popMany_apply]
  by_cases hcount : count ≤ m.stack.size
  · simp only [raw_bind, raw_get, hcount, if_true, sliceFrom, Nat.sub_le, raw_pure, raw_modify,
      Nat.not_lt.2 hcount, if_false]
  · simp only [raw_bind, raw_get, hcount, if_false, raw_throw, Nat.not_le.1 hcount, if_true]

theorem agrees_push (config : Config) (value : Value) (P : Memory κ σ → Prop) :
    Agrees P (fun _ _ => True) (push config value) (push config value).raw :=
  .raw fun _ _ => trivial

/-- Instructions make no access that is out of range. -/
theorem agrees_perform (env : Environment κ σ) (frame : Frame) (i : Instruction) :
    Agrees (fun m => m.heap.ShortLists) (fun _ _ => True) (ScriptMachine.perform env frame i)
      (perform env frame i) := by
  unfold perform ScriptMachine.perform
  cases hop : i.opcode with
  | getLocal =>
    intro m hm
    refine ⟨?_, fun _ => trivial⟩
    by_cases hindex : frame.base + i.first.toNat < m.stack.size
    · simp only [Act.raw, act_bind, raw_bind, act_get, raw_get, localIndex, getAt, hindex, if_true,
        raw_pure, Array.getElem?_eq_getElem hindex]
      cases push env.config m.stack[frame.base + i.first.toNat] m <;> rfl
    · simp only [Act.raw, act_bind, raw_bind, act_get, raw_get, localIndex, hindex, if_false,
        raw_throw, Array.getElem?_eq_none (Nat.not_lt.1 hindex), act_throw]
  | setLocal =>
    intro m _
    refine ⟨?_, fun _ => trivial⟩
    by_cases hindex : frame.base + i.first.toNat < m.stack.size
    · obtain ⟨hpeek, hsame⟩ := agrees_peek 0 (fun m' => m' = m) m rfl
      simp only [Act.raw, act_bind, raw_bind, act_get, raw_get, localIndex, hindex, if_true,
        raw_pure, Nat.not_le.2 hindex, if_false, hpeek]
      cases hvalue : ScriptMachine.peek 0 m with
      | error fault m' => rfl
      | ok value m' =>
        obtain ⟨rfl, -⟩ := hsame hvalue
        simp only [inRange, hindex, if_true, raw_pure]
        rfl
    · simp only [Act.raw, act_bind, raw_bind, act_get, raw_get, localIndex, hindex, if_false,
        raw_throw, Nat.not_lt.1 hindex, if_true, act_throw]
  | setGlobal =>
    refine (agrees_peek 0 _).bind fun value => Agrees.get.bind fun m => ?_
    -- The globals are checked, so both do the same from here on.
    split <;> exact fun _ _ => ⟨rfl, fun _ => trivial⟩
  | makeList =>
    refine (agrees_popMany _ _).bind fun items => ?_
    refine (Agrees.modifyGet (Q := fun _ _ => True) fun _ => trivial).bind fun handle => ?_
    exact (agrees_push _ _ _).next
  | getIndex =>
    refine Agrees.pop.bind fun index => Agrees.pop.bind fun base => ?_
    refine (agrees_getElement base index).bind fun value => ?_
    exact (agrees_push _ _ _).next
  | setIndex =>
    refine Agrees.pop.bind fun value => Agrees.pop.bind fun index => Agrees.pop.bind fun base => ?_
    refine (agrees_setElement base index value).bind fun _ => ?_
    exact (agrees_push _ _ _).next
  | jumpIfFalse => exact agrees_jumpIf _ _ _
  | jumpIfTrue => exact agrees_jumpIf _ _ _
  | call =>
    intro m hm
    exact ⟨((agrees_callValue env i.first.toNat) m trivial).1, fun _ => trivial⟩
  | invoke =>
    refine Agrees.bind (Q := fun _ _ => True) (.raw fun _ _ => trivial) fun name => ?_
    exact (agrees_invoke env name _ _).next
  | _ => exact .raw fun _ _ => trivial

/-- A function that is entered finds its arguments on the stack. -/
theorem le_size_of_enter {env : Environment κ σ} {frame : Frame} {i : Instruction}
    {m m' : Memory κ σ} {handle : Handle} {function : Function} {argc : Nat}
    (h : ScriptMachine.perform env frame i m = .ok (.enter handle function argc) m') :
    argc ≤ m'.stack.size := by
  by_cases hop : i.opcode = .call
  · unfold ScriptMachine.perform at h
    rw [hop] at h
    exact (agrees_callValue env i.first.toNat m trivial).2 h rfl
  · exact absurd trivial (not_isCall_of_perform hop _ _ _ h)

/-- The unguarded machine takes the steps of the machine, in whatever state. -/
theorem step_eq (env : Environment κ σ) (frames : Array Frame) {m : Memory κ σ}
    (h : m.heap.ShortLists) : step env frames m = some (ScriptMachine.step env frames m) := by
  unfold step ScriptMachine.step ScriptMachine.execute
  cases hlast : frames.back? with
  | none => rfl
  | some frame =>
    obtain ⟨outer, rfl⟩ := Array.back?_eq_some_iff.1 hlast
    unfold ScriptMachine.executeIn
    dsimp only
    rw [Array.pop_push]
    cases m.heap.function frame.handle with
    | error fault => rfl
    | ok _ =>
      dsimp only
      cases frame.function.chunk.fetch frame.ip with
      | fault fault ip => rfl
      | instruction i ip =>
        dsimp only
        rw [(agrees_perform env { frame with ip } i m h).1]
        unfold Act.raw
        cases hperform : ScriptMachine.perform env { frame with ip } i m with
        | error fault m' => rfl
        | ok t m' =>
          dsimp only
          have htransfer : transfer env.config outer { frame with ip } m' t =
              some (ScriptMachine.transfer env.config outer { frame with ip } m' t) := by
            cases t with
            | enter handle function argc =>
              have hle : argc ≤ m'.stack.size := le_size_of_enter hperform
              simp only [transfer, ScriptMachine.transfer, hle, if_true]
              split <;> rfl
            | _ => rfl
          rw [htransfer]
          cases ScriptMachine.transfer env.config outer { frame with ip } m' t <;> rfl

end Unguarded

end ScriptMachine
