import ScriptMachine.Proofs.Machine.Intact

/-!
# Objects that a running program cannot get at

A live object is concealed if no object on the heap, no global and nothing on the
stack but its lowest value refers to it (`Memory.Conceals`). Instructions of a frame
above that value keep it concealed: what they push, store, put into lists, call or
return with comes from where it is not (`perform_conceals`). A collection keeps it
concealed for as long as a frame runs from it.
-/

namespace ScriptMachine

variable {κ σ : Type} {hidden : Handle}

/-! ## Heaps -/

/-- The value is not the object at a handle. -/
def Value.Avoids (hidden : Handle) (value : Value) : Prop := value.handle? ≠ some hidden

theorem Value.avoids_object {handle : Handle} (h : handle ≠ hidden) :
    (Value.object handle).Avoids hidden := fun heq => h (Option.some.inj heq)

theorem Value.avoids_of_handle?_eq_none {value : Value} (h : value.handle? = none) :
    value.Avoids hidden := fun heq => by rw [h] at heq; cases heq

namespace Heap

/-- A live object that no object refers to. -/
structure Conceals (heap : Heap κ) (hidden : Handle) : Prop where
  wf : heap.WF
  live : heap.isLive hidden
  children : ∀ {handle object}, heap.get handle = .ok object → hidden ∉ object.children

namespace Conceals

variable {heap heap' : Heap κ}

theorem avoids_item (h : heap.Conceals hidden) {handle : Handle} {items : Array Value}
    (hget : heap.get handle = .ok (.list items)) : ∀ item ∈ items, item.Avoids hidden :=
  fun item hitem hhandle => h.children hget
    (List.mem_filterMap.2 ⟨item, Array.mem_toList_iff.2 hitem, hhandle⟩)

theorem avoids_constant (h : heap.Conceals hidden) {handle : Handle} {f : Function}
    (hget : heap.get handle = .ok (.function f)) :
    ∀ value ∈ f.chunk.constants, value.Avoids hidden :=
  fun value hvalue hhandle => h.children hget
    (List.mem_filterMap.2 ⟨value, Array.mem_toList_iff.2 hvalue, hhandle⟩)

/-- A new object is not the concealed one, which is live. -/
theorem alloc_ne (h : heap.Conceals hidden) (object : Object κ) :
    (heap.alloc object).1 ≠ hidden := by
  rintro rfl
  have hlive := h.live
  rw [isLive, entry?_alloc_fresh h.wf] at hlive
  cases hlive

theorem alloc (h : heap.Conceals hidden) {object : Object κ} (hobject : hidden ∉ object.children) :
    Conceals (heap.alloc object).2 hidden := by
  refine ⟨h.wf.alloc object, isLive_alloc h.wf object h.live, fun {handle found} hget => ?_⟩
  rcases get_of_get_alloc h.wf hget with ⟨-, rfl⟩ | hget
  · exact hobject
  · exact h.children hget

theorem modifyList (h : heap.Conceals hidden) (handle : Handle) (f : Array Value → Array Value)
    (hf : ∀ {items}, heap.get handle = .ok (.list items) → ∀ item ∈ f items, item.Avoids hidden) :
    (heap.modifyList handle f).Conceals hidden := by
  refine ⟨((Kept.refl h.wf).modifyList handle f).wf, ?_, fun {other object} hget hchild => ?_⟩
  · rw [isLive_modifyList]
    exact h.live
  · rcases get_of_get_modifyList hget with hold | ⟨items, rfl, hold, rfl⟩
    · exact h.children hold hchild
    · obtain ⟨item, hitem, hhandle⟩ := List.mem_filterMap.1 hchild
      exact hf hold item (Array.mem_toList_iff.1 hitem) hhandle

theorem avoids_element (h : heap.Conceals hidden) {base index value : Value}
    (helement : heap.element base index = .ok value) : value.Avoids hidden := by
  obtain ⟨handle, items, hlist, hitem⟩ := exists_list_of_element helement
  exact h.avoids_item (list_eq_ok.1 hlist) value hitem

theorem withElement (h : heap.Conceals hidden) {base index value : Value}
    (hvalue : value.Avoids hidden) (helement : heap.withElement base index value = .ok heap') :
    heap'.Conceals hidden := by
  obtain ⟨handle, position, rfl⟩ := exists_eq_of_withElement helement
  refine h.modifyList _ _ fun hget item hitem => ?_
  rcases Array.mem_or_eq_of_mem_setIfInBounds hitem with hitem | rfl
  · exact h.avoids_item hget item hitem
  · exact hvalue

theorem collect (h : heap.Conceals hidden) {roots : Roots} (hreach : heap.Reachable roots hidden) :
    Conceals (heap.collect roots).2 hidden := by
  refine ⟨h.wf.collect roots, (isLive_collect h.wf roots hidden).2 ⟨h.live, hreach⟩,
    fun {handle object} hget => ?_⟩
  obtain ⟨-, hhandle⟩ := (isLive_collect h.wf roots handle).1 (isLive_iff.2 ⟨object, hget⟩)
  rw [get_collect_of_reachable h.wf hhandle] at hget
  exact h.children hget

end Conceals

end Heap

/-! ## Native code -/

/-- Native code that is called where an object is concealed leaves it so, and does not
give it as its result. -/
structure LeavesConcealed (hidden : Handle) (outcome : Except String Value × (Heap κ × σ)) :
    Prop where
  heap : outcome.2.1.Conceals hidden
  result : ∀ {value}, outcome.1 = .ok value → value.Avoids hidden

/-- Native code that always does so. -/
def KeepsConcealed (call : NativeCall κ σ) : Prop :=
  ∀ (code : κ) (host : σ) {heap : Heap κ} {args : List Value} {hidden : Handle},
    heap.Conceals hidden → (∀ value ∈ args, value.Avoids hidden) →
      LeavesConcealed hidden (call code args (heap, host))

theorem LeavesConcealed.value {heap : Heap κ} (h : heap.Conceals hidden) {value : Value}
    (hvalue : value.Avoids hidden) (host : σ) :
    LeavesConcealed hidden (.ok value, (heap, host)) := by
  refine ⟨h, ?_⟩
  rintro _ ⟨⟩
  exact hvalue

theorem LeavesConcealed.error {heap : Heap κ} (h : heap.Conceals hidden) (message : String)
    (host : σ) :
    LeavesConcealed hidden (.error message, (heap, host)) := ⟨h, nofun⟩

theorem Builtin.call_leavesConcealed {ε τ : Type} (clock : Nat → Float) (builtin : Builtin)
    (args : List Value) (world : World ε τ) (h : world.1.Conceals hidden)
    (hargs : ∀ value ∈ args, value.Avoids hidden) :
    LeavesConcealed hidden (builtin.call clock args world) := by
  fun_cases Builtin.call clock builtin args world with
  | case1 args heap host => exact .value h (Value.avoids_of_handle?_eq_none rfl) _
  | case2 heap host value name handle heap' halloc =>
    obtain ⟨rfl, rfl⟩ := Prod.ext_iff.1 halloc
    exact .value (h.alloc (by simp [Object.children])) (Value.avoids_object (h.alloc_ne _)) _
  | case4 list value heap host items hlist =>
    refine .value (h.modifyList _ _ fun hget item hitem => ?_)
      (Value.avoids_of_handle?_eq_none rfl) _
    rcases Array.mem_push.1 hitem with hitem | rfl
    · exact h.avoids_item hget item hitem
    · exact hargs _ (by simp)
  | case7 list heap host items hlist value hlast =>
    refine .value (h.modifyList _ _ fun hget item hitem => ?_) ?_ _
    · exact h.avoids_item hget item (mem_of_mem_pop hitem)
    · exact h.avoids_item (Heap.list_eq_ok.1 hlist) _ (Array.mem_of_back? hlast)
  | case11 => exact .value h (Value.avoids_of_handle?_eq_none rfl) _
  | _ => exact .error h _ _

theorem Host.plain_keepsConcealed (clock : Nat → Float) :
    KeepsConcealed (Host.plain clock).call := by
  intro code host heap args hidden h hargs
  cases code with
  | builtin builtin => exact builtin.call_leavesConcealed clock args (heap, host) h hargs
  | custom code => exact nomatch code

/-! ## Memory -/

/-- A live object that only the lowest value on the stack refers to. -/
structure Memory.Conceals (m : Memory κ σ) (hidden : Handle) : Prop where
  heap : m.heap.Conceals hidden
  globals : ∀ value ∈ m.globals, value.Avoids hidden
  stack : ∀ {j : Nat} {value}, 0 < j → m.stack[j]? = some value → value.Avoids hidden

namespace Memory.Conceals

variable {m : Memory κ σ} {rest : Array Value} {value : Value}

theorem withStack (h : m.Conceals hidden) {stack : Array Value}
    (hstack : ∀ {j : Nat} {value}, 0 < j → stack[j]? = some value → value.Avoids hidden) :
    Conceals { m with stack } hidden := ⟨h.heap, h.globals, hstack⟩

theorem withHeap (h : m.Conceals hidden) {heap : Heap κ} (hheap : heap.Conceals hidden) (host : σ) :
    Conceals { m with heap, host } hidden := ⟨hheap, h.globals, h.stack⟩

theorem push (h : m.Conceals hidden) (hvalue : value.Avoids hidden) :
    Conceals { m with stack := m.stack.push value } hidden := by
  refine h.withStack fun {j other} hj hother => ?_
  rw [Array.getElem?_push] at hother
  split at hother
  · cases hother
    exact hvalue
  · exact h.stack hj hother

theorem set (h : m.Conceals hidden) (hvalue : value.Avoids hidden) (index : Nat) :
    Conceals { m with stack := m.stack.setIfInBounds index value } hidden := by
  refine h.withStack fun {j other} hj hother => ?_
  rw [Array.getElem?_setIfInBounds] at hother
  split at hother
  · split at hother
    · cases hother
      exact hvalue
    · cases hother
  · exact h.stack hj hother

theorem shrink (h : m.Conceals hidden) (n : Nat) :
    Conceals { m with stack := m.stack.shrink n } hidden := by
  refine h.withStack fun {j other} hj hother => ?_
  rw [getElem?_shrink] at hother
  split at hother
  · exact h.stack hj hother
  · cases hother

/-- What is left when a value is taken off the stack, and the value. -/
theorem popped (h : m.Conceals hidden) (hstack : m.stack = rest.push value) (hpos : 0 < rest.size) :
    Conceals { m with stack := rest } hidden ∧ value.Avoids hidden := by
  refine ⟨h.withStack fun {j other} hj hother => h.stack hj ?_, h.stack hpos ?_⟩
  · rw [hstack, Array.getElem?_push, if_neg, hother]
    have hlt := (Array.getElem?_eq_some_iff.1 hother).1
    omega
  · rw [hstack, Array.getElem?_push, if_pos rfl]

theorem avoids_extract (h : m.Conceals hidden) {start stop : Nat} (hstart : 0 < start) :
    ∀ value ∈ m.stack.extract start stop, value.Avoids hidden := by
  intro value hvalue
  obtain ⟨j, hj⟩ := Array.getElem?_of_mem hvalue
  rw [Array.getElem?_extract] at hj
  split at hj
  · exact h.stack (by omega) hj
  · cases hj

theorem returnTo (h : m.Conceals hidden) (hvalue : value.Avoids hidden) (base : Nat) :
    (m.returnTo base value).Conceals hidden := (h.shrink base).set hvalue _

/-- A collection, if one is due, keeps concealed what a frame runs from. -/
theorem collectIfDue (h : m.Conceals hidden) {env : Environment κ σ} {frames : Array Frame}
    (hframe : ∃ frame ∈ frames, frame.handle = hidden) :
    (m.collectIfDue env frames).Conceals hidden := by
  obtain ⟨frame, hmem, rfl⟩ := hframe
  have hcollect : (m.collect env.methods frames).2.Conceals frame.handle :=
    ⟨h.heap.collect (m.reachable_frame env.methods hmem), h.globals, h.stack⟩
  unfold Memory.collectIfDue
  split
  · exact hcollect
  · split
    · exact ⟨hcollect.heap, hcollect.globals, hcollect.stack⟩
    · exact h

end Memory.Conceals

/-! ## Instructions -/

/-- A transfer that neither calls the object at a handle nor returns with it. -/
def Transfer.Avoids (hidden : Handle) : Transfer → Prop
  | .enter handle .. => handle ≠ hidden
  | .leave result => result.Avoids hidden
  | .next | .jump _ => True

/-- The outcome of an instruction after which an object is still concealed. -/
inductive Concealed (hidden : Handle) : EStateM.Result Fault (Memory κ σ) Transfer → Prop
  | ok {t : Transfer} {m : Memory κ σ} (hm : m.Conceals hidden) (ht : t.Avoids hidden) :
      Concealed hidden (.ok t m)
  | error {fault : Fault} {m : Memory κ σ} : Concealed hidden (.error fault m)

namespace Concealed

variable {env : Environment κ σ} {m : Memory κ σ} {value : Value} {argc : Nat}

theorem placed (h : m.Conceals hidden) (hvalue : value.Avoids hidden) :
    Concealed hidden (placed env.config m value) := by
  unfold ScriptMachine.placed
  split
  · exact .error
  · exact .ok (h.push hvalue) trivial

theorem placedOr (h : m.Conceals hidden) {result : Except Fault Value}
    (hresult : ∀ {value}, result = .ok value → value.Avoids hidden) :
    Concealed hidden (placedOr env.config m result) := by
  cases result with
  | ok value => exact placed h (hresult rfl)
  | error fault => exact .error

theorem nativeCalled (h : m.Conceals hidden) (hcall : KeepsConcealed env.call) {args : List Value}
    (hargs : ∀ value ∈ args, value.Avoids hidden) (popped : Nat) (code : κ) :
    Concealed hidden (nativeCalled env m popped code args) := by
  obtain ⟨hheap, hresult⟩ := hcall code m.host h.heap hargs
  unfold ScriptMachine.nativeCalled
  generalize env.call code args (m.heap, m.host) = outcome at hheap hresult ⊢
  dsimp only
  split
  · next value hvalue => exact placed ((h.withHeap hheap outcome.2.2).shrink _) (hresult hvalue)
  · exact .error

theorem called (h : m.Conceals hidden) (hcall : KeepsConcealed env.call)
    (hvalue : value.Avoids hidden)
    (hargc : argc < m.stack.size) : Concealed hidden (called env m argc value) := by
  unfold ScriptMachine.called
  split
  · next handle =>
    split
    · exact .error
    · split
      · exact .error
      · exact .ok h fun heq => hvalue (congrArg some heq)
    · split
      · exact .error
      · refine nativeCalled h hcall (fun arg harg => ?_) _ _
        exact h.avoids_extract (by omega) arg (Array.mem_toList_iff.1 harg)
    · exact .error
  · exact .error

theorem invoked (h : m.Conceals hidden) (hcall : KeepsConcealed env.call) {name : String}
    (hargc : argc + 1 < m.stack.size) : Concealed hidden (invoked env m argc name value) := by
  unfold ScriptMachine.invoked
  split
  · exact .error
  · split
    · exact .error
    · refine nativeCalled h hcall (fun arg harg => ?_) _ _
      exact h.avoids_extract (by omega) arg (Array.mem_toList_iff.1 harg)

theorem jumped (h : m.Conceals hidden) (expected : Bool) (distance : Nat) :
    Concealed hidden (jumped expected distance m value) := by
  unfold ScriptMachine.jumped
  split
  · refine .ok h ?_
    split <;> exact trivial
  · exact .error

end Concealed

theorem BinaryOp.avoids_of_apply {op : BinaryOp} {left right value : Value}
    (h : op.apply left right = .ok value) : value.Avoids hidden := by
  unfold BinaryOp.apply at h
  split at h
  · cases h
    exact Value.avoids_of_handle?_eq_none rfl
  · cases h
    exact Value.avoids_of_handle?_eq_none rfl
  · cases h
    refine Value.avoids_of_handle?_eq_none ?_
    cases op <;> rfl
  · cases h

theorem UnaryOp.avoids_of_apply {op : UnaryOp} {operand value : Value}
    (h : op.apply operand = .ok value) : value.Avoids hidden := by
  unfold UnaryOp.apply at h
  split at h <;> cases h <;> exact Value.avoids_of_handle?_eq_none rfl

section Perform

variable {env : Environment κ σ} {frame : Frame} {n : Nat} {m : Memory κ σ} {k : Site κ}

theorem Concealed.binary (h : m.Conceals hidden) (hready : k.Ready env frame n m)
    (hbase : 0 < frame.base) (op : BinaryOp) (first second : UInt8) (hle : 2 ≤ n) :
    Concealed hidden (perform env frame ⟨op.opcode, first, second⟩ m) := by
  obtain ⟨n, rfl⟩ := Nat.exists_eq_add_of_le' hle
  obtain ⟨rest', right, hstack, hsize'⟩ := exists_push (n := n + 1) hready.size
  obtain ⟨rest, left, rfl, hsize⟩ := exists_push hsize'
  obtain ⟨hrest', -⟩ := h.popped hstack (by omega)
  obtain ⟨hrest, -⟩ := hrest'.popped rfl (by omega)
  rw [perform_bare (by cases op <;> rfl), perform_binary op hstack]
  exact .placedOr hrest BinaryOp.avoids_of_apply

theorem Concealed.unary (h : m.Conceals hidden) (hready : k.Ready env frame n m)
    (hbase : 0 < frame.base) (op : UnaryOp) (first second : UInt8) (hle : 1 ≤ n) :
    Concealed hidden (perform env frame ⟨op.opcode, first, second⟩ m) := by
  obtain ⟨n, rfl⟩ := Nat.exists_eq_add_of_le' hle
  obtain ⟨rest, operand, hstack, hsize⟩ := exists_push hready.size
  obtain ⟨hrest, -⟩ := h.popped hstack (by omega)
  rw [perform_bare (by cases op <;> rfl), perform_unary op hstack]
  exact .placedOr hrest UnaryOp.avoids_of_apply

/-- An instruction on a stack that is high enough keeps concealed what is concealed. -/
theorem perform_conceals (h : m.Conceals hidden) (hready : k.Ready env frame n m)
    (hbase : 0 < frame.base) (hcall : KeepsConcealed env.call)
    (hframe : ∀ value ∈ frame.function.chunk.constants, value.Avoids hidden) {i : Instruction}
    (hpops : i.pops ≤ n) (hoperand : i.OperandOk k n) :
    Concealed hidden (perform env frame i m) := by
  have hsize := hready.size
  have hplain : ∀ {value : Value}, value.handle? = none → value.Avoids hidden :=
    Value.avoids_of_handle?_eq_none
  obtain ⟨op, first, second⟩ := i
  cases op with
  | constant =>
    obtain ⟨value, hvalue⟩ := hoperand
    rw [← hready.chunk] at hvalue
    rw [perform_byte rfl, perform_constant hvalue]
    exact .placed h (hframe value (Array.mem_of_getElem? hvalue))
  | loadNull =>
    rw [perform_bare rfl, perform_loadNull]
    exact .placed h (hplain rfl)
  | loadTrue =>
    rw [perform_bare rfl, perform_loadTrue]
    exact .placed h (hplain rfl)
  | loadFalse =>
    rw [perform_bare rfl, perform_loadFalse]
    exact .placed h (hplain rfl)
  | pop =>
    obtain ⟨n, rfl⟩ := Nat.exists_eq_add_of_le' hpops
    obtain ⟨rest, value, hstack, hsize⟩ := exists_push hsize
    rw [perform_bare rfl, perform_pop hstack]
    exact .ok (h.popped hstack (by omega)).1 trivial
  | popN =>
    rw [perform_byte rfl, perform_popN]
    exact .ok (h.shrink _) trivial
  | getLocal =>
    have hlt : first.toNat < n := hoperand
    obtain ⟨value, hvalue⟩ : ∃ value, m.stack[frame.base + first.toNat]? = some value :=
      ⟨_, Array.getElem?_eq_getElem (by omega)⟩
    rw [perform_byte rfl, perform_getLocal hvalue]
    exact .placed h (h.stack (by omega) hvalue)
  | setLocal =>
    have hlt : first.toNat < n := hoperand
    obtain ⟨n, rfl⟩ := Nat.exists_eq_add_of_le' hpops
    obtain ⟨rest, value, hstack, hrest⟩ := exists_push hsize
    rw [perform_byte rfl, perform_setLocal hstack (by omega)]
    exact .ok (h.set (h.popped hstack (by omega)).2 _) trivial
  | getGlobal =>
    have hlt : first.toNat < k.globals := hoperand
    obtain ⟨value, hvalue⟩ : ∃ value, m.globals[first.toNat]? = some value :=
      ⟨_, Array.getElem?_eq_getElem (by rw [hready.globals]; exact hlt)⟩
    rw [perform_byte rfl, perform_getGlobal hvalue]
    exact .placed h (h.globals value (Array.mem_of_getElem? hvalue))
  | setGlobal =>
    have hlt : first.toNat < k.globals := hoperand
    obtain ⟨n, rfl⟩ := Nat.exists_eq_add_of_le' hpops
    obtain ⟨rest, value, hstack, hsize⟩ := exists_push hsize
    rw [perform_byte rfl, perform_setGlobal hstack (by rw [hready.globals]; exact hlt)]
    refine .ok ⟨h.heap, fun other hother => ?_, h.stack⟩ trivial
    rcases Array.mem_or_eq_of_mem_setIfInBounds hother with hother | rfl
    · exact h.globals other hother
    · exact (h.popped hstack (by omega)).2
  | add => exact .binary h hready hbase .add first second hpops
  | sub => exact .binary h hready hbase .sub first second hpops
  | mul => exact .binary h hready hbase .mul first second hpops
  | div => exact .binary h hready hbase .div first second hpops
  | floorDiv => exact .binary h hready hbase .floorDiv first second hpops
  | mod => exact .binary h hready hbase .mod first second hpops
  | equal => exact .binary h hready hbase .equal first second hpops
  | notEqual => exact .binary h hready hbase .notEqual first second hpops
  | less => exact .binary h hready hbase .less first second hpops
  | lessEqual => exact .binary h hready hbase .lessEqual first second hpops
  | greater => exact .binary h hready hbase .greater first second hpops
  | greaterEqual => exact .binary h hready hbase .greaterEqual first second hpops
  | negate => exact .unary h hready hbase .neg first second hpops
  | invert => exact .unary h hready hbase .not first second hpops
  | makeList =>
    have hle : first.toNat ≤ n := hpops
    rw [perform_byte rfl, perform_makeList (by omega)]
    have hheap : Heap.Conceals (m.heap.alloc (.list
        (m.stack.extract (m.stack.size - first.toNat) m.stack.size))).2 hidden := by
      refine h.heap.alloc fun hchild => ?_
      obtain ⟨item, hitem, hhandle⟩ := List.mem_filterMap.1 hchild
      exact h.avoids_extract (by omega) item (Array.mem_toList_iff.1 hitem) hhandle
    exact .placed ((h.withHeap hheap m.host).shrink _) (Value.avoids_object (h.heap.alloc_ne _))
  | getIndex =>
    obtain ⟨n, rfl⟩ := Nat.exists_eq_add_of_le' hpops
    obtain ⟨rest', index, hstack, hsize'⟩ := exists_push (n := n + 1) hsize
    obtain ⟨rest, base, rfl, hsize⟩ := exists_push hsize'
    obtain ⟨hrest', -⟩ := h.popped hstack (by omega)
    obtain ⟨hrest, -⟩ := hrest'.popped rfl (by omega)
    rw [perform_bare rfl, perform_getIndex hstack]
    exact .placedOr hrest h.heap.avoids_element
  | setIndex =>
    obtain ⟨n, rfl⟩ := Nat.exists_eq_add_of_le' hpops
    obtain ⟨rest'', value, hstack, hsize''⟩ := exists_push (n := n + 2) hsize
    obtain ⟨rest', index, rfl, hsize'⟩ := exists_push (n := n + 1) hsize''
    obtain ⟨rest, base, rfl, hsize⟩ := exists_push hsize'
    obtain ⟨hrest'', hvalue⟩ := h.popped hstack (by omega)
    obtain ⟨hrest', -⟩ := hrest''.popped rfl (by omega)
    obtain ⟨hrest, -⟩ := hrest'.popped rfl (by omega)
    rw [perform_bare rfl, perform_setIndex hstack]
    split
    · next heap helement =>
      exact .placed (hrest.withHeap (h.heap.withElement hvalue helement) m.host) hvalue
    · exact .error
  | jump => exact .ok h trivial
  | jumpIfFalse =>
    obtain ⟨n, rfl⟩ := Nat.exists_eq_add_of_le' hpops
    obtain ⟨rest, value, hstack, -⟩ := exists_push hsize
    rw [perform_jumpIfFalse hstack]
    exact .jumped h _ _
  | jumpIfTrue =>
    obtain ⟨n, rfl⟩ := Nat.exists_eq_add_of_le' hpops
    obtain ⟨rest, value, hstack, -⟩ := exists_push hsize
    rw [perform_jumpIfTrue hstack]
    exact .jumped h _ _
  | call =>
    have hle : first.toNat + 1 ≤ n := hpops
    obtain ⟨callee, hcallee⟩ : ∃ callee, m.stack[m.stack.size - (first.toNat + 1)]? = some callee :=
      ⟨_, Array.getElem?_eq_getElem (by omega)⟩
    rw [perform_byte rfl, perform_call (by omega) hcallee]
    exact .called h hcall (h.stack (by omega) hcallee) (by omega)
  | invoke =>
    have hle : second.toNat + 1 ≤ n := hpops
    obtain ⟨name, handle, hname, hstring⟩ := hoperand
    obtain ⟨receiver, hreceiver⟩ :
        ∃ receiver, m.stack[m.stack.size - (second.toNat + 1)]? = some receiver :=
      ⟨_, Array.getElem?_eq_getElem (by omega)⟩
    rw [← hready.chunk] at hname
    rw [perform_invoke hname (hready.heap.get hstring (by simp [Object.kind])) (by omega) hreceiver]
    exact .invoked h hcall (by omega)
  | ret =>
    obtain ⟨n, rfl⟩ := Nat.exists_eq_add_of_le' hpops
    obtain ⟨rest, value, hstack, hsize⟩ := exists_push hsize
    obtain ⟨hrest, hvalue⟩ := h.popped hstack (by omega)
    rw [perform_bare rfl, perform_ret hstack]
    exact .ok hrest hvalue
  | print =>
    obtain ⟨n, rfl⟩ := Nat.exists_eq_add_of_le' hpops
    obtain ⟨rest, value, hstack, hsize⟩ := exists_push hsize
    obtain ⟨hrest, -⟩ := h.popped hstack (by omega)
    rw [perform_bare rfl, perform_print hstack]
    exact .ok ⟨hrest.heap, hrest.globals, hrest.stack⟩ trivial

end Perform

end ScriptMachine
