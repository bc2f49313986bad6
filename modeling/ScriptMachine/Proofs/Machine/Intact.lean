import ScriptMachine.Proofs.Machine.Lockstep
import ScriptMachine.Proofs.Machine.Safety

/-!
# Nothing dangles while a machine runs

In an intact memory (`Memory.Intact`) the stack, the globals, the methods and all
objects on the heap refer to live objects only. Instructions keep memory intact:
what they push, store or allocate comes from where nothing dangled, and they meet
no stale handle (`perform_upholds`). A collection keeps it intact too, since what
it leaves is reachable (`Heap.Closed.collect`). So every state of a run is intact
(`Undangling.steps`).
-/

namespace ScriptMachine

variable {κ σ α δ : Type}

/-- A memory in which nothing dangles. -/
structure Memory.Closed (m : Memory κ σ) (methods : MethodTable) : Prop where
  heap : m.heap.Closed
  globals : ∀ value ∈ m.globals, m.heap.Holds value
  methods : ∀ method ∈ methods, m.heap.isLive method.2

/-- A memory in which nothing dangles, the stack included. -/
structure Memory.Intact (m : Memory κ σ) (methods : MethodTable) : Prop extends
    m.Closed methods where
  stack : ∀ value ∈ m.stack, m.heap.Holds value

theorem mem_of_mem_extract {xs : Array α} {i j : Nat} {x : α} (h : x ∈ xs.extract i j) :
    x ∈ xs := by
  rw [Array.mem_def, Array.toList_extract] at h
  exact Array.mem_toList_iff.1 (List.mem_of_mem_drop (List.mem_of_mem_take h))

theorem mem_of_mem_shrink {xs : Array α} {n : Nat} {x : α} (h : x ∈ xs.shrink n) : x ∈ xs := by
  rw [Array.shrink_eq_take] at h
  exact mem_of_mem_extract h

theorem mem_of_mem_pop {xs : Array α} {x : α} (h : x ∈ xs.pop) : x ∈ xs := by
  rw [Array.mem_def, Array.toList_pop] at h
  exact Array.mem_def.2 (List.mem_of_mem_dropLast h)

/-! ## Heaps with more live objects -/

namespace Heap

/-- What is live on one heap is live on the other. -/
def Within (heap heap' : Heap κ) : Prop := ∀ handle, heap.isLive handle → heap'.isLive handle

variable {heap heap' heap'' : Heap κ}

theorem Within.refl (heap : Heap κ) : heap.Within heap := fun _ => id

theorem Within.trans (h : heap.Within heap') (h' : heap'.Within heap'') : heap.Within heap'' :=
  fun handle hlive => h' handle (h handle hlive)

theorem Holds.mono {value : Value} (h : heap.Holds value) (hle : heap.Within heap') :
    heap'.Holds value :=
  fun handle hhandle => hle handle (h handle hhandle)

theorem isLive_modifyList (heap : Heap κ) (handle : Handle) (f : Array Value → Array Value)
    (other : Handle) : (heap.modifyList handle f).isLive other = heap.isLive other := by
  rw [modifyList_eq, isLive, isLive, entry?_modifyObject, Option.isSome_map]

theorem within_modifyList (heap : Heap κ) (handle : Handle) (f : Array Value → Array Value) :
    heap.Within (heap.modifyList handle f) := by
  intro other hother
  rw [isLive_modifyList]
  exact hother

theorem within_alloc (h : heap.WF) (object : Object κ) : heap.Within (heap.alloc object).2 :=
  fun _ => isLive_alloc h object

/-- The items of a list on a closed heap. -/
theorem Closed.holds_item (h : heap.Closed) {handle : Handle} {items : Array Value}
    (hget : heap.get handle = .ok (.list items)) {item : Value} (hitem : item ∈ items) :
    heap.Holds item :=
  fun child hchild => h.children hget child
    (List.mem_filterMap.2 ⟨item, Array.mem_toList_iff.2 hitem, hchild⟩)

/-- The constants of a function on a closed heap. -/
theorem Closed.holds_constant (h : heap.Closed) {handle : Handle} {f : Function}
    (hget : heap.get handle = .ok (.function f)) {value : Value}
    (hvalue : value ∈ f.chunk.constants) : heap.Holds value :=
  fun child hchild => h.children hget child
    (List.mem_filterMap.2 ⟨value, Array.mem_toList_iff.2 hvalue, hchild⟩)

/-- Changing the items of a list keeps a heap closed, if the new ones are live. -/
theorem Closed.modifyList (h : heap.Closed) (handle : Handle) (f : Array Value → Array Value)
    (hf : ∀ {items}, heap.get handle = .ok (.list items) → ∀ item ∈ f items, heap.Holds item) :
    (heap.modifyList handle f).Closed := by
  refine ⟨((Kept.refl h.wf).modifyList handle f).wf, fun {other object} hget child hchild => ?_⟩
  rw [isLive_modifyList]
  rcases get_of_get_modifyList hget with hold | ⟨items, rfl, hold, rfl⟩
  · exact h.children hold child hchild
  · obtain ⟨item, hitem, hhandle⟩ := List.mem_filterMap.1 hchild
    exact hf hold item (Array.mem_toList_iff.1 hitem) child hhandle

/-- The elements of lists on a closed heap. -/
theorem Closed.holds_element (h : heap.Closed) {base index value : Value}
    (helement : heap.element base index = .ok value) : heap.Holds value := by
  obtain ⟨handle, items, hlist, hitem⟩ := exists_list_of_element helement
  exact h.holds_item (list_eq_ok.1 hlist) hitem

/-- Replacing an element by a live one. -/
theorem Closed.withElement (h : heap.Closed) {base index value : Value}
    (hvalue : heap.Holds value) (helement : heap.withElement base index value = .ok heap') :
    heap'.Closed ∧ heap.Within heap' := by
  obtain ⟨handle, position, rfl⟩ := exists_eq_of_withElement helement
  refine ⟨h.modifyList handle _ fun hget item hitem => ?_, within_modifyList _ _ _⟩
  rcases Array.mem_or_eq_of_mem_setIfInBounds hitem with hitem | rfl
  · exact h.holds_item hget hitem
  · exact hvalue

/-- What a collection leaves refers to what it leaves. -/
theorem Closed.collect (h : heap.Closed) (roots : Roots) : (heap.collect roots).2.Closed := by
  refine ⟨h.wf.collect roots, fun {handle object} hget child hchild => ?_⟩
  obtain ⟨-, hreach⟩ := (isLive_collect h.wf roots handle).1 (isLive_iff.2 ⟨object, hget⟩)
  rw [get_collect_of_reachable h.wf hreach] at hget
  exact (isLive_collect h.wf roots child).2
    ⟨h.children hget child hchild, hreach.child hget hchild⟩

/-- All that closed roots reach is live. -/
theorem Closed.isLive_of_reachable (h : heap.Closed) {roots : Roots}
    (hroots : ∀ handle ∈ roots.handles, heap.isLive handle) {handle : Handle}
    (hreach : heap.Reachable roots handle) : heap.isLive handle := by
  induction hreach with
  | root hroot => exact hroots _ hroot
  | child _ hget hchild _ => exact h.children hget _ hchild

end Heap

/-! ## Native code -/

/-- The texts with which a heap reports stale handles. -/
def IsStaleMessage (message : String) : Prop := ∃ handle, message = (HeapFault.stale handle).message

/-- Native code that, called where nothing dangles, lets nothing dangle and meets no
stale handle. -/
structure LeavesIntact (heap : Heap κ) (outcome : Except String Value × (Heap κ × σ)) : Prop where
  closed : outcome.2.1.Closed
  within : heap.Within outcome.2.1
  result : ∀ {value}, outcome.1 = .ok value → outcome.2.1.Holds value
  message : ∀ {message}, outcome.1 = .error message → ¬IsStaleMessage message

/-- Native code that always does so. -/
def KeepsIntact (call : NativeCall κ σ) : Prop :=
  ∀ (code : κ) (host : σ) {heap : Heap κ} {args : List Value}, heap.Closed →
    (∀ value ∈ args, heap.Holds value) → LeavesIntact heap (call code args (heap, host))

/-- Native code that gives a value and leaves the heap as it is. -/
theorem LeavesIntact.value {heap : Heap κ} (h : heap.Closed) {value : Value}
    (hvalue : heap.Holds value) (host : σ) : LeavesIntact heap (.ok value, (heap, host)) := by
  refine ⟨h, .refl heap, ?_, ?_⟩
  · rintro _ ⟨⟩
    exact hvalue
  · rintro _ ⟨⟩

theorem LeavesIntact.error {heap : Heap κ} (h : heap.Closed) {message : String}
    (hmessage : ¬IsStaleMessage message) (host : σ) :
    LeavesIntact heap (.error message, (heap, host)) := by
  refine ⟨h, .refl heap, ?_, ?_⟩
  · rintro _ ⟨⟩
  · rintro _ ⟨⟩
    exact hmessage

/-- A text that does not start like that of a stale handle. -/
theorem not_isStaleMessage {message : String} (h : message.toList.take 5 ≠ "stale".toList) :
    ¬IsStaleMessage message := by
  rintro ⟨handle, rfl⟩
  have hstart : ∀ rest, ("stale object reference (slot " ++ rest).toList.take 5 =
      "stale".toList := by simp
  refine h ?_
  unfold HeapFault.message
  dsimp only
  rw [String.append_assoc, String.append_assoc, String.append_assoc]
  exact hstart _

theorem HeapFault.not_isStaleMessage_wrongKind (expected found : ObjectKind) :
    ¬IsStaleMessage (HeapFault.wrongKind expected found).message := by
  refine not_isStaleMessage ?_
  unfold HeapFault.message
  dsimp only
  simp

/-- A live handle that reaches no list is not reported as stale. -/
theorem Heap.not_isStaleMessage_of_list {heap : Heap κ} {handle : Handle}
    (hlive : heap.isLive handle) {fault : HeapFault} (h : heap.list handle = .error fault) :
    ¬IsStaleMessage fault.message := by
  obtain ⟨object, hget⟩ := Heap.isLive_iff.1 hlive
  unfold Heap.list at h
  rw [hget] at h
  split at h
  · cases h
  · cases h
    exact HeapFault.not_isStaleMessage_wrongKind _ _
  · next heq => cases heq

/-- A value that is no object refers to nothing. -/
theorem Heap.holds_of_handle?_eq_none {heap : Heap κ} {value : Value} (h : value.handle? = none) :
    heap.Holds value := by
  intro handle hhandle
  rw [h] at hhandle
  cases hhandle

/-- Native code that changes the items of a list and gives a value. -/
theorem LeavesIntact.modifyList {heap : Heap κ} (h : heap.Closed) {handle : Handle}
    {f : Array Value → Array Value}
    (hf : ∀ {items}, heap.get handle = .ok (.list items) → ∀ item ∈ f items, heap.Holds item)
    {value : Value} (hvalue : heap.Holds value) (host : σ) :
    LeavesIntact heap (.ok value, (heap.modifyList handle f, host)) := by
  have hwithin := heap.within_modifyList handle f
  refine ⟨h.modifyList handle f hf, hwithin, ?_, ?_⟩
  · rintro _ ⟨⟩
    exact hvalue.mono hwithin
  · rintro _ ⟨⟩

variable {ε τ : Type}

/-- The built-in functions let nothing dangle. -/
theorem Builtin.call_leavesIntact (clock : Nat → Float) (builtin : Builtin) (args : List Value)
    (world : World ε τ) (h : world.1.Closed) (hargs : ∀ value ∈ args, world.1.Holds value) :
    LeavesIntact world.1 (builtin.call clock args world) := by
  fun_cases Builtin.call clock builtin args world with
  | case1 args heap host => exact .value h (Heap.holds_of_handle?_eq_none rfl) _
  | case2 heap host value name handle heap' halloc =>
    have hwf := h.wf
    obtain ⟨rfl, rfl⟩ := Prod.ext_iff.1 halloc
    refine ⟨h.alloc (by simp [Object.children]), Heap.within_alloc hwf _, ?_, ?_⟩
    · rintro _ ⟨⟩ _ ⟨⟩
      exact Heap.isLive_alloc_self hwf _
    · rintro _ ⟨⟩
  | case4 list value heap host items hlist =>
    refine .modifyList h (fun hget item hitem => ?_) (Heap.holds_of_handle?_eq_none rfl) _
    rcases Array.mem_push.1 hitem with hitem | rfl
    · exact h.holds_item hget hitem
    · exact hargs _ (by simp)
  | case7 list heap host items hlist value hlast =>
    have hget := Heap.list_eq_ok.1 hlist
    refine .modifyList h (fun hget' item hitem => ?_) ?_ _
    · exact h.holds_item hget' (mem_of_mem_pop hitem)
    · exact h.holds_item hget (Array.mem_of_back? hlast)
  | case5 list value heap host fault hlist =>
    exact .error h (Heap.not_isStaleMessage_of_list (hargs (.object list) (by simp) list rfl) hlist)
      _
  | case9 list heap host fault hlist =>
    exact .error h (Heap.not_isStaleMessage_of_list (hargs (.object list) (by simp) list rfl) hlist)
      _
  | case12 list heap host fault hlist =>
    exact .error h (Heap.not_isStaleMessage_of_list (hargs (.object list) (by simp) list rfl) hlist)
      _
  | case11 => exact .value h (Heap.holds_of_handle?_eq_none rfl) _
  | _ => exact .error h (not_isStaleMessage (by simp)) _

theorem Host.plain_keepsIntact (clock : Nat → Float) : KeepsIntact (Host.plain clock).call := by
  intro code host heap args h hargs
  cases code with
  | builtin builtin => exact builtin.call_leavesIntact clock args (heap, host) h hargs
  | custom code => exact nomatch code

/-! ## Computations -/

/-- Faults that report a stale handle, be it by native code. -/
def Fault.Stale : Fault → Prop
  | .heap (.stale _) => True
  | .native message => IsStaleMessage message
  | _ => False

theorem Fault.Own.not_stale {fault : Fault} (h : fault.Own) : ¬fault.Stale := by
  intro hstale
  cases fault with
  | heap fault => exact h.1 trivial
  | native message => exact h.2 trivial
  | _ => exact hstale

/-! Whatever is looked up by a live handle, the handle is not found to be stale. -/

section Lookup

variable {heap : Heap κ} {handle : Handle} {fault : HeapFault}

theorem Heap.not_stale_of_get (hlive : heap.isLive handle) (h : heap.get handle = .error fault) :
    ¬(Fault.heap fault).Stale := by
  obtain ⟨object, hget⟩ := Heap.isLive_iff.1 hlive
  rw [hget] at h
  cases h

theorem Heap.not_stale_of_kind (hlive : heap.isLive handle) (h : heap.kind handle = .error fault) :
    ¬(Fault.heap fault).Stale := by
  obtain ⟨object, hget⟩ := Heap.isLive_iff.1 hlive
  rw [Heap.kind, hget] at h
  cases h

theorem Heap.not_stale_of_string (hlive : heap.isLive handle)
    (h : heap.string handle = .error fault) : ¬(Fault.heap fault).Stale := by
  obtain ⟨object, hget⟩ := Heap.isLive_iff.1 hlive
  rw [Heap.string, hget] at h
  cases object <;> cases h <;> exact id

theorem Heap.not_stale_of_native (hlive : heap.isLive handle)
    (h : heap.native handle = .error fault) : ¬(Fault.heap fault).Stale := by
  obtain ⟨object, hget⟩ := Heap.isLive_iff.1 hlive
  rw [Heap.native, hget] at h
  cases object <;> cases h <;> exact id

end Lookup

/-- An outcome with an intact memory, in which all that was live is live, and
without a stale handle; of a result, `Q` holds. -/
inductive Upheld (methods : MethodTable) (heap : Heap κ) (Q : Heap κ → α → Prop) :
    EStateM.Result Fault (Memory κ σ) α → Prop
  | ok {a : α} {m : Memory κ σ} (hm : m.Intact methods) (hle : heap.Within m.heap)
      (h : Q m.heap a) : Upheld methods heap Q (.ok a m)
  | error {fault : Fault} {m : Memory κ σ} (hm : m.Intact methods) (hle : heap.Within m.heap)
      (h : ¬fault.Stale) : Upheld methods heap Q (.error fault m)

theorem Upheld.widen {methods : MethodTable} {heap heap' : Heap κ} {Q : Heap κ → α → Prop}
    {r : EStateM.Result Fault (Memory κ σ) α} (hle : heap.Within heap')
    (h : Upheld methods heap' Q r) : Upheld methods heap Q r := by
  cases h with
  | ok hm hle' h => exact .ok hm (hle.trans hle') h
  | error hm hle' h => exact .error hm (hle.trans hle') h

/-- A computation that keeps memory intact, from any memory in which the objects of
`heap` are live. -/
def Upholds (methods : MethodTable) (heap : Heap κ) (Q : Heap κ → α → Prop) (x : Act κ σ α) :
    Prop :=
  ∀ m, heap.Within m.heap → m.Intact methods → Upheld methods m.heap Q (x m)

/-- The result with which a function returns is live. -/
def Transfer.ReturnsLive (heap : Heap κ) : Transfer → Prop
  | .leave result => heap.Holds result
  | _ => True

/-- Results of which nothing is said. -/
abbrev Whatever : Heap κ → α → Prop := fun _ _ => True

/-- Another stack of values that are live. -/
theorem Memory.Intact.withStack {methods : MethodTable} {m : Memory κ σ} (hm : m.Intact methods)
    {stack : Array Value} (h : ∀ value ∈ stack, m.heap.Holds value) :
    Memory.Intact { m with stack } methods :=
  ⟨⟨hm.heap, hm.globals, hm.methods⟩, h⟩

/-- Another heap on which all that was live is live. -/
theorem Memory.Intact.withHeap {methods : MethodTable} {m : Memory κ σ} (hm : m.Intact methods)
    {heap : Heap κ} (h : heap.Closed) (hle : m.heap.Within heap) :
    Memory.Intact { m with heap } methods :=
  ⟨⟨h, fun value hvalue => (hm.globals value hvalue).mono hle,
    fun method hmethod => hle _ (hm.methods method hmethod)⟩,
    fun value hvalue => (hm.stack value hvalue).mono hle⟩

namespace Upholds

variable {methods : MethodTable} {heap : Heap κ} {Q : Heap κ → α → Prop} {R : Heap κ → δ → Prop}

theorem pure {a : α} (h : ∀ {heap'}, heap.Within heap' → Q heap' a) :
    Upholds (σ := σ) methods heap Q (Pure.pure a) :=
  fun m hle hm => .ok hm (.refl m.heap) (h hle)

theorem next : Upholds (σ := σ) methods heap Transfer.ReturnsLive (Pure.pure .next) :=
  .pure fun _ => trivial

theorem throw {fault : Fault} (h : ¬fault.Stale) :
    Upholds (σ := σ) methods heap Q (throwThe Fault fault) :=
  fun m _ hm => .error hm (.refl m.heap) h

theorem bind {x : Act κ σ α} {k : α → Act κ σ δ} (hx : Upholds methods heap Q x)
    (hk : ∀ {heap' a}, heap.Within heap' → Q heap' a → Upholds methods heap' R (k a)) :
    Upholds methods heap R (x >>= k) := by
  intro m hle hm
  have hfirst := hx m hle hm
  rw [act_bind]
  generalize x m = r at hfirst
  cases hfirst with
  | @ok a m' hm' hle' ha => exact (hk (hle.trans hle') ha m' (.refl _) hm').widen hle'
  | error hm' hle' h => exact .error hm' hle' h

theorem mono {heap' : Heap κ} {x : Act κ σ α} (hle : heap.Within heap')
    (h : Upholds methods heap Q x) : Upholds methods heap' Q x :=
  fun m hle' => h m (hle.trans hle')

/-- Reading memory. -/
theorem get : Upholds (σ := σ) methods heap (fun heap' m => m.heap = heap' ∧ m.Intact methods)
    get :=
  fun m _ hm => .ok hm (.refl m.heap) ⟨rfl, hm⟩

theorem push (config : Config) {value : Value} (hvalue : heap.Holds value) :
    Upholds (σ := σ) methods heap Whatever (push config value) := by
  intro m hle hm
  rw [push_apply]
  split
  · exact .error hm (.refl _) id
  · refine .ok (hm.withStack fun other hother => ?_) (.refl _) trivial
    rcases Array.mem_push.1 hother with hother | rfl
    · exact hm.stack other hother
    · exact hvalue.mono hle

theorem pop : Upholds (σ := σ) methods heap Heap.Holds pop := by
  intro m _ hm
  rw [pop_apply]
  split
  · next value hlast =>
    exact .ok (hm.withStack fun other hother => hm.stack other (mem_of_mem_pop hother)) (.refl _)
      (hm.stack value (Array.mem_of_back? hlast))
  · exact .error hm (.refl _) id

theorem peek (distance : Nat) : Upholds (σ := σ) methods heap Heap.Holds (peek distance) := by
  intro m _ hm
  rw [peek_apply]
  split
  · next value hvalue =>
    split at hvalue
    · exact .ok hm (.refl _) (hm.stack value (Array.mem_of_getElem? hvalue))
    · cases hvalue
  · exact .error hm (.refl _) id

/-- Cutting the stack down. -/
theorem shrink (size : Memory κ σ → Nat) :
    Upholds methods heap Whatever (modify fun m => { m with stack := m.stack.shrink (size m) }) :=
  fun m _ hm => .ok (hm.withStack fun value hvalue => hm.stack value (mem_of_mem_shrink hvalue))
    (.refl m.heap) trivial

theorem popMany (count : Nat) :
    Upholds (σ := σ) methods heap (fun heap' items => ∀ item ∈ items, heap'.Holds item)
      (popMany count) := by
  intro m _ hm
  rw [popMany_apply]
  split
  · exact .error hm (.refl _) id
  · refine .ok (hm.withStack fun value hvalue => hm.stack value (mem_of_mem_shrink hvalue))
      (.refl _) fun item hitem => hm.stack item ?_
    exact mem_of_mem_extract hitem

theorem numericBinary (config : Config) {op : Float → Float → Value}
    (hop : ∀ a b, (op a b).handle? = none) :
    Upholds (σ := σ) methods heap Whatever (numericBinary config op) := by
  refine pop.bind fun _ _ => pop.bind fun _ _ => ?_
  split
  · exact push _ (Heap.holds_of_handle?_eq_none (hop _ _))
  · exact throw id

theorem getElement {base index : Value} (hbase : heap.Holds base) :
    Upholds (σ := σ) methods heap Heap.Holds (getElement base index) := by
  intro m hle hm
  rw [getElement_apply]
  split
  · next value helement => exact .ok hm (.refl _) (hm.heap.holds_element helement)
  · next fault helement =>
    exact .error hm (.refl _) (Heap.own_of_element (hbase.mono hle) helement).not_stale

theorem setElement {base index value : Value} (hbase : heap.Holds base)
    (hvalue : heap.Holds value) :
    Upholds (σ := σ) methods heap Whatever (setElement base index value) := by
  intro m hle hm
  rw [setElement_apply]
  split
  · next heap' helement =>
    obtain ⟨hclosed, hwithin⟩ := hm.heap.withElement (hvalue.mono hle) helement
    exact .ok (hm.withHeap hclosed hwithin) hwithin trivial
  · next fault helement =>
    exact .error hm (.refl _) (Heap.own_of_withElement (hbase.mono hle) helement).not_stale

theorem newList {items : Array Value} (hitems : ∀ item ∈ items, heap.Holds item) :
    Upholds (σ := σ) methods heap (fun heap' handle => heap'.isLive handle) (modifyGet fun m =>
      let (handle, heap) := m.heap.alloc (.list items)
      (handle, { m with heap })) := by
  intro m hle hm
  have hwf := hm.heap.wf
  have hclosed : (m.heap.alloc (.list items)).2.Closed := by
    refine hm.heap.alloc fun child hchild => ?_
    obtain ⟨item, hitem, hhandle⟩ := List.mem_filterMap.1 hchild
    exact hle child (hitems item (Array.mem_toList_iff.1 hitem) child hhandle)
  exact .ok (hm.withHeap hclosed (Heap.within_alloc hwf _)) (Heap.within_alloc hwf _)
    (Heap.isLive_alloc_self hwf _)

theorem checkArity (name : String) (arity argc : Nat) :
    Upholds (σ := σ) methods heap Whatever (checkArity name arity argc) := by
  intro m _ hm
  rw [checkArity_apply]
  split
  · exact .error hm (.refl _) id
  · exact .ok hm (.refl _) trivial

theorem constantAt {frame : Frame} (hframe : ∀ value ∈ frame.function.chunk.constants,
    heap.Holds value) (index : UInt8) :
    Upholds (σ := σ) methods heap Heap.Holds (constantAt frame index) := by
  unfold ScriptMachine.constantAt
  split
  · next value hvalue =>
      exact pure fun hle => (hframe value (Array.mem_of_getElem? hvalue)).mono hle
  · exact throw id

theorem jumpIf (expected : Bool) (distance : Nat) :
    Upholds (σ := σ) methods heap Transfer.ReturnsLive (jumpIf expected distance) := by
  refine (peek 0).bind fun _ _ => ?_
  split
  · refine pure fun _ => ?_
    split <;> exact trivial
  · exact throw id

/-- What was found on the heap. -/
theorem onHeap {x : Except HeapFault α}
    (h : ∀ {fault}, x = .error fault → ¬(Fault.heap fault).Stale) :
    Upholds (σ := σ) methods heap (fun _ a => x = .ok a) (onHeap x) := by
  intro m _ hm
  cases hx : x with
  | ok a => exact .ok hm (.refl _) rfl
  | error fault => exact .error hm (.refl _) (h hx)

section Calls

variable {env : Environment κ σ} (hcall : KeepsIntact env.call)

include hcall

theorem callNative (code : κ) (popped argc : Nat) :
    Upholds methods heap Whatever (callNative env code popped argc) := by
  intro m _ hm
  have hargs : ∀ value ∈ (m.stack.extract (m.stack.size - argc) m.stack.size).toList,
      m.heap.Holds value := fun value hvalue =>
    hm.stack value (mem_of_mem_extract (Array.mem_toList_iff.1 hvalue))
  have hcalled := hcall code m.host hm.heap hargs
  have hheap := hm.withHeap hcalled.closed hcalled.within
  rw [callNative_apply]
  dsimp only
  split
  · next value hvalue =>
    have hresult := hcalled.result hvalue
    generalize env.call code _ (m.heap, m.host) = outcome at hcalled hheap hresult ⊢
    let called : Memory κ σ :=
      { m with
        heap := outcome.2.1
        host := outcome.2.2
        stack := m.stack.shrink (m.stack.size - popped) }
    have hintact : called.Intact methods :=
      ⟨⟨hheap.heap, hheap.globals, hheap.methods⟩, fun other hother =>
        hheap.stack other (mem_of_mem_shrink hother)⟩
    exact (push env.config hresult called (.refl _) hintact).widen hcalled.within
  · next message hmessage =>
    exact .error ⟨⟨hheap.heap, hheap.globals, hheap.methods⟩, hheap.stack⟩ hcalled.within
      (hcalled.message hmessage)

theorem callValue (argc : Nat) :
    Upholds methods heap Transfer.ReturnsLive (callValue env argc) := by
  refine (peek argc).bind fun {_ callee} _ hcallee => ?_
  split
  · next handle =>
    refine get.bind fun {heap' m} hle hm => ?_
    refine (onHeap fun hfault => ?_).bind fun {_ object} _ _ => ?_
    · exact Heap.not_stale_of_get (hm.1 ▸ hle handle (hcallee handle rfl)) hfault
    · split
      · exact (checkArity _ _ _).bind fun _ _ => pure fun _ => trivial
      · exact (checkArity _ _ _).bind fun _ _ => (callNative hcall _ _ _).bind fun _ _ => next
      · exact throw id
  · exact get.bind fun _ _ => throw id

omit hcall in
theorem findMethod (name : String) {receiver : Value} (hreceiver : heap.Holds receiver) :
    Upholds env.methods heap (fun heap' method => heap'.isLive method)
      (findMethod env name receiver) := by
  -- A method that is found is live, as all methods are.
  have hfound : ∀ {heap : Heap κ} {found : Option Handle},
      (∀ method, found = some method → heap.isLive method) →
      Upholds env.methods heap (fun heap' method => heap'.isLive method)
        (answered name receiver found : Act κ σ Handle) := by
    intro heap found hlive
    cases found with
    | some native => exact pure fun hle => hle _ (hlive _ rfl)
    | none => exact get.bind fun _ _ => throw id
  unfold ScriptMachine.findMethod
  dsimp only
  split
  · next handle =>
    refine get.bind fun {_ m} hle hm => (onHeap fun hfault => ?_).bind fun {_ kind} hle' _ => ?_
    · exact Heap.not_stale_of_kind (hm.1 ▸ hle handle (hreceiver handle rfl)) hfault
    · refine hfound fun method hfind => ?_
      obtain ⟨before, after, heq, -⟩ := List.lookup_eq_some_iff.1 hfind
      have hlive := hm.2.methods ((kind, name), method) (by rw [heq]; simp)
      exact hle' method (hm.1 ▸ hlive)
  · exact @hfound _ none (by simp)

theorem invoke {name : Value} (hname : heap.Holds name) (argc : Nat) :
    Upholds env.methods heap Whatever (invoke env name argc) := by
  unfold ScriptMachine.invoke
  split
  · next handle =>
    refine get.bind fun {_ m} hle hm => ?_
    refine (onHeap fun hfault => ?_).bind fun {_ text} _ _ => ?_
    · exact Heap.not_stale_of_string (hm.1 ▸ hle handle (hname handle rfl)) hfault
    refine (peek argc).bind fun {_ receiver} _ hreceiver => ?_
    refine (findMethod text hreceiver).bind fun {_ method} _ hmethod => ?_
    refine get.bind fun {_ m} hle hm => ?_
    refine (onHeap fun hfault => ?_).bind fun {_ native} _ _ => ?_
    · exact Heap.not_stale_of_native (hm.1 ▸ hle method hmethod) hfault
    exact (checkArity _ _ _).bind fun _ _ => callNative hcall _ _ _
  · exact throw id

end Calls

end Upholds

/-- An instruction keeps memory intact and meets no stale handle. -/
theorem perform_upholds {env : Environment κ σ} (hcall : KeepsIntact env.call) {heap : Heap κ}
    {frame : Frame} (hframe : ∀ value ∈ frame.function.chunk.constants, heap.Holds value)
    (i : Instruction) : Upholds env.methods heap Transfer.ReturnsLive (perform env frame i) := by
  have hpush : ∀ {heap : Heap κ} {value : Value}, heap.Holds value →
      Upholds env.methods heap Transfer.ReturnsLive
        (do push env.config value; return .next : Act κ σ Transfer) :=
    fun hvalue => (Upholds.push env.config hvalue).bind fun _ _ => .next
  have hplain : ∀ {heap : Heap κ} {value : Value}, value.handle? = none → heap.Holds value :=
    Heap.holds_of_handle?_eq_none
  unfold perform
  cases i.opcode with
  | constant => exact (Upholds.constantAt hframe _).bind fun _ hvalue => hpush hvalue
  | loadNull => exact hpush (hplain rfl)
  | loadTrue => exact hpush (hplain rfl)
  | loadFalse => exact hpush (hplain rfl)
  | pop => exact Upholds.pop.bind fun _ _ => .next
  | popN => exact (Upholds.shrink _).bind fun _ _ => .next
  | getLocal =>
    refine Upholds.get.bind fun {_ m} _ hm => ?_
    dsimp only
    split
    · next value hvalue => exact hpush (hm.1 ▸ hm.2.stack value (Array.mem_of_getElem? hvalue))
    · exact Upholds.throw id
  | setLocal =>
    refine Upholds.get.bind fun {_ m} _ hm => ?_
    dsimp only
    split
    · exact Upholds.throw id
    · refine (Upholds.peek 0).bind fun {_ value} _ hvalue =>
        .bind (Q := Whatever) (fun m hle hm => ?_) fun _ _ => .next
      refine .ok (hm.withStack fun other hother => ?_) (.refl _) trivial
      rcases Array.mem_or_eq_of_mem_setIfInBounds hother with hother | rfl
      · exact hm.stack other hother
      · exact hvalue.mono hle
  | getGlobal =>
    refine Upholds.get.bind fun {_ m} _ hm => ?_
    dsimp only
    split
    · next value hvalue => exact hpush (hm.1 ▸ hm.2.globals value (Array.mem_of_getElem? hvalue))
    · exact Upholds.throw id
  | setGlobal =>
    refine (Upholds.peek 0).bind fun {_ value} _ hvalue => Upholds.get.bind fun {_ m} hle hm => ?_
    dsimp only
    split
    · exact Upholds.throw id
    · refine .bind (Q := Whatever) (fun m hle' hm => ?_) fun _ _ => .next
      refine .ok ⟨⟨hm.heap, fun other hother => ?_, hm.methods⟩, hm.stack⟩ (.refl _) trivial
      rcases Array.mem_or_eq_of_mem_setIfInBounds hother with hother | rfl
      · exact hm.globals other hother
      · exact (hvalue.mono hle).mono hle'
  | equal => exact Upholds.pop.bind fun _ _ => Upholds.pop.bind fun _ _ => hpush (hplain rfl)
  | notEqual => exact Upholds.pop.bind fun _ _ => Upholds.pop.bind fun _ _ => hpush (hplain rfl)
  | negate =>
    refine Upholds.pop.bind fun _ _ => ?_
    dsimp only
    split
    · exact hpush (hplain rfl)
    · exact Upholds.throw id
  | invert =>
    refine Upholds.pop.bind fun _ _ => ?_
    dsimp only
    split
    · exact hpush (hplain rfl)
    · exact Upholds.throw id
  | makeList =>
    refine (Upholds.popMany _).bind fun {_ items} _ hitems => (Upholds.newList hitems).bind
      fun {_ handle} _ hlive => hpush ?_
    rintro _ ⟨⟩
    exact hlive
  | getIndex =>
    exact Upholds.pop.bind fun _ _ => Upholds.pop.bind fun _ hbase =>
      (Upholds.getElement hbase).bind fun _ hvalue => hpush hvalue
  | setIndex =>
    refine Upholds.pop.bind fun _ hvalue => Upholds.pop.bind fun hle _ =>
      Upholds.pop.bind fun hle' hbase => ?_
    have hvalue' := (hvalue.mono hle).mono hle'
    exact (Upholds.setElement hbase hvalue').bind fun hle'' _ => hpush (hvalue'.mono hle'')
  | jump => exact .pure fun _ => trivial
  | jumpIfFalse => exact Upholds.jumpIf _ _
  | jumpIfTrue => exact Upholds.jumpIf _ _
  | call => exact Upholds.callValue hcall _
  | invoke =>
    exact (Upholds.constantAt hframe _).bind fun _ hname =>
      (Upholds.invoke hcall hname _).bind fun _ _ => .next
  | ret => exact Upholds.pop.bind fun _ hresult => .pure fun hle => hresult.mono hle
  | print =>
    refine Upholds.pop.bind fun _ _ => Upholds.get.bind fun _ _ =>
      .bind (Q := Whatever) (fun m _ hm => ?_) fun _ _ => .next
    exact .ok ⟨⟨hm.heap, hm.globals, hm.methods⟩, hm.stack⟩ (.refl _) trivial
  | _ => exact (Upholds.numericBinary env.config fun _ _ => rfl).bind fun _ _ => .next

/-! ## Runs -/

/-- A state of a run in which nothing dangles, and in which the function of every
frame is on the heap. -/
structure Undangling (env : Environment κ σ) (frames : Array Frame) (m : Memory κ σ) : Prop where
  intact : m.Intact env.methods
  held : Held frames m.heap

namespace Undangling

variable {env : Environment κ σ} {outer frames frames' : Array Frame} {frame : Frame}
  {m m' : Memory κ σ}

/-- All that the state refers to, directly or through other objects, is live. -/
theorem isLive_of_reachable (h : Undangling env frames m) {handle : Handle}
    (hreach : m.heap.Reachable (m.roots env.methods frames) handle) : m.heap.isLive handle := by
  refine h.intact.heap.isLive_of_reachable (fun root hroot => ?_) hreach
  simp only [Roots.handles, Memory.roots, List.mem_append, List.mem_filterMap,
    List.mem_map] at hroot
  rcases hroot with ((⟨value, hvalue, hhandle⟩ | ⟨value, hvalue, hhandle⟩) |
    ⟨_, ⟨method, hmethod, rfl⟩, hhandle⟩) | ⟨frame, hframe, rfl⟩
  · exact h.intact.stack value (Array.mem_toList_iff.1 hvalue) root hhandle
  · exact h.intact.globals value (Array.mem_toList_iff.1 hvalue) root hhandle
  · cases hhandle
    exact h.intact.methods method hmethod
  · exact Heap.isLive_iff.2 ⟨_, h.held frame (Array.mem_toList_iff.1 hframe)⟩

theorem collect (h : Undangling env frames m) :
    Undangling env frames (m.collect env.methods frames).2 := by
  have hwf := h.intact.heap.wf
  let roots := m.roots env.methods frames
  have hlive : ∀ {handle}, m.heap.Reachable roots handle → (m.heap.collect roots).2.isLive handle :=
    fun hreach => (Heap.isLive_collect hwf roots _).2 ⟨h.isLive_of_reachable hreach, hreach⟩
  refine ⟨⟨⟨h.intact.heap.collect roots, fun value hvalue handle hhandle => hlive (.root ?_),
    fun method hmethod => hlive (m.reachable_method frames hmethod)⟩,
    fun value hvalue handle hhandle => hlive (.root ?_)⟩, fun frame hframe => ?_⟩
  · simp only [Roots.handles, List.mem_append, List.mem_filterMap]
    exact .inl (.inl (.inr ⟨value, Array.mem_toList_iff.2 hvalue, hhandle⟩))
  · simp only [Roots.handles, List.mem_append, List.mem_filterMap]
    exact .inl (.inl (.inl ⟨value, Array.mem_toList_iff.2 hvalue, hhandle⟩))
  · exact (Heap.get_collect_of_reachable hwf (m.reachable_frame env.methods hframe)).trans
      (h.held frame hframe)

theorem collectIfDue (h : Undangling env frames m) :
    Undangling env frames (m.collectIfDue env frames) := by
  unfold Memory.collectIfDue
  split
  · exact h.collect
  · split
    · have hcollected := h.collect
      exact ⟨⟨⟨hcollected.intact.heap, hcollected.intact.globals, hcollected.intact.methods⟩,
        hcollected.intact.stack⟩, hcollected.held⟩
    · exact h

/-- The outcome of a step from a state in which nothing dangles. -/
inductive Outcome (env : Environment κ σ) : StepResult κ σ → Prop
  | running {frames : Array Frame} {m : Memory κ σ} (h : Undangling env frames m) :
      Outcome env (.running frames m)
  | finished {m : Memory κ σ} (h : m.Intact env.methods) : Outcome env (.finished m)
  | faulted {fault : Fault} {frames : Array Frame} {m : Memory κ σ} (h : m.Intact env.methods)
      (hfault : ¬fault.Stale) : Outcome env (.faulted fault frames m)

theorem transfer (h : Undangling env (outer.push frame) m) {t : Transfer}
    (henter : ∀ {a f n}, t = .enter a f n → m.heap.get a = .ok (.function f))
    (hleave : ∀ {value}, t = .leave value → m.heap.Holds value) :
    Outcome env (transfer env.config outer frame m t) := by
  have houter : Held outer m.heap := fun other hother => h.held other (by simp [hother])
  have hframe := h.held frame (by simp)
  cases t with
  | next => exact .running h
  | jump distance => exact .running ⟨h.intact, houter.push hframe⟩
  | enter handle function argc =>
    simp only [ScriptMachine.transfer]
    split
    · exact .faulted h.intact id
    · exact .running ⟨h.intact, h.held.push (henter rfl)⟩
  | leave result =>
    simp only [ScriptMachine.transfer]
    split
    · exact .finished (h.intact.withStack (by simp))
    · refine .running ⟨h.intact.withStack fun value hvalue => ?_, houter⟩
      rcases Array.mem_or_eq_of_mem_setIfInBounds hvalue with hvalue | rfl
      · exact h.intact.stack value (mem_of_mem_shrink hvalue)
      · exact hleave rfl

theorem executeIn (h : Undangling env (outer.push frame) m) (hcall : KeepsIntact env.call)
    (hkeeps : KeepsObjects env.call) : Outcome env (executeIn env outer frame m) := by
  have hframe := h.held frame (by simp)
  have houter : Held outer m.heap := fun other hother => h.held other (by simp [hother])
  unfold ScriptMachine.executeIn
  rw [Heap.function_eq_ok.2 hframe]
  dsimp only
  split
  · exact .faulted h.intact id
  · next i ip _ =>
    have hconstants : ∀ value ∈ ({ frame with ip } : Frame).function.chunk.constants,
        m.heap.Holds value := fun value hvalue => h.intact.heap.holds_constant hframe hvalue
    have hperformed := perform_upholds hcall hconstants i m (.refl _) h.intact
    have hevolves := perform_keeps hkeeps m.heap { frame with ip } i m (.refl h.intact.heap.wf)
    have henter := @get_of_enter _ _ env { frame with ip } i m
    generalize perform env { frame with ip } i m = r at hperformed hevolves henter
    cases hperformed with
    | error hm _ hfault => exact .faulted hm hfault
    | @ok t m' hm _ hresult =>
      have hactive : Held (outer.push { frame with ip }) m.heap := houter.push hframe
      have hheld := hactive.kept hevolves
      refine transfer ⟨hm, hheld⟩ (fun heq => henter (by rw [heq])) fun heq => ?_
      rw [heq] at hresult
      exact hresult

/-- An instruction lets nothing dangle. -/
theorem execute (h : Undangling env frames m) (hcall : KeepsIntact env.call)
    (hkeeps : KeepsObjects env.call) : Outcome env (execute env frames m) := by
  unfold ScriptMachine.execute
  split
  · exact .faulted h.intact id
  · next frame hlast =>
    obtain ⟨outer, rfl⟩ := Array.back?_eq_some_iff.1 hlast
    rw [Array.pop_push]
    exact h.executeIn hcall hkeeps

/-- A step lets nothing dangle. -/
theorem step (h : Undangling env frames m) (hcall : KeepsIntact env.call)
    (hkeeps : KeepsObjects env.call) : Outcome env (stepReading env frames m) := by
  have houtcome := h.execute hcall hkeeps
  rw [h.held.stepReading_eq]
  unfold ScriptMachine.step
  generalize ScriptMachine.execute env frames m = r at houtcome
  cases houtcome with
  | running h => exact .running h.collectIfDue
  | finished h => exact .finished h
  | faulted h hfault => exact .faulted h hfault

/-- Nothing dangles in any state of a run. -/
theorem steps (h : Undangling env frames m) (hcall : KeepsIntact env.call)
    (hkeeps : KeepsObjects env.call) (hsteps : Steps (stepReading env) frames m frames' m') :
    Undangling env frames' m' := by
  induction hsteps with
  | refl => exact h
  | tail _ hstep ih =>
    have houtcome := ih.step hcall hkeeps
    rw [hstep] at houtcome
    cases houtcome with
    | running h => exact h

/-- Nothing dangles at the end of a run, and it does not end with a stale
handle. -/
theorem ends (h : Undangling env frames m) (hcall : KeepsIntact env.call)
    (hkeeps : KeepsObjects env.call) {result : RunResult κ σ}
    (hends : Ends (stepReading env) frames m result) : Outcome env result.last := by
  obtain ⟨frames', m', hsteps, hlast⟩ := hends
  rw [← hlast]
  exact (h.steps hcall hkeeps hsteps).step hcall hkeeps

end Undangling

end ScriptMachine
