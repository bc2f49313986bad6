import ScriptMachine.Proofs.Heap.Exactness

/-!
# Stale handles never alias

A slot that is used again holds a newer object, and the handles to older ones are
told apart by their generation. The generation of a slot counts how often it has
been freed (`Heap.Aged`), so as long as that count fits its 32 bits, no two
allocations give the same handle, a handle reaches the object allocated under it
until a collection frees it, and nothing ever after
(`Heap.handles_never_alias`). The number of slots needs no bound, since indices here
have no fixed width; 32 bits hold those that are issued and those on the free stack as
long as there are less than 2^32 slots (`Heap.index_lt_of_issued`, `Heap.index_lt_of_free`),
of which there are no more than allocations (`Heap.size_replay_le`).
-/

namespace ScriptMachine

variable {κ : Type}

/-! ## All ways to use a handle -/

/-- The object as a function, if it is one. -/
def Object.asFunction : Object κ → Except HeapFault Function
  | .function f => .ok f
  | object => .error (.wrongKind .function object.kind)

/-- The items of the object, if it is a list. -/
def Object.asList : Object κ → Except HeapFault (Array Value)
  | .list items => .ok items
  | object => .error (.wrongKind .list object.kind)

/-- The text of the object, if it is a string. -/
def Object.asString : Object κ → Except HeapFault String
  | .string text => .ok text
  | object => .error (.wrongKind .string object.kind)

/-- The object as a function of the host, if it is one. -/
def Object.asNative : Object κ → Except HeapFault (Native κ)
  | .native n => .ok n
  | object => .error (.wrongKind .native object.kind)

namespace Heap

/-- Every use of the handle reaches the object. -/
structure Reaches (heap : Heap κ) (handle : Handle) (object : Object κ) : Prop where
  get : heap.get handle = .ok object
  isLive : heap.isLive handle = true
  kind : heap.kind handle = .ok object.kind
  function : heap.function handle = object.asFunction
  list : heap.list handle = object.asList
  string : heap.string handle = object.asString
  native : heap.native handle = object.asNative
  mutate : ∀ f, ∃ heap', heap.mutate handle f = .ok heap' ∧ heap'.get handle = .ok (f object)
  mutateList : ∀ f, heap.mutateList handle f =
    if object.kind = .list then heap.mutate handle (Object.mapItems f)
    else .error (.wrongKind .list object.kind)

/-- Every use of the handle finds it stale. -/
structure Stale (heap : Heap κ) (handle : Handle) : Prop where
  get : heap.get handle = .error (.stale handle)
  isLive : heap.isLive handle = false
  kind : heap.kind handle = .error (.stale handle)
  function : heap.function handle = .error (.stale handle)
  list : heap.list handle = .error (.stale handle)
  string : heap.string handle = .error (.stale handle)
  native : heap.native handle = .error (.stale handle)
  mutate : ∀ f, heap.mutate handle f = .error (.stale handle)
  mutateList : ∀ f, heap.mutateList handle f = .error (.stale handle)

theorem reaches_of_get {heap : Heap κ} {handle : Handle} {object : Object κ}
    (h : heap.get handle = .ok object) : heap.Reaches handle object where
  get := h
  isLive := isLive_iff.2 ⟨object, h⟩
  kind := by rw [Heap.kind, h]
  function := by
    rw [Heap.function, h]
    cases object <;> rfl
  list := by
    rw [Heap.list, h]
    cases object <;> rfl
  string := by
    rw [Heap.string, h]
    cases object <;> rfl
  native := by
    rw [Heap.native, h]
    cases object <;> rfl
  mutate f := ⟨_, by rw [Heap.mutate, h], by simp [get_modifyObject, h, Except.map]⟩
  mutateList f := by
    rw [Heap.mutateList, Heap.list, Heap.mutate, h, modifyList_eq]
    cases object <;> rfl

theorem stale_of_entry?_eq_none {heap : Heap κ} {handle : Handle}
    (h : heap.entry? handle = none) : heap.Stale handle := by
  have hget : heap.get handle = .error (.stale handle) := by rw [Heap.get, h]
  have hlist : heap.list handle = .error (.stale handle) := by rw [Heap.list, hget]
  exact {
    get := hget
    isLive := by rw [Heap.isLive, h, Option.isSome_none]
    kind := by rw [Heap.kind, hget]
    function := by rw [Heap.function, hget]
    list := hlist
    string := by rw [Heap.string, hget]
    native := by rw [Heap.native, hget]
    mutate := fun f => by rw [Heap.mutate, hget]
    mutateList := fun f => by rw [Heap.mutateList, hlist] }

/-! ## What happens in a history -/

/-- The handle that an operation issues, if it is an allocation. -/
def issues (heap : Heap κ) : HeapOp κ → List Handle
  | .alloc object => [(heap.alloc object).1]
  | _ => []

/-- The handles that operations issue, in order. -/
def issued (heap : Heap κ) : List (HeapOp κ) → List Handle
  | [] => []
  | op :: ops => heap.issues op ++ (heap.apply op).issued ops

/-- Whether a slot holds an object. -/
def occupied (heap : Heap κ) (index : Nat) : Bool := heap.slots[index]?.any Slot.isOccupied

/-- Whether an operation frees a slot, as a count. -/
def freedBy (heap : Heap κ) (op : HeapOp κ) (index : Nat) : Nat :=
  if heap.occupied index ∧ !(heap.apply op).occupied index then 1 else 0

/-- How often operations free a slot. -/
def freed (heap : Heap κ) (ops : List (HeapOp κ)) (index : Nat) : Nat :=
  match ops with
  | [] => 0
  | op :: ops => heap.freedBy op index + (heap.apply op).freed ops index

/-- One of the operations is a collection whose roots do not reach the object. -/
def Frees (heap : Heap κ) (handle : Handle) : List (HeapOp κ) → Prop
  | [] => False
  | op :: ops =>
    (∃ roots, op = .collect roots ∧ ¬heap.Reachable roots handle) ∨ (heap.apply op).Frees handle ops

end Heap

/-- What an operation does to the object of a handle, as long as it is not freed. -/
def HeapOp.mutation (handle : Handle) : HeapOp κ → Object κ → Object κ
  | .mutate other f => if other = handle then f else id
  | _ => id

/-- The object of a handle after all mutations through that handle. -/
def mutated (handle : Handle) (ops : List (HeapOp κ)) (object : Object κ) : Object κ :=
  ops.foldl (fun object op => op.mutation handle object) object

namespace Heap

/-! ## Until it is freed -/

theorem get_apply {heap : Heap κ} (h : heap.WF) {handle : Handle} {object : Object κ}
    (hget : heap.get handle = .ok object) {op : HeapOp κ}
    (hkept : ∀ roots, op = .collect roots → heap.Reachable roots handle) :
    (heap.apply op).get handle = .ok (op.mutation handle object) := by
  cases op with
  | alloc new => exact get_alloc_of_get h new hget
  | mutate other f =>
    rw [apply_mutate, get_modifyObject, hget, HeapOp.mutation]
    by_cases heq : other = handle
    · simp [heq, Except.map]
    · simp [heq, Ne.symm heq, Except.map]
  | collect roots => exact (get_collect_of_reachable h (hkept roots rfl)).trans hget

theorem get_of_not_frees {handle : Handle} (ops : List (HeapOp κ)) {heap : Heap κ} (h : heap.WF)
    {object : Object κ} (hget : heap.get handle = .ok object) (hkept : ¬heap.Frees handle ops) :
    (ops.foldl apply heap).get handle = .ok (mutated handle ops object) := by
  induction ops generalizing heap object with
  | nil => exact hget
  | cons op ops ih =>
    rw [Frees, not_or] at hkept
    refine ih (h.apply op) (get_apply h hget fun roots hop => ?_) hkept.2
    by_contra hreach
    exact hkept.1 ⟨roots, hop, hreach⟩

/-! ## Generations -/

/-- An operation ends the generation of a slot that it frees, and no other; new slots are of
generation 0. -/
theorem generation_apply {heap : Heap κ} (h : heap.WF) (op : HeapOp κ) {index : Nat}
    {slot' : Slot κ} (hslot' : (heap.apply op).slots[index]? = some slot') :
    match heap.slots[index]? with
    | some slot => slot'.generation =
        slot.generation + if slot.isOccupied ∧ !slot'.isOccupied then 1 else 0
    | none => slot'.generation = 0 := by
  cases op with
  | alloc object =>
    rw [Heap.apply] at hslot'
    cases hback : heap.free.back? with
    | some free =>
      rw [alloc_of_back? hback, Array.getElem?_modify] at hslot'
      cases hslot : heap.slots[index]? with
      | none => simp [hslot] at hslot'
      | some slot =>
        by_cases hindex : free = index
        · simp only [hslot, hindex, if_true, Option.map_some, Option.some.injEq] at hslot'
          simp [← hslot', Slot.isOccupied]
        · simp only [hslot, hindex, if_false, Option.some.injEq] at hslot'
          simp [hslot']
    | none =>
      rw [alloc_of_back?_eq_none hback, Array.getElem?_push] at hslot'
      by_cases hindex : index = heap.slots.size
      · rw [if_pos hindex] at hslot'
        simp [hindex, ← Option.some.inj hslot']
      · rw [if_neg hindex] at hslot'
        simp [hslot']
  | mutate handle f =>
    simp only [apply_mutate, modifyObject, Array.getElem?_modify] at hslot'
    cases hslot : heap.slots[index]? with
    | none => simp [hslot] at hslot'
    | some slot =>
      by_cases hindex : handle.index = index
      · simp only [hslot, hindex, if_true, Option.map_some, Option.some.injEq] at hslot'
        by_cases hgen : slot.generation = handle.generation
        · cases hentry : slot.entry <;> simp [← hslot', hgen, hentry, Slot.isOccupied]
        · simp [← hslot', hgen]
      · simp only [hslot, hindex, if_false, Option.some.injEq] at hslot'
        simp [hslot']
  | collect roots =>
    obtain ⟨hmarked, -⟩ := h.marking roots
    have hswept : ((heap.marking roots).1.map Slot.sweep)[index]? = some slot' := hslot'
    rw [Array.getElem?_map] at hswept
    obtain ⟨marked, hslot, rfl⟩ := Option.map_eq_some_iff.1 hswept
    rw [← hmarked.tracks.whitened, Array.getElem?_map, hslot]
    obtain ⟨generation, entry⟩ := marked
    cases entry with
    | none => simp [Slot.sweep, Slot.isWhite, Slot.recolor, Slot.isOccupied]
    | some entry =>
      by_cases hwhite : entry.color = .white <;>
        simp [Slot.sweep, Slot.isWhite, Slot.recolor, Slot.isOccupied, hwhite]

/-- No operation takes slots away, and only an allocation adds one. -/
theorem size_apply {heap : Heap κ} (h : heap.WF) (op : HeapOp κ) :
    heap.slots.size ≤ (heap.apply op).slots.size ∧
      (heap.apply op).slots.size ≤ heap.slots.size + (heap.issues op).length := by
  cases op with
  | alloc object =>
    rw [Heap.apply, Heap.issues, List.length_singleton]
    cases hback : heap.free.back? with
    | some free => simp [alloc_of_back? hback]
    | none => simp [alloc_of_back?_eq_none hback]
  | mutate handle f => simp [apply_mutate, modifyObject]
  | collect roots =>
    obtain ⟨hmarked, -⟩ := h.marking roots
    have hsize : ((heap.marking roots).1.map Slot.sweep).size = heap.slots.size := by
      rw [← hmarked.tracks.whitened, Array.size_map, Array.size_map]
    exact ⟨Nat.le_of_eq hsize.symm, Nat.le_of_eq hsize⟩

theorem size_foldl_apply (ops : List (HeapOp κ)) {heap : Heap κ} (h : heap.WF) :
    heap.slots.size ≤ (ops.foldl apply heap).slots.size ∧
      (ops.foldl apply heap).slots.size ≤ heap.slots.size + (heap.issued ops).length := by
  induction ops generalizing heap with
  | nil => exact ⟨Nat.le_refl _, Nat.le_refl _⟩
  | cons op ops ih =>
    have hop := size_apply h op
    have hops := ih (h.apply op)
    rw [List.foldl_cons, issued, List.length_append]
    omega

/-- There are no more slots than there have been allocations. -/
theorem size_replay_le (history : List (HeapOp κ)) :
    (replay history).slots.size ≤ (Heap.issued {} history).length := by
  simpa [replay] using (size_foldl_apply history WF.empty).2

/-- What lies on the free stack are slots. -/
theorem index_lt_of_free {heap : Heap κ} (h : heap.WF) {index : Nat} (hfree : index ∈ heap.free) :
    index < heap.slots.size := by
  obtain ⟨generation, hslot⟩ := h.mem_free_iff.1 hfree
  exact (Array.getElem?_eq_some_iff.1 hslot).1

/-- Only what is allocated is reached after an operation and was not before. -/
theorem entry?_issued {heap : Heap κ} (h : heap.WF) {op : HeapOp κ} {handle : Handle}
    (hissued : handle ∈ heap.issues op) :
    heap.entry? handle = none ∧ (heap.apply op).isLive handle = true := by
  cases op with
  | alloc object =>
    rw [List.mem_singleton.1 hissued]
    exact ⟨entry?_alloc_fresh h object, isLive_iff.2 ⟨object, get_alloc_self h object⟩⟩
  | mutate | collect => cases hissued

theorem slot_of_isLive {heap : Heap κ} {handle : Handle} (h : heap.isLive handle = true) :
    ∃ entry, heap.slots[handle.index]? = some ⟨handle.generation, some entry⟩ := by
  obtain ⟨entry, hentry⟩ := Option.isSome_iff_exists.1 h
  exact ⟨entry, entryIn_eq_some.1 hentry⟩

/-- The handles that are issued are those of slots. -/
theorem index_lt_of_issued (ops : List (HeapOp κ)) {heap : Heap κ} (h : heap.WF) :
    ∀ handle ∈ heap.issued ops, handle.index < (ops.foldl apply heap).slots.size := by
  induction ops generalizing heap with
  | nil => exact nofun
  | cons op ops ih =>
    refine List.forall_mem_append.2 ⟨fun handle hissued => ?_, ih (h.apply op)⟩
    obtain ⟨entry, hslot⟩ := slot_of_isLive (entry?_issued h hissued).2
    exact Nat.lt_of_lt_of_le (Array.getElem?_eq_some_iff.1 hslot).1
      (size_foldl_apply ops (h.apply op)).1

/-- The generations of the slots are as high as the slots have been freed often. Among the
handles issued, none twice, those of the present generation of a slot are live and the
others are older. -/
structure Aged (freed : Nat → Nat) (issued : List Handle) (heap : Heap κ) : Prop where
  wf : heap.WF
  generation : ∀ {index slot}, heap.slots[index]? = some slot →
    slot.generation.toNat = freed index
  unused : ∀ {index}, heap.slots.size ≤ index → freed index = 0
  nodup : issued.Nodup
  issued : ∀ handle ∈ issued, handle.index < heap.slots.size ∧
    (handle.generation.toNat < freed handle.index ∨ heap.isLive handle = true)

namespace Aged

variable {freed : Nat → Nat} {issued : List Handle} {heap : Heap κ}

theorem start : Aged (fun _ => 0) [] ({} : Heap κ) where
  wf := .empty
  generation h := by simp at h
  unused _ := rfl
  nodup := .nil
  issued := nofun

/-- A handle of an earlier generation is stale. -/
theorem stale (h : heap.Aged freed issued) {handle : Handle}
    (hold : handle.generation.toNat < freed handle.index) : heap.Stale handle := by
  refine stale_of_entry?_eq_none (Option.eq_none_iff_forall_ne_some.2 fun entry hentry => ?_)
  have hgen := h.generation (entryIn_eq_some.1 hentry)
  exact Nat.ne_of_lt hold hgen

theorem generation_apply (h : heap.Aged freed issued) {op : HeapOp κ} {index : Nat}
    (hbound : freed index + heap.freedBy op index < 2 ^ 32) {slot' : Slot κ}
    (hslot' : (heap.apply op).slots[index]? = some slot') :
    slot'.generation.toNat = freed index + heap.freedBy op index := by
  have hgen := Heap.generation_apply h.wf op hslot'
  have hoccupied' : (heap.apply op).occupied index = slot'.isOccupied := by
    rw [occupied, hslot', Option.any_some]
  cases hslot : heap.slots[index]? with
  | none =>
    have hfresh : heap.freedBy op index = 0 := by simp [freedBy, occupied, hslot]
    rw [hslot] at hgen
    rw [hfresh, h.unused (Array.getElem?_eq_none_iff.1 hslot), hgen]
    rfl
  | some slot =>
    have hoccupied : heap.occupied index = slot.isOccupied := by
      rw [occupied, hslot, Option.any_some]
    rw [hslot] at hgen
    rw [freedBy, hoccupied, hoccupied', ← h.generation hslot] at hbound ⊢
    rw [hgen]
    split <;> split at hbound <;> simp_all [UInt32.toNat_add, Nat.mod_eq_of_lt]

/-- A handle that is issued stays in its generation while it is live. -/
theorem issued_apply (h : heap.Aged freed issued) {op : HeapOp κ}
    (hbound : ∀ index, freed index + heap.freedBy op index < 2 ^ 32) {handle : Handle}
    (hlive : heap.isLive handle = true) :
    handle.generation.toNat < freed handle.index + heap.freedBy op handle.index ∨
      (heap.apply op).isLive handle = true := by
  obtain ⟨entry, hslot⟩ := slot_of_isLive hlive
  have hlt : handle.index < (heap.apply op).slots.size :=
    Nat.lt_of_lt_of_le (Array.getElem?_eq_some_iff.1 hslot).1 (size_apply h.wf op).1
  have hslot' := Array.getElem?_eq_getElem hlt
  have hgen : handle.generation.toNat = freed handle.index := h.generation hslot
  have hgen' := h.generation_apply (hbound _) hslot'
  by_cases hfreed : heap.freedBy op handle.index = 0
  · have hoccupied : (heap.apply op).occupied handle.index = true := by
      simpa [freedBy, occupied, hslot, Slot.isOccupied] using hfreed
    rw [occupied, hslot', Option.any_some] at hoccupied
    obtain ⟨entry', hentry'⟩ := Option.isSome_iff_exists.1 hoccupied
    rw [hfreed, Nat.add_zero, ← hgen] at hgen'
    refine .inr (Option.isSome_iff_exists.2 ⟨entry', ?_⟩)
    simp [entry?_eq, entryIn, hslot', UInt32.toNat_inj.1 hgen', hentry']
  · omega

theorem apply (h : heap.Aged freed issued) (op : HeapOp κ)
    (hbound : ∀ index, freed index + heap.freedBy op index < 2 ^ 32) :
    (heap.apply op).Aged (fun index => freed index + heap.freedBy op index)
      (issued ++ heap.issues op) where
  wf := h.wf.apply op
  generation hslot' := h.generation_apply (hbound _) hslot'
  unused {index} hindex := by
    have hle := Nat.le_trans (size_apply h.wf op).1 hindex
    have hslot : heap.slots[index]? = none := Array.getElem?_eq_none_iff.2 hle
    simp [h.unused hle, freedBy, occupied, hslot]
  nodup := by
    refine List.nodup_append.2 ⟨h.nodup, ?_, ?_⟩
    · cases op with
      | alloc => exact List.nodup_singleton _
      | mutate | collect => exact List.nodup_nil
    · rintro handle hold _ hnew rfl
      obtain ⟨hnone, hlive⟩ := entry?_issued h.wf hnew
      obtain ⟨entry, hslot'⟩ := slot_of_isLive hlive
      have hgen' := h.generation_apply (hbound _) hslot'
      rcases (h.issued handle hold).2 with hlt | hlive
      · dsimp only at hgen'
        omega
      · rw [Heap.isLive, hnone] at hlive
        cases hlive
  issued handle hmem := by
    rcases List.mem_append.1 hmem with hold | hnew
    · obtain ⟨hindex, hgen⟩ := h.issued handle hold
      refine ⟨Nat.lt_of_lt_of_le hindex (size_apply h.wf op).1, ?_⟩
      rcases hgen with hlt | hlive
      · exact .inl (Nat.lt_of_lt_of_le hlt (Nat.le_add_right _ _))
      · exact h.issued_apply hbound hlive
    · obtain ⟨-, hlive⟩ := entry?_issued h.wf hnew
      obtain ⟨entry, hslot'⟩ := slot_of_isLive hlive
      exact ⟨(Array.getElem?_eq_some_iff.1 hslot').1, .inr hlive⟩

/-- The generations after a whole list of operations. -/
theorem run (ops : List (HeapOp κ)) (h : heap.Aged freed issued)
    (hbound : ∀ index, freed index + heap.freed ops index < 2 ^ 32) :
    (ops.foldl Heap.apply heap).Aged (fun index => freed index + heap.freed ops index)
      (issued ++ heap.issued ops) := by
  induction ops generalizing heap freed issued with
  | nil => simpa [Heap.freed, Heap.issued] using h
  | cons op ops ih =>
    have hstep := h.apply op fun index => by
      have hlt := hbound index
      rw [Heap.freed] at hlt
      omega
    have hrun := ih hstep fun index => by
      have hlt := hbound index
      rw [Heap.freed] at hlt
      omega
    simpa only [Heap.freed, Heap.issued, Nat.add_assoc, List.append_assoc, List.foldl_cons]
      using hrun

/-- A handle that a collection has freed is stale from then on. -/
theorem stale_of_frees {handle : Handle} (ops : List (HeapOp κ)) (h : heap.Aged freed issued)
    (hissued : handle ∈ issued) (hfrees : heap.Frees handle ops)
    (hbound : ∀ index, freed index + heap.freed ops index < 2 ^ 32) :
    (ops.foldl Heap.apply heap).Stale handle := by
  induction ops generalizing heap freed issued with
  | nil => cases hfrees
  | cons op ops ih =>
    have hstep := h.apply op fun index => by
      have hlt := hbound index
      rw [Heap.freed] at hlt
      omega
    have hbound' : ∀ index, freed index + heap.freedBy op index + (heap.apply op).freed ops index <
        2 ^ 32 := by
      intro index
      have hlt := hbound index
      rw [Heap.freed] at hlt
      omega
    rcases hfrees with ⟨roots, rfl, hreach⟩ | hfrees
    · have hdead : (heap.apply (.collect roots)).isLive handle = false := by
        rw [Heap.isLive, Heap.apply, entry?_collect_of_not_reachable h.wf hreach]
        rfl
      rcases (hstep.issued handle (List.mem_append_left _ hissued)).2 with hlt | hlive
      · exact (hstep.run ops hbound').stale (Nat.lt_of_lt_of_le hlt (Nat.le_add_right _ _))
      · rw [hdead] at hlive
        cases hlive
    · exact ih hstep (List.mem_append_left _ hissued) hfrees hbound'

end Aged

/-! ## Histories -/

theorem replay_append (before after : List (HeapOp κ)) :
    replay (before ++ after) = after.foldl apply (replay before) :=
  List.foldl_append

theorem issued_append (heap : Heap κ) (ops ops' : List (HeapOp κ)) :
    heap.issued (ops ++ ops') = heap.issued ops ++ (ops.foldl apply heap).issued ops' := by
  induction ops generalizing heap with
  | nil => rfl
  | cons op ops ih => simp [issued, ih]

theorem freed_append (heap : Heap κ) (ops ops' : List (HeapOp κ)) (index : Nat) :
    heap.freed (ops ++ ops') index =
      heap.freed ops index + (ops.foldl apply heap).freed ops' index := by
  induction ops generalizing heap with
  | nil => simp [freed]
  | cons op ops ih => simp [freed, ih, Nat.add_assoc]

theorem freedBy_le (heap : Heap κ) (op : HeapOp κ) (index : Nat) : heap.freedBy op index ≤ 1 := by
  unfold freedBy
  split <;> decide

/-- An operation frees a slot at most once. -/
theorem freed_le_length (heap : Heap κ) (ops : List (HeapOp κ)) (index : Nat) :
    heap.freed ops index ≤ ops.length := by
  induction ops generalizing heap with
  | nil => exact Nat.le_refl _
  | cons op ops ih =>
    have hop := freedBy_le heap op index
    have hops := ih (heap.apply op)
    rw [freed, List.length_cons]
    omega

/-- Without roots nothing is reached. -/
theorem not_reachable_of_no_roots {heap : Heap κ} {roots : Roots} (h : roots.handles = [])
    (handle : Handle) : ¬heap.Reachable roots handle := by
  intro hreach
  induction hreach with
  | root hroot =>
    rw [h] at hroot
    cases hroot
  | child _ _ _ ih => exact ih

/-- **Stale handles never alias.** In every history in which no slot is freed 2³² times, no handle
is issued twice, and each reaches the object that was allocated under it, as mutated through it,
until a collection frees that object; from then on it is stale. -/
theorem handles_never_alias (history : List (HeapOp κ))
    (hbound : ∀ index, Heap.freed {} history index < 2 ^ 32) :
    (Heap.issued {} history).Nodup ∧
    ∀ before object after, history = before ++ .alloc object :: after →
      let handle := ((replay before).alloc object).1
      let heap := (replay before).apply (.alloc object)
      (¬heap.Frees handle after → (replay history).Reaches handle (mutated handle after object)) ∧
      (heap.Frees handle after → (replay history).Stale handle) := by
  refine ⟨?_, ?_⟩
  · have hrun := Aged.start.run history (by simpa using hbound)
    simpa using hrun.nodup
  · rintro before object after rfl
    intro handle heap
    have hreplay : replay (before ++ .alloc object :: after) = after.foldl Heap.apply heap :=
      replay_append before (.alloc object :: after)
    have hwf : heap.WF := (WF.replay before).apply (.alloc object)
    have hget : heap.get handle = .ok object := get_alloc_self (WF.replay before) object
    rw [hreplay]
    refine ⟨fun hkept => reaches_of_get (get_of_not_frees after hwf hget hkept), fun hfrees => ?_⟩
    have hsplit : ∀ index, Heap.freed {} (before ++ .alloc object :: after) index =
        Heap.freed {} (before ++ [.alloc object]) index + heap.freed after index := by
      intro index
      rw [List.append_cons, freed_append, List.foldl_append]
      rfl
    have hheap : (before ++ [HeapOp.alloc object]).foldl Heap.apply {} = heap := by
      rw [List.foldl_append]
      rfl
    have haged := Aged.start.run (before ++ [HeapOp.alloc object]) fun index => by
      have hlt := hbound index
      rw [hsplit] at hlt
      omega
    rw [hheap] at haged
    have hissued : handle ∈ Heap.issued {} (before ++ [HeapOp.alloc object]) := by
      rw [issued_append]
      exact List.mem_append_right _ (List.mem_singleton_self handle)
    refine haged.stale_of_frees after hissued hfrees fun index => ?_
    have hlt := hbound index
    rw [hsplit] at hlt
    omega

/-- A slot that is used twice. -/
def recycling : List (HeapOp Unit) := [.alloc (.string "a"), .collect {}, .alloc (.string "b")]

theorem handles_never_alias_demo :
    (∀ index, Heap.freed {} recycling index < 2 ^ 32) ∧
      (replay recycling).Stale ⟨0, 0⟩ ∧ (replay recycling).Reaches ⟨0, 1⟩ (.string "b") := by
  have hbound : ∀ index, Heap.freed {} recycling index < 2 ^ 32 := fun index =>
    Nat.lt_of_le_of_lt (freed_le_length {} recycling index) (by decide)
  obtain ⟨-, halias⟩ := handles_never_alias recycling hbound
  have hfirst := (halias [] (.string "a") [.collect {}, .alloc (.string "b")] rfl).2
  have hsecond := (halias [.alloc (.string "a"), .collect {}] (.string "b") [] rfl).1
  have hhandle : ((replay [.alloc (.string "a"), .collect {}]).alloc
      (.string "b" : Object Unit)).1 = ⟨0, 1⟩ := by
    decide +kernel
  refine ⟨hbound, hfirst (.inl ⟨{}, rfl, not_reachable_of_no_roots rfl _⟩), ?_⟩
  rw [← hhandle]
  exact hsecond nofun

end Heap

end ScriptMachine
