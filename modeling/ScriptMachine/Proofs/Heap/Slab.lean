import Mathlib.Logic.Relation
import ScriptMachine.Proofs.Heap.Entries

/-!
# The representation of the heap

`Heap.WF` is what holds of the slots between two operations: every object is
white, the free stack lists the vacant slots once each, and the live count is
the number of occupied slots. Under it an allocation adds exactly one handle
that reached nothing before (`Heap.entry?_alloc`, `Heap.entry?_alloc_fresh`),
and a mutation changes exactly what one handle reaches
(`Heap.entry?_modifyObject`).
-/

namespace ScriptMachine

variable {κ : Type}

/-- Changes the items of a list, and nothing of any other object. -/
def Object.mapItems (f : Array Value → Array Value) : Object κ → Object κ
  | .list items => .list (f items)
  | object => object

namespace Heap

/-- Changing the items of a list is a mutation of the object. -/
theorem modifyList_eq (heap : Heap κ) (handle : Handle) (f : Array Value → Array Value) :
    heap.modifyList handle f = heap.modifyObject handle (Object.mapItems f) := by
  unfold modifyList modifyObject
  congr 2
  funext slot
  obtain ⟨generation, held⟩ := slot
  cases held with
  | none => simp
  | some entry =>
    obtain ⟨color, object⟩ := entry
    cases object <;> by_cases hgen : generation = handle.generation <;>
      simp [Object.mapItems, hgen]

/-- The representation invariant of the heap between operations. -/
structure WF (heap : Heap κ) : Prop where
  white : ∀ {handle entry}, heap.entry? handle = some entry → entry.color = .white
  free_nodup : heap.free.toList.Nodup
  mem_free_iff : ∀ {index}, index ∈ heap.free ↔
    ∃ generation, heap.slots[index]? = some ⟨generation, none⟩
  live_eq : heap.stats.live = heap.slots.countP Slot.isOccupied

/-! ## Allocation -/

/-- With a vacant slot at hand, allocation fills it. -/
theorem alloc_of_back? {heap : Heap κ} {index : Nat} (h : heap.free.back? = some index)
    (object : Object κ) :
    heap.alloc object = (⟨index, heap.generationAt index⟩,
      { slots := heap.slots.modify index fun slot => { slot with entry := some ⟨.white, object⟩ }
        free := heap.free.pop
        stats := heap.stats.allocate }) := by
  unfold alloc
  rw [h]

/-- With no vacant slot, allocation adds one. -/
theorem alloc_of_back?_eq_none {heap : Heap κ} (h : heap.free.back? = none) (object : Object κ) :
    heap.alloc object = (⟨heap.slots.size, 0⟩,
      { heap with
        slots := heap.slots.push ⟨0, some ⟨.white, object⟩⟩
        stats := heap.stats.allocate }) := by
  unfold alloc
  rw [h]

theorem generationAt_eq {heap : Heap κ} {index : Nat} {slot : Slot κ}
    (h : heap.slots[index]? = some slot) : heap.generationAt index = slot.generation := by
  unfold generationAt
  rw [h]

/-- The slot on top of the free stack is vacant. -/
theorem WF.vacant_of_back? {heap : Heap κ} (h : heap.WF) {index : Nat}
    (hback : heap.free.back? = some index) :
    ∃ generation, heap.slots[index]? = some ⟨generation, none⟩ :=
  h.mem_free_iff.1 (Array.mem_of_back? hback)

/-- The new handle reached nothing before. -/
theorem entry?_alloc_fresh {heap : Heap κ} (h : heap.WF) (object : Object κ) :
    heap.entry? (heap.alloc object).1 = none := by
  cases hback : heap.free.back? with
  | some index =>
    obtain ⟨generation, hslot⟩ := h.vacant_of_back? hback
    rw [alloc_of_back? hback, entry?_eq]
    simp [entryIn, hslot, generationAt_eq hslot]
  | none =>
    rw [alloc_of_back?_eq_none hback, entry?_eq]
    simp [entryIn]

/-- After an allocation the new handle reaches the object, and every other
handle reaches what it reached before. -/
theorem entry?_alloc {heap : Heap κ} (h : heap.WF) (object : Object κ) (handle : Handle) :
    Heap.entry? (heap.alloc object).2 handle =
      if handle = (heap.alloc object).1 then some ⟨.white, object⟩ else heap.entry? handle := by
  obtain ⟨index, generation⟩ := handle
  cases hback : heap.free.back? with
  | some free =>
    obtain ⟨vacant, hslot⟩ := h.vacant_of_back? hback
    rw [alloc_of_back? hback]
    simp only [entry?_eq, entryIn, Array.getElem?_modify, generationAt_eq hslot, Handle.mk.injEq]
    by_cases hindex : free = index
    · subst hindex
      by_cases hgen : vacant = generation
      · simp [hslot, hgen]
      · simp [hslot, hgen, Ne.symm hgen]
    · simp [hindex, Ne.symm hindex]
  | none =>
    rw [alloc_of_back?_eq_none hback]
    simp only [entry?_eq, entryIn, Array.getElem?_push, Handle.mk.injEq]
    by_cases hindex : index = heap.slots.size
    · subst hindex
      by_cases hgen : generation = 0
      · simp [hgen]
      · simp [hgen, Ne.symm hgen]
    · simp [hindex]

theorem get_alloc_self {heap : Heap κ} (h : heap.WF) (object : Object κ) :
    (heap.alloc object).2.get (heap.alloc object).1 = .ok object := by
  rw [get_eq_ok]
  exact ⟨.white, by rw [entry?_alloc h, if_pos rfl]⟩

/-- What a handle reaches stays reached by it. -/
theorem get_alloc_of_get {heap : Heap κ} (h : heap.WF) (object : Object κ) {handle : Handle}
    {old : Object κ} (hold : heap.get handle = .ok old) :
    (heap.alloc object).2.get handle = .ok old := by
  rw [← hold]
  refine get_congr ?_
  rw [entry?_alloc h, if_neg]
  rintro rfl
  obtain ⟨color, hentry⟩ := get_eq_ok.1 hold
  rw [entry?_alloc_fresh h] at hentry
  cases hentry

/-- What is reached after an allocation is the new object or was reached
before. -/
theorem get_of_get_alloc {heap : Heap κ} (h : heap.WF) {object : Object κ} {handle : Handle}
    {found : Object κ} (hfound : (heap.alloc object).2.get handle = .ok found) :
    (handle = (heap.alloc object).1 ∧ found = object) ∨ heap.get handle = .ok found := by
  obtain ⟨color, hentry⟩ := get_eq_ok.1 hfound
  rw [entry?_alloc h] at hentry
  split at hentry
  · next heq =>
    cases hentry
    exact .inl ⟨heq, rfl⟩
  · exact .inr (get_eq_ok.2 ⟨color, hentry⟩)

theorem modify_eq_set {α : Type} {xs : Array α} {index : Nat} (hindex : index < xs.size)
    (f : α → α) : xs.modify index f = xs.set index (f xs[index]) := by
  ext1
  · simp
  · next i hi hi' =>
    rw [Array.getElem_modify, Array.getElem_set]
    split
    · next heq =>
      subst heq
      rfl
    · rfl

/-- A change of one slot that leaves it occupied or vacant as it was does not
change the number of occupied slots. -/
theorem countP_isOccupied_modify (slots : Array (Slot κ)) (index : Nat) (f : Slot κ → Slot κ)
    (hf : ∀ slot, (f slot).isOccupied = slot.isOccupied) :
    (slots.modify index f).countP Slot.isOccupied = slots.countP Slot.isOccupied := by
  by_cases hindex : index < slots.size
  · rw [modify_eq_set hindex, Array.countP_set, hf]
    by_cases hslot : slots[index].isOccupied = true
    · have hpos : 0 < slots.countP Slot.isOccupied :=
        Array.countP_pos_iff.2 ⟨_, Array.getElem_mem hindex, hslot⟩
      simp only [hslot, if_true]
      omega
    · simp [hslot]
  · have hsame : slots.modify index f = slots := by
      ext1
      · simp
      · next i hi hi' =>
        rw [Array.getElem_modify, if_neg]
        omega
    rw [hsame]

/-- Filling a vacant slot makes one more slot occupied. -/
theorem countP_isOccupied_fill {slots : Array (Slot κ)} {index : Nat} {generation : UInt32}
    (hslot : slots[index]? = some ⟨generation, none⟩) (entry : Entry κ) :
    (slots.modify index fun slot => { slot with entry := some entry }).countP Slot.isOccupied =
      slots.countP Slot.isOccupied + 1 := by
  obtain ⟨hindex, hget⟩ := Array.getElem?_eq_some_iff.1 hslot
  rw [modify_eq_set hindex, Array.countP_set]
  simp [hget, Slot.isOccupied]

theorem WF.alloc {heap : Heap κ} (h : heap.WF) (object : Object κ) :
    (heap.alloc object).2.WF := by
  refine ⟨?_, ?_, ?_, ?_⟩
  · intro handle entry hentry
    rw [entry?_alloc h] at hentry
    split at hentry
    · cases hentry
      rfl
    · exact h.white hentry
  · cases hback : heap.free.back? with
    | some index =>
      rw [alloc_of_back? hback]
      simpa using h.free_nodup.sublist (List.dropLast_sublist _)
    | none =>
      rw [alloc_of_back?_eq_none hback]
      exact h.free_nodup
  · intro index
    cases hback : heap.free.back? with
    | some free =>
      obtain ⟨rest, hrest⟩ := Array.back?_eq_some_iff.1 hback
      obtain ⟨vacant, hslot⟩ := h.vacant_of_back? hback
      have hnodup := h.free_nodup
      rw [hrest, Array.toList_push, List.nodup_append] at hnodup
      rw [alloc_of_back? hback]
      simp only [hrest, Array.pop_push, Array.getElem?_modify]
      by_cases hindex : free = index
      · subst hindex
        have hnot : free ∉ rest := by
          intro hmem
          exact hnodup.2.2 free (Array.mem_toList_iff.2 hmem) free (by simp) rfl
        simp [hnot, hslot]
      · have hmem : index ∈ heap.free ↔ _ := h.mem_free_iff
        rw [hrest, Array.mem_push] at hmem
        simp only [hindex, if_false]
        rw [← hmem]
        simp [Ne.symm hindex]
    | none =>
      rw [alloc_of_back?_eq_none hback]
      have hempty : heap.free = #[] := Array.back?_eq_none_iff.1 hback
      have hmem : index ∈ heap.free ↔ _ := h.mem_free_iff
      simp only [Array.getElem?_push]
      rw [hmem]
      by_cases hindex : index = heap.slots.size
      · simp [hindex]
      · simp [hindex]
  · cases hback : heap.free.back? with
    | some index =>
      obtain ⟨vacant, hslot⟩ := h.vacant_of_back? hback
      rw [alloc_of_back? hback]
      simp only [HeapStats.allocate]
      rw [countP_isOccupied_fill hslot, h.live_eq]
    | none =>
      rw [alloc_of_back?_eq_none hback]
      rw [Array.countP_push]
      simp [HeapStats.allocate, Slot.isOccupied, h.live_eq]

/-! ## Mutation -/

/-- A mutation changes the object that its handle reaches, and what no other
handle reaches. -/
theorem entry?_modifyObject (heap : Heap κ) (handle : Handle) (f : Object κ → Object κ)
    (other : Handle) :
    Heap.entry? (heap.modifyObject handle f) other =
      (heap.entry? other).map fun entry =>
        if other = handle then { entry with object := f entry.object } else entry := by
  obtain ⟨index, generation⟩ := handle
  obtain ⟨index', generation'⟩ := other
  simp only [modifyObject, entry?_eq, entryIn, Array.getElem?_modify, Handle.mk.injEq]
  by_cases hindex : index = index'
  · subst hindex
    cases hslot : heap.slots[index]? with
    | none => simp
    | some slot =>
      by_cases hgen : slot.generation = generation
      · by_cases hgen' : slot.generation = generation'
        · subst hgen
          subst hgen'
          simp
        · subst hgen
          simp [hgen']
      · by_cases hgen' : slot.generation = generation'
        · subst hgen'
          simp [hgen]
        · simp [hgen, hgen']
  · simp [hindex, Ne.symm hindex]

theorem get_modifyObject (heap : Heap κ) (handle : Handle) (f : Object κ → Object κ)
    (other : Handle) :
    (heap.modifyObject handle f).get other =
      (heap.get other).map fun object => if other = handle then f object else object := by
  unfold get
  rw [entry?_modifyObject]
  cases heap.entry? other with
  | none => rfl
  | some entry =>
    by_cases heq : other = handle <;> simp [heq, Except.map]

/-- A mutation through a handle that reaches nothing changes nothing. -/
theorem modifyObject_of_entry?_eq_none {heap : Heap κ} {handle : Handle}
    (h : heap.entry? handle = none) (f : Object κ → Object κ) :
    heap.modifyObject handle f = heap := by
  have hslots : (heap.modifyObject handle f).slots = heap.slots := by
    refine Array.ext_getElem? fun i => ?_
    rw [modifyObject, Array.getElem?_modify]
    by_cases hindex : handle.index = i
    · subst hindex
      rw [if_pos rfl]
      cases hslot : heap.slots[handle.index]? with
      | none => rfl
      | some slot =>
        obtain ⟨generation, entry⟩ := slot
        by_cases hgen : generation = handle.generation
        · have hentry : entry = none := by simpa [entry?_eq, entryIn, hslot, hgen] using h
          simp [hentry]
        · simp [hgen]
    · rw [if_neg hindex]
  exact congrArg (fun slots => { heap with slots }) hslots

/-- Changing the items of a list changes no other object. -/
theorem get_of_get_modifyList {heap : Heap κ} {handle other : Handle}
    {f : Array Value → Array Value} {object : Object κ}
    (h : (heap.modifyList handle f).get other = .ok object) :
    heap.get other = .ok object ∨
      ∃ items, other = handle ∧ heap.get other = .ok (.list items) ∧ object = .list (f items) := by
  rw [modifyList_eq, get_modifyObject] at h
  cases hold : heap.get other with
  | error fault =>
    rw [hold] at h
    cases h
  | ok old =>
    rw [hold] at h
    cases h
    dsimp only
    by_cases heq : other = handle
    · rw [if_pos heq]
      cases old with
      | list items => exact .inr ⟨items, heq, rfl, rfl⟩
      | _ => exact .inl rfl
    · rw [if_neg heq]
      exact .inl rfl

theorem WF.modifyObject {heap : Heap κ} (h : heap.WF) (handle : Handle)
    (f : Object κ → Object κ) : (heap.modifyObject handle f).WF := by
  refine ⟨?_, h.free_nodup, ?_, ?_⟩
  · intro other entry hentry
    rw [entry?_modifyObject] at hentry
    obtain ⟨old, hold, rfl⟩ := Option.map_eq_some_iff.1 hentry
    have hwhite := h.white hold
    split <;> exact hwhite
  · intro index
    refine h.mem_free_iff.trans (exists_congr fun generation => ?_)
    simp only [Heap.modifyObject, Array.getElem?_modify]
    by_cases hindex : handle.index = index
    · subst hindex
      cases hslot : heap.slots[handle.index]? with
      | none => simp
      | some slot =>
        obtain ⟨held, entry⟩ := slot
        by_cases hgen : held = handle.generation <;> simp [hgen]
    · simp [hindex]
  · refine h.live_eq.trans (countP_isOccupied_modify _ _ _ fun slot => ?_).symm
    split <;> simp [Slot.isOccupied]

theorem WF.empty : ({} : Heap κ).WF := by
  refine ⟨?_, by simp, ?_, by simp⟩
  · intro handle entry hentry
    simp [entry?_eq, entryIn] at hentry
  · simp

/-! ## Objects that stay -/

/-- A heap that has come from another by allocations only. -/
abbrev Allocs : Heap κ → Heap κ → Prop :=
  Relation.ReflTransGen fun heap heap' => ∃ object, heap' = (heap.alloc object).2

theorem Allocs.alloc {origin heap : Heap κ} (h : origin.Allocs heap) (object : Object κ) :
    origin.Allocs (heap.alloc object).2 :=
  .tail h ⟨object, rfl⟩

/-- Every object of `origin` other than a list is on the heap, unchanged. -/
structure Kept (origin heap : Heap κ) : Prop where
  wf : heap.WF
  get : ∀ {a x}, origin.get a = .ok x → x.kind ≠ .list → heap.get a = .ok x

namespace Kept

variable {origin heap heap' : Heap κ}

theorem refl (h : heap.WF) : heap.Kept heap := ⟨h, fun hx _ => hx⟩

theorem trans (h : origin.Kept heap) (h' : heap.Kept heap') : origin.Kept heap' :=
  ⟨h'.wf, fun hx hkind => h'.get (h.get hx hkind) hkind⟩

theorem alloc (h : origin.Kept heap) (object : Object κ) : origin.Kept (heap.alloc object).2 :=
  ⟨h.wf.alloc object, fun hx hkind => get_alloc_of_get h.wf object (h.get hx hkind)⟩

theorem modifyList (h : origin.Kept heap) (handle : Handle) (f : Array Value → Array Value) :
    origin.Kept (heap.modifyList handle f) := by
  rw [modifyList_eq]
  refine ⟨h.wf.modifyObject _ _, fun {a x} hx hkind => ?_⟩
  rw [get_modifyObject, h.get hx hkind]
  cases x with
  | list items => exact absurd rfl hkind
  | function f => simp [Except.map, Object.mapItems]
  | native n => simp [Except.map, Object.mapItems]
  | string text => simp [Except.map, Object.mapItems]

end Kept

theorem Allocs.kept {origin heap : Heap κ} (h : origin.Allocs heap) (hwf : origin.WF) :
    origin.Kept heap := by
  induction h with
  | refl => exact .refl hwf
  | tail _ hallocated ih =>
    obtain ⟨object, rfl⟩ := hallocated
    exact ih.alloc object

end Heap

end ScriptMachine
