import Mathlib.Data.Set.Card
import ScriptMachine.Heap.Collect

/-!
# What handles reach

A handle reaches an entry if its slot is occupied and has the handle's
generation. This file describes the heap only through that view: which entry
each handle reaches after an allocation, a mutation or a change of color
(`Heap.entry?_alloc`, `Heap.entry?_modifyObject`), under the representation
invariant of the slots (`Heap.WF`). Live handles and occupied slots are equally
many (`ncard_entryIn`).
-/

namespace ScriptMachine

variable {κ : Type}

/-- The entry that a handle reaches in an array of slots. -/
def entryIn (slots : Array (Slot κ)) (handle : Handle) : Option (Entry κ) :=
  match slots[handle.index]? with
  | some slot => if slot.generation = handle.generation then slot.entry else none
  | none => none

theorem Heap.entry?_eq (heap : Heap κ) (handle : Handle) :
    heap.entry? handle = entryIn heap.slots handle := rfl

theorem entryIn_eq_some {slots : Array (Slot κ)} {handle : Handle} {entry : Entry κ} :
    entryIn slots handle = some entry ↔
      slots[handle.index]? = some ⟨handle.generation, some entry⟩ := by
  unfold entryIn
  cases hslot : slots[handle.index]? with
  | none => simp
  | some slot =>
    obtain ⟨generation, held⟩ := slot
    by_cases hgen : generation = handle.generation
    · simp [hgen]
    · simp [hgen]

/-- Two handles into one slot that both reach an entry are the same. -/
theorem handle_eq_of_index_eq {slots : Array (Slot κ)} {a b : Handle} {x y : Entry κ}
    (ha : entryIn slots a = some x) (hb : entryIn slots b = some y)
    (hindex : a.index = b.index) : a = b := by
  rw [entryIn_eq_some] at ha hb
  rw [hindex, hb] at ha
  cases a
  cases b
  simp_all

/-! ## Objects by handle -/

namespace Heap

theorem get_eq_ok {heap : Heap κ} {handle : Handle} {object : Object κ} :
    heap.get handle = .ok object ↔ ∃ color, heap.entry? handle = some ⟨color, object⟩ := by
  unfold get
  cases hentry : heap.entry? handle with
  | none => simp
  | some entry =>
    obtain ⟨color, held⟩ := entry
    simp

theorem isLive_iff {heap : Heap κ} {handle : Handle} :
    heap.isLive handle = true ↔ ∃ object, heap.get handle = .ok object := by
  unfold isLive get
  cases heap.entry? handle <;> simp

theorem function_eq_ok {heap : Heap κ} {handle : Handle} {function : Function} :
    heap.function handle = .ok function ↔ heap.get handle = .ok (.function function) := by
  unfold Heap.function
  cases heap.get handle with
  | error fault => simp
  | ok object => cases object <;> simp

theorem list_eq_ok {heap : Heap κ} {handle : Handle} {items : Array Value} :
    heap.list handle = .ok items ↔ heap.get handle = .ok (.list items) := by
  unfold Heap.list
  cases heap.get handle with
  | error fault => simp
  | ok object => cases object <;> simp

/-- Whether an object is found does not depend on how it is colored. -/
theorem get_congr {heap heap' : Heap κ} {handle : Handle}
    (h : heap'.entry? handle = heap.entry? handle) : heap'.get handle = heap.get handle := by
  unfold get
  rw [h]

end Heap

/-! ## Counting live handles -/

/-- The handle of the object in a slot. -/
def handleAt (slots : Array (Slot κ)) (index : Nat) : Handle :=
  ⟨index, ((slots[index]?).map Slot.generation).getD 0⟩

theorem card_filter_getElem? {α : Type} (list : List α) (test : α → Bool) :
    ((Finset.range list.length).filter fun index => (list[index]?).any test = true).card =
      list.countP test := by
  induction list using List.reverseRecOn with
  | nil => simp
  | append_singleton list last ih =>
    rw [List.length_append, List.length_singleton, Finset.range_add_one, Finset.filter_insert,
      List.countP_append, ← ih]
    have hsame : (Finset.range list.length).filter
          (fun index => ((list ++ [last])[index]?).any test = true) =
        (Finset.range list.length).filter (fun index => (list[index]?).any test = true) := by
      refine Finset.filter_congr fun index hindex => ?_
      rw [List.getElem?_append_left (Finset.mem_range.1 hindex)]
    rw [hsame]
    by_cases hlast : test last = true
    · rw [if_pos (by simpa using hlast), Finset.card_insert_of_notMem (by simp)]
      simp [hlast]
    · rw [if_neg (by simpa using hlast)]
      simp [hlast]

/-- The handles that reach an entry with some property, listed slot by slot. -/
theorem setOf_entryIn (slots : Array (Slot κ)) (test : Entry κ → Bool) :
    {handle | (entryIn slots handle).any test = true} =
      (((Finset.range slots.toList.length).filter fun index =>
        (slots.toList[index]?).any (fun slot => slot.entry.any test) = true).image
          (handleAt slots) : Finset Handle) := by
  ext handle
  simp only [Set.mem_ofPred_eq, Finset.coe_image, Finset.coe_filter, Finset.mem_range,
    Set.mem_image, Array.length_toList, Array.getElem?_toList]
  constructor
  · intro h
    obtain ⟨entry, hentry, htest⟩ := (Option.any_eq_true _ _).1 h
    have hslot := entryIn_eq_some.1 hentry
    refine ⟨handle.index, ⟨?_, ?_⟩, ?_⟩
    · exact (Array.getElem?_eq_some_iff.1 hslot).1
    · simp [hslot, htest]
    · simp [handleAt, hslot]
  · rintro ⟨index, ⟨-, h⟩, rfl⟩
    obtain ⟨slot, hslot, hheld⟩ := (Option.any_eq_true _ _).1 h
    obtain ⟨entry, hentry, htest⟩ := (Option.any_eq_true _ _).1 hheld
    have hreach : entryIn slots (handleAt slots index) = some entry := by
      rw [entryIn_eq_some]
      simp [handleAt, hslot, ← hentry]
    simp [hreach, htest]

theorem finite_entryIn (slots : Array (Slot κ)) (test : Entry κ → Bool) :
    {handle | (entryIn slots handle).any test = true}.Finite := by
  rw [setOf_entryIn]
  exact Finset.finite_toSet _

/-- The slots whose entry has some property are as many as the handles that reach
such an entry. -/
theorem ncard_entryIn (slots : Array (Slot κ)) (test : Entry κ → Bool) :
    {handle | (entryIn slots handle).any test = true}.ncard =
      slots.countP (fun slot => slot.entry.any test) := by
  have hinj : Function.Injective (handleAt slots) := by
    intro i j hij
    exact congrArg Handle.index hij
  rw [setOf_entryIn, Set.ncard_coe_finset, Finset.card_image_of_injective _ hinj,
    card_filter_getElem?]
  simp

end ScriptMachine
