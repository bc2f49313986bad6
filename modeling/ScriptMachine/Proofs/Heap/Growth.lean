import ScriptMachine.Proofs.Heap.Bookkeeping

/-!
# Heaps that only grow

What happens to a heap on which objects are allocated and nothing else (`Heap.Allocs`): every
handle that reached an object still reaches it, and the new ones were all pending, which means
that the heap had yet to issue them (`Heap.Grown`). Roots that lead to no pending handle therefore
reach what they reached before (`Heap.Grown.reachable_iff`), and a collection leaves what it would
have left without the new objects (`Heap.Grown.get_collect`).
-/

namespace ScriptMachine.Heap

variable {κ : Type} {origin heap heap' : Heap κ}

/-! ## Pending handles -/

/-- A handle that allocations may issue before the next collection: that of a slot that is vacant
or not there yet, under the generation that the slot has then. -/
def Pending (heap : Heap κ) (handle : Handle) : Prop :=
  heap.generationAt handle.index = handle.generation ∧ heap.occupied handle.index = false

theorem not_pending_of_isLive {handle : Handle} (h : heap.isLive handle) :
    ¬heap.Pending handle := by
  rintro ⟨-, hvacant⟩
  obtain ⟨object, hget⟩ := isLive_iff.1 h
  obtain ⟨color, hentry⟩ := get_eq_ok.1 hget
  rw [entry?_eq, entryIn_eq_some] at hentry
  simp [occupied, hentry, Slot.isOccupied] at hvacant

/-- The handle that an allocation issues was pending. -/
theorem pending_alloc (h : heap.WF) (object : Object κ) : heap.Pending (heap.alloc object).1 := by
  refine ⟨?_, occupied_alloc h object⟩
  cases hback : heap.free.back? with
  | some index => rw [alloc_of_back? hback]
  | none => simp [alloc_of_back?_eq_none hback, generationAt]

/-- An allocation makes no handle pending. -/
theorem pending_of_pending_alloc (h : heap.WF) {object : Object κ} {handle : Handle}
    (hpending : (heap.alloc object).2.Pending handle) : heap.Pending handle := by
  by_cases hindex : handle.index = (heap.alloc object).1.index
  · -- The slot that has just been filled is not vacant.
    obtain ⟨color, hentry⟩ := get_eq_ok.1 (get_alloc_self h object)
    rw [entry?_eq, entryIn_eq_some, ← hindex] at hentry
    have hvacant := hpending.2
    simp [occupied, hentry, Slot.isOccupied] at hvacant
  · have hslot := getElem?_slots_alloc heap object hindex
    rw [Pending, generationAt, occupied, hslot] at hpending
    exact hpending

/-! ## Growth -/

/-- What is on `origin` is on the heap as it was, and all else has come under handles that were
pending. -/
structure Grown (origin heap : Heap κ) : Prop where
  wf : heap.WF
  get : ∀ {handle object}, origin.get handle = .ok object → heap.get handle = .ok object
  gained : ∀ {handle}, heap.isLive handle → origin.isLive handle ∨ origin.Pending handle
  pending : ∀ {handle}, heap.Pending handle → origin.Pending handle

namespace Grown

theorem refl (h : heap.WF) : heap.Grown heap := ⟨h, id, .inl, id⟩

theorem alloc (h : origin.Grown heap) (object : Object κ) : origin.Grown (heap.alloc object).2 := by
  refine ⟨h.wf.alloc object, fun hget => get_alloc_of_get h.wf object (h.get hget),
    fun {handle} hlive => ?_, fun hpending => h.pending (pending_of_pending_alloc h.wf hpending)⟩
  obtain ⟨found, hfound⟩ := isLive_iff.1 hlive
  rcases get_of_get_alloc h.wf hfound with ⟨rfl, -⟩ | hold
  · exact .inr (h.pending (pending_alloc h.wf object))
  · exact h.gained (isLive_iff.2 ⟨found, hold⟩)

end Grown

theorem Allocs.grown (h : origin.Allocs heap) (hwf : origin.WF) : origin.Grown heap := by
  induction h with
  | refl => exact .refl hwf
  | tail _ hallocated ih =>
    obtain ⟨object, rfl⟩ := hallocated
    exact ih.alloc object

/-! ## Growth that no root leads to -/

namespace Grown

variable {roots : Roots}
  (hroots : ∀ {handle}, origin.Reachable roots handle → ¬origin.Pending handle)

include hroots

/-- What the roots reach is on the heap as it was, if it was there at all. -/
theorem get_of_reachable (h : origin.Grown heap) {handle : Handle}
    (hreach : origin.Reachable roots handle) : heap.get handle = origin.get handle := by
  by_cases hlive : origin.isLive handle
  · obtain ⟨object, hget⟩ := isLive_iff.1 hlive
    rw [hget, h.get hget]
  · have hstale : ¬heap.isLive handle := fun hlive' =>
      (h.gained hlive').elim hlive (hroots hreach)
    simp only [isLive, Option.isSome_iff_ne_none, ne_eq, not_not] at hlive hstale
    exact get_congr (hstale.trans hlive.symm)

theorem reachable_iff (h : origin.Grown heap) {handle : Handle} :
    heap.Reachable roots handle ↔ origin.Reachable roots handle := by
  constructor
  · intro hreach
    induction hreach with
    | root hroot => exact .root hroot
    | child _ hget hchild ih => exact ih.child (h.get_of_reachable hroots ih ▸ hget) hchild
  · intro hreach
    induction hreach with
    | root hroot => exact .root hroot
    | child hreach hget hchild ih => exact ih.child (h.get hget) hchild

/-- The roots reach nothing that is new. -/
theorem not_reachable (h : origin.Grown heap) {handle : Handle} (hlive : heap.isLive handle)
    (hnew : ¬origin.isLive handle) : ¬heap.Reachable roots handle := fun hreach =>
  (h.gained hlive).elim hnew (hroots ((h.reachable_iff hroots).1 hreach))

/-- A collection leaves the same objects as without the new ones. -/
theorem get_collect (h : origin.Grown heap) (hwf : origin.WF) (handle : Handle) :
    (heap.collect roots).2.get handle = (origin.collect roots).2.get handle := by
  by_cases hreach : origin.Reachable roots handle
  · rw [get_collect_of_reachable hwf hreach,
      get_collect_of_reachable h.wf ((h.reachable_iff hroots).2 hreach),
      h.get_of_reachable hroots hreach]
  · refine get_congr ?_
    rw [entry?_collect_of_not_reachable hwf hreach,
      entry?_collect_of_not_reachable h.wf (mt (h.reachable_iff hroots).1 hreach)]

end Grown

end ScriptMachine.Heap
