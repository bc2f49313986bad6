import Mathlib.Order.Bounds.Basic
import ScriptMachine.Proofs.Heap.History

/-!
# The bookkeeping of the heap

The heap keeps its slots, the stack of vacant ones and its counts apart from each other. After
every history they agree (`Heap.bookkeeping_exact`): the vacant slots are stacked once each, every
object is white, the counts are those of the allocations, collections and reports that there have
been, and no allocation has put an object into a slot that held one.
-/

namespace ScriptMachine.Heap

variable {κ : Type}

/-! ## Reports -/

/-- The report of an operation, if it is a collection. -/
def reportsOf (heap : Heap κ) : HeapOp κ → List CollectReport
  | .collect roots => [(heap.collect roots).1]
  | _ => []

/-- The reports of the collections among operations, in order. -/
def reports (heap : Heap κ) : List (HeapOp κ) → List CollectReport
  | [] => []
  | op :: ops => heap.reportsOf op ++ (heap.apply op).reports ops

theorem reports_append (heap : Heap κ) (ops ops' : List (HeapOp κ)) :
    heap.reports (ops ++ ops') = heap.reports ops ++ (ops.foldl apply heap).reports ops' := by
  induction ops generalizing heap with
  | nil => rfl
  | cons op ops ih => simp [reports, ih]

theorem replay_concat (history : List (HeapOp κ)) (op : HeapOp κ) :
    replay (history ++ [op]) = (replay history).apply op :=
  replay_append history [op]

theorem reports_concat (history : List (HeapOp κ)) (op : HeapOp κ) :
    reports {} (history ++ [op]) = reports {} history ++ (replay history).reportsOf op := by
  rw [reports_append]
  exact congrArg (reports {} history ++ ·) (List.append_nil _)

/-- What is live before a collection is freed by it or live behind it. -/
theorem WF.freed_add_live {heap : Heap κ} (h : heap.WF) (roots : Roots) :
    (heap.collect roots).1.freed + (heap.collect roots).2.stats.live = heap.stats.live := by
  obtain ⟨hmarked, -⟩ := h.marking roots
  have hsurvivors : (heap.collect roots).2.stats.live =
      {handle | heap.isLive handle = true ∧ heap.Reachable roots handle}.ncard := by
    rw [(h.collect roots).live_eq, ← ncard_isLive]
    congr 1
    ext handle
    exact isLive_collect h roots handle
  rw [h.live_eq, ← ncard_isLive, ncard_isLive_eq_add hmarked, hsurvivors]
  exact congrArg (· + _) (length_unreached _)

/-! ## Counts -/

/-- The counts of the heap are those of its history. -/
structure Counted (history : List (HeapOp κ)) (heap : Heap κ) : Prop where
  allocated : heap.stats.allocated =
    heap.stats.live + ((reports {} history).map CollectReport.freed).sum
  peakLive : IsGreatest {live | ∃ before, before <+: history ∧ live = (replay before).stats.live}
    heap.stats.peakLive
  collections : heap.stats.collections = (reports {} history).length
  lastFreed : heap.stats.lastFreed = ((reports {} history).getLast?.map CollectReport.freed).getD 0
  lastLive : heap.stats.lastLive = ((reports {} history).getLast?.map CollectReport.live).getD 0

/-- The highest count of live objects, one operation later. -/
theorem isGreatest_concat {history : List (HeapOp κ)} (op : HeapOp κ) {peak : Nat}
    (h : IsGreatest {live | ∃ before, before <+: history ∧ live = (replay before).stats.live}
      peak) :
    IsGreatest {live | ∃ before, before <+: history ++ [op] ∧ live = (replay before).stats.live}
      (max peak (replay (history ++ [op])).stats.live) := by
  have hset : {live | ∃ before, before <+: history ++ [op] ∧ live = (replay before).stats.live} =
      insert (replay (history ++ [op])).stats.live
        {live | ∃ before, before <+: history ∧ live = (replay before).stats.live} := by
    ext live
    simp only [Set.mem_ofPred_eq, Set.mem_insert_iff, List.prefix_concat_iff, or_and_right,
      exists_or, exists_eq_left]
  rw [hset, max_comm]
  exact h.insert _

theorem Counted.start : Counted [] ({} : Heap κ) := by
  refine ⟨rfl, ⟨⟨[], List.prefix_refl [], rfl⟩, ?_⟩, rfl, rfl, rfl⟩
  rintro _ ⟨before, hbefore, rfl⟩
  rw [List.prefix_nil.1 hbefore]
  exact Nat.le_refl _

/-- Reports come from collections only. -/
theorem reports_concat_of_ne_collect (history : List (HeapOp κ)) (op : HeapOp κ)
    (hop : ∀ roots, op ≠ .collect roots) : reports {} (history ++ [op]) = reports {} history := by
  rw [reports_concat]
  cases op with
  | alloc | mutate => exact List.append_nil _
  | collect roots => exact absurd rfl (hop roots)

theorem Counted.concat {history : List (HeapOp κ)} (h : Counted history (replay history))
    (op : HeapOp κ) : Counted (history ++ [op]) (replay (history ++ [op])) := by
  have hpeak := isGreatest_concat op h.peakLive
  have hlive : (replay history).stats.live ≤ (replay history).stats.peakLive :=
    h.peakLive.2 ⟨history, List.prefix_refl history, rfl⟩
  rw [replay_concat] at hpeak ⊢
  cases op with
  | alloc object =>
    have hreports := reports_concat_of_ne_collect history (.alloc object) (by rintro _ ⟨⟩)
    have hstats : ((replay history).apply (.alloc object)).stats =
        (replay history).stats.allocate := by
      rw [Heap.apply, Heap.alloc]
      split <;> rfl
    have hallocated := h.allocated
    rw [hstats] at hpeak
    constructor <;> rw [hstats]
    · rw [hreports, HeapStats.allocate]
      dsimp only
      omega
    · exact hpeak
    · exact hreports ▸ h.collections
    · exact hreports ▸ h.lastFreed
    · exact hreports ▸ h.lastLive
  | mutate handle f =>
    have hreports := reports_concat_of_ne_collect history (.mutate handle f)
      (by rintro _ ⟨⟩)
    rw [apply_mutate] at hpeak ⊢
    have hstats : ((replay history).modifyObject handle f).stats = (replay history).stats := rfl
    rw [hstats, max_eq_left hlive] at hpeak
    exact ⟨hreports ▸ h.allocated, hpeak, hreports ▸ h.collections, hreports ▸ h.lastFreed,
      hreports ▸ h.lastLive⟩
  | collect roots =>
    have hreports : reports {} (history ++ [.collect roots]) = reports {} history ++
        [((replay history).collect roots).1] := reports_concat history _
    have hsum := (WF.replay history).freed_add_live roots
    have hallocated : ((replay history).apply (.collect roots)).stats.allocated =
        (replay history).stats.live + ((reports {} history).map CollectReport.freed).sum :=
      h.allocated
    rw [max_eq_left (by rw [Heap.apply]; omega)] at hpeak
    refine ⟨?_, hpeak, ?_, ?_, ?_⟩
    · rw [hallocated, hreports, List.map_append, List.sum_append, Heap.apply]
      simp only [List.map_cons, List.map_nil, List.sum_cons, List.sum_nil]
      omega
    · rw [hreports, List.length_append]
      exact congrArg (· + 1) h.collections
    · rw [hreports, List.getLast?_concat]
      rfl
    · rw [hreports, List.getLast?_concat]
      rfl

theorem Counted.replay (history : List (HeapOp κ)) : Counted history (replay history) := by
  induction history using List.reverseRecOn with
  | nil => exact .start
  | append_singleton history op ih => exact ih.concat op

/-! ## Allocation -/

/-- An allocation fills a slot that is vacant or new. -/
theorem occupied_alloc {heap : Heap κ} (h : heap.WF) (object : Object κ) :
    heap.occupied (heap.alloc object).1.index = false := by
  cases hback : heap.free.back? with
  | some index =>
    obtain ⟨generation, hslot⟩ := h.vacant_of_back? hback
    simp [alloc_of_back? hback, occupied, hslot, Slot.isOccupied]
  | none => simp [alloc_of_back?_eq_none hback, occupied]

/-- An allocation leaves the other slots as they are. -/
theorem getElem?_slots_alloc (heap : Heap κ) (object : Object κ) {index : Nat}
    (hindex : index ≠ (heap.alloc object).1.index) :
    (heap.alloc object).2.slots[index]? = heap.slots[index]? := by
  cases hback : heap.free.back? with
  | some free =>
    rw [alloc_of_back? hback] at hindex ⊢
    simp [Array.getElem?_modify, hindex.symm]
  | none =>
    rw [alloc_of_back?_eq_none hback] at hindex ⊢
    simp only [Array.getElem?_push]
    rw [if_neg hindex]

/-- **Bookkeeping.** After every history of allocations, mutations and collections, the stack of
vacant slots has each of them once, every object is white, and the counts are those of the
history: the occupied slots as live, these and all that the reports count as freed as allocated,
the most that have ever been live as the peak, the collections, and the figures of the last
report. The next allocation does not put its object into an occupied slot, and changes no other
slot. -/
theorem bookkeeping_exact (history : List (HeapOp κ)) :
    let heap := replay history
    let reports := reports {} history
    heap.free.toList.Nodup ∧
    (∀ index, index ∈ heap.free ↔ ∃ generation, heap.slots[index]? = some ⟨generation, none⟩) ∧
    (∀ (index : Nat) (slot : Slot κ), heap.slots[index]? = some slot →
      ∀ entry, slot.entry = some entry → entry.color = .white) ∧
    heap.stats.live = heap.slots.countP Slot.isOccupied ∧
    heap.stats.allocated = heap.stats.live + (reports.map CollectReport.freed).sum ∧
    IsGreatest {live | ∃ before, before <+: history ∧ live = (replay before).stats.live}
      heap.stats.peakLive ∧
    heap.stats.collections = reports.length ∧
    heap.stats.lastFreed = (reports.getLast?.map CollectReport.freed).getD 0 ∧
    heap.stats.lastLive = (reports.getLast?.map CollectReport.live).getD 0 ∧
    ∀ object, heap.occupied (heap.alloc object).1.index = false ∧
      ∀ index, index ≠ (heap.alloc object).1.index →
        (heap.alloc object).2.slots[index]? = heap.slots[index]? := by
  intro heap reports
  have hwf : heap.WF := WF.replay history
  have hcounted : Counted history heap := Counted.replay history
  refine ⟨hwf.free_nodup, fun _ => hwf.mem_free_iff, fun index slot hslot entry hentry => ?_,
    hwf.live_eq, hcounted.allocated, hcounted.peakLive, hcounted.collections, hcounted.lastFreed,
    hcounted.lastLive, fun object => ⟨occupied_alloc hwf object, fun _ hindex =>
      getElem?_slots_alloc heap object hindex⟩⟩
  have hreached : heap.entry? ⟨index, slot.generation⟩ = some entry :=
    entryIn_eq_some.2 (hslot.trans (by rw [← hentry]))
  exact hwf.white hreached

end ScriptMachine.Heap
