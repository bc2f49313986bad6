import ScriptMachine.Proofs.Heap.Marking

/-!
# Collection is exact

A collection keeps exactly the live objects that the roots reach, each under its
handle and as it was (`Heap.entry?_collect_of_reachable`,
`Heap.entry?_collect_of_not_reachable`), and leaves the heap well-formed
(`Heap.WF.collect`). For a heap with any history of allocations, mutations and
collections this gives `Heap.collect_exact`: what survives, and what the report
of the collection counts.
-/

namespace ScriptMachine

variable {κ : Type}

/-! ## Sweeping -/

theorem entryIn_map_sweep (slots : Array (Slot κ)) (handle : Handle) :
    entryIn (slots.map Slot.sweep) handle =
      (entryIn slots handle).bind fun entry =>
        if entry.color = .white then none else some { entry with color := .white } := by
  unfold entryIn
  rw [Array.getElem?_map]
  cases hslot : slots[handle.index]? with
  | none => rfl
  | some slot =>
    obtain ⟨generation, held⟩ := slot
    cases held with
    | none => simp [Slot.sweep, Slot.isWhite, Slot.recolor]
    | some entry =>
      by_cases hwhite : entry.color = .white
      · by_cases hgen : generation = handle.generation <;>
          simp [Slot.sweep, Slot.isWhite, hwhite, hgen]
      · by_cases hgen : generation = handle.generation <;>
          simp [Slot.sweep, Slot.isWhite, Slot.recolor, hwhite, hgen]

/-- A slot is vacant after sweeping if it was vacant or white. -/
theorem getElem?_map_sweep_vacant (slots : Array (Slot κ)) (index : Nat) :
    (∃ generation, (slots.map Slot.sweep)[index]? = some ⟨generation, none⟩) ↔
      (∃ generation, slots[index]? = some ⟨generation, none⟩) ∨
        (slots[index]?).any Slot.isWhite = true := by
  rw [Array.getElem?_map]
  cases hslot : slots[index]? with
  | none => simp
  | some slot =>
    obtain ⟨generation, held⟩ := slot
    cases held with
    | none => simp [Slot.sweep, Slot.isWhite, Slot.recolor]
    | some entry =>
      by_cases hwhite : entry.color = .white <;>
        simp [Slot.sweep, Slot.isWhite, Slot.recolor, hwhite]

namespace Heap

theorem mem_unreached {slots : Array (Slot κ)} {index : Nat} :
    index ∈ unreached slots ↔ (slots[index]?).any Slot.isWhite = true := by
  unfold unreached
  rw [List.mem_filter, List.mem_range]
  cases hslot : slots[index]? with
  | none => simp
  | some slot =>
    have hindex := (Array.getElem?_eq_some_iff.1 hslot).1
    simp [hindex]

theorem nodup_unreached (slots : Array (Slot κ)) : (unreached slots).Nodup :=
  List.nodup_range.filter _

theorem length_unreached (slots : Array (Slot κ)) :
    (unreached slots).length = slots.countP Slot.isWhite := by
  have hcard := card_filter_getElem? slots.toList Slot.isWhite
  rw [← Array.countP_toList, ← hcard]
  have hfilter : unreached slots =
      (List.range slots.toList.length).filter fun index =>
        (slots.toList[index]?).any Slot.isWhite = true := by
    unfold unreached
    rw [Array.length_toList]
    refine List.filter_congr fun index hindex => ?_
    rw [Array.getElem?_toList]
    cases slots[index]? <;> simp
  rw [hfilter]
  rfl

/-! ## Collecting -/

/-- The slots as marking from the roots colors them, and how many objects it has
counted. -/
def marking (heap : Heap κ) (roots : Roots) : Array (Slot κ) × Nat :=
  (roots.handles.foldl Marking.shade ⟨heap.slots, []⟩).run 0

theorem WF.colorIn_eq {heap : Heap κ} (h : heap.WF) {handle : Handle} {color : Color}
    (hcolor : colorIn heap.slots handle = some color) : color = .white := by
  obtain ⟨entry, hentry, rfl⟩ := Option.map_eq_some_iff.1 hcolor
  exact h.white hentry

/-- Before marking everything is white. -/
theorem WF.whitened {heap : Heap κ} (h : heap.WF) :
    heap.slots.map (·.recolor .white) = heap.slots := by
  ext1
  · simp
  · next i hi hi' =>
    rw [Array.getElem_map]
    unfold Slot.recolor
    split
    · next entry hentry =>
      have hreach : heap.entry? ⟨i, heap.slots[i].generation⟩ = some entry := by
        rw [entry?_eq, entryIn_eq_some, Array.getElem?_eq_getElem hi', ← hentry]
      have hwhite := h.white hreach
      obtain ⟨color, object⟩ := entry
      simp only at hwhite
      subst hwhite
      rw [← hentry]
    · rfl

/-- Marking a well-formed heap ends with the reachable objects black, counted, and
the others white. -/
theorem WF.marking {heap : Heap κ} (h : heap.WF) (roots : Roots) :
    Marking.Marked heap roots (heap.marking roots).1 ∧
      (heap.marking roots).2 = Marking.blackCount (heap.marking roots).1 := by
  have hstart : Marking.Tracks heap roots ⟨heap.slots, []⟩ := by
    refine ⟨h.whitened, ?_, List.nodup_nil, ?_⟩
    · intro handle
      refine ⟨nofun, fun hgray => ?_⟩
      cases h.colorIn_eq hgray
    · intro handle color hcolor hne
      exact absurd (h.colorIn_eq hcolor) hne
  have hblack : ∀ handle, colorIn (roots.handles.foldl Marking.shade
      ⟨heap.slots, []⟩ : Marking κ).slots handle ≠ some .black := by
    intro handle
    rw [Ne, Marking.colorIn_foldl_shade_eq_black]
    intro hcolor
    cases h.colorIn_eq hcolor
  refine Marking.run_marked _ 0 (hstart.foldl_shade fun handle hroot => .root hroot) ?_ ?_ ?_
  · intro handle hcolor
    exact absurd hcolor (hblack handle)
  · intro handle hroot
    exact Marking.colorIn_foldl_shade_of_mem hroot _
  · simp [Marking.blackCount, hblack]

theorem entry?_collect {heap : Heap κ} (roots : Roots) (handle : Handle) :
    Heap.entry? (heap.collect roots).2 handle =
      (entryIn (heap.marking roots).1 handle).bind fun entry =>
        if entry.color = .white then none else some { entry with color := .white } :=
  entryIn_map_sweep _ _

/-- A live object that the roots reach survives as it was. -/
theorem entry?_collect_of_reachable {heap : Heap κ} (h : heap.WF) {roots : Roots}
    {handle : Handle} (hreach : heap.Reachable roots handle) :
    Heap.entry? (heap.collect roots).2 handle = heap.entry? handle := by
  obtain ⟨hmarked, -⟩ := h.marking roots
  have hcolor := hmarked.ne_white_of_reachable hreach
  rw [entry?_collect, hmarked.tracks.entry?_eq]
  cases hentry : entryIn (heap.marking roots).1 handle with
  | none => rfl
  | some entry =>
    have hne : entry.color ≠ .white := by
      intro hwhite
      exact hcolor (by simp [colorIn, hentry, hwhite])
    simp [hne]

/-- Nothing else survives. -/
theorem entry?_collect_of_not_reachable {heap : Heap κ} (h : heap.WF) {roots : Roots}
    {handle : Handle} (hreach : ¬heap.Reachable roots handle) :
    Heap.entry? (heap.collect roots).2 handle = none := by
  obtain ⟨hmarked, -⟩ := h.marking roots
  rw [entry?_collect]
  cases hentry : entryIn (heap.marking roots).1 handle with
  | none => rfl
  | some entry =>
    have hwhite : entry.color = .white := by
      by_contra hne
      exact hreach (hmarked.tracks.reachable (by simp [colorIn, hentry]) hne)
    simp [hwhite]

theorem get_collect_of_reachable {heap : Heap κ} (h : heap.WF) {roots : Roots} {handle : Handle}
    (hreach : heap.Reachable roots handle) :
    (heap.collect roots).2.get handle = heap.get handle :=
  get_congr (entry?_collect_of_reachable h hreach)

/-- A handle is live after a collection if it was live and the roots reach it. -/
theorem isLive_collect {heap : Heap κ} (h : heap.WF) (roots : Roots) (handle : Handle) :
    (heap.collect roots).2.isLive handle = true ↔
      heap.isLive handle = true ∧ heap.Reachable roots handle := by
  unfold isLive
  by_cases hreach : heap.Reachable roots handle
  · simp [entry?_collect_of_reachable h hreach, hreach]
  · simp [entry?_collect_of_not_reachable h hreach, hreach]

theorem WF.collect {heap : Heap κ} (h : heap.WF) (roots : Roots) :
    (heap.collect roots).2.WF := by
  obtain ⟨hmarked, -⟩ := h.marking roots
  have hvacant : ∀ (index : Nat) (generation : UInt32),
      (heap.marking roots).1[index]? = some (⟨generation, none⟩ : Slot κ) ↔
        heap.slots[index]? = some ⟨generation, none⟩ := by
    intro index generation
    rw [← hmarked.tracks.whitened, Array.getElem?_map]
    cases hslot : (heap.marking roots).1[index]? with
    | none => simp
    | some slot =>
      obtain ⟨held, entry⟩ := slot
      cases entry <;> simp [Slot.recolor]
  refine ⟨?_, ?_, ?_, rfl⟩
  · intro handle entry hentry
    rw [entry?_collect] at hentry
    obtain ⟨old, -, hold⟩ := Option.bind_eq_some_iff.1 hentry
    split at hold
    · cases hold
    · cases hold
      rfl
  · show (heap.free ++ unreached (heap.marking roots).1).toList.Nodup
    rw [Array.toList_appendList, List.nodup_append]
    refine ⟨h.free_nodup, nodup_unreached _, ?_⟩
    intro i hi j hj hij
    subst hij
    obtain ⟨generation, hslot⟩ := h.mem_free_iff.1 (Array.mem_toList_iff.1 hi)
    have hwhite := mem_unreached.1 hj
    rw [(hvacant i generation).2 hslot] at hwhite
    simp [Slot.isWhite] at hwhite
  · intro index
    show index ∈ heap.free ++ unreached (heap.marking roots).1 ↔
      ∃ generation, ((heap.marking roots).1.map Slot.sweep)[index]? = some ⟨generation, none⟩
    rw [getElem?_map_sweep_vacant, ← Array.mem_toList_iff, Array.toList_appendList,
      List.mem_append, Array.mem_toList_iff, h.mem_free_iff, mem_unreached]
    simp only [hvacant]

/-! ## Counting -/

theorem ncard_isLive (heap : Heap κ) :
    {handle | heap.isLive handle = true}.ncard = heap.slots.countP Slot.isOccupied := by
  have hset : {handle | heap.isLive handle = true} =
      {handle | (entryIn heap.slots handle).any (fun _ => true) = true} := by
    ext handle
    simp only [isLive, entry?_eq, Set.mem_ofPred_eq]
    cases entryIn heap.slots handle <;> simp
  rw [hset, ncard_entryIn]
  refine congrArg (Array.countP · heap.slots) (funext fun slot => ?_)
  unfold Slot.isOccupied
  cases slot.entry <;> rfl

theorem ncard_white (slots : Array (Slot κ)) :
    {handle | colorIn slots handle = some .white}.ncard = slots.countP Slot.isWhite := by
  rw [Marking.setOf_colorIn, ncard_entryIn]
  refine congrArg (Array.countP · slots) (funext fun slot => ?_)
  unfold Slot.isWhite
  cases slot.entry <;> simp

/-- The live handles are those left white, which are freed, and those reached. -/
theorem ncard_isLive_eq_add {heap : Heap κ} {roots : Roots} {slots : Array (Slot κ)}
    (h : Marking.Marked heap roots slots) :
    {handle | heap.isLive handle = true}.ncard = slots.countP Slot.isWhite +
      {handle | heap.isLive handle = true ∧ heap.Reachable roots handle}.ncard := by
  have hblack : {handle | heap.isLive handle = true ∧ heap.Reachable roots handle} =
      {handle | colorIn slots handle = some .black} := by
    ext handle
    exact h.eq_black_iff.symm
  have hsplit : {handle | heap.isLive handle = true} =
      {handle | colorIn slots handle = some .white} ∪
        {handle | colorIn slots handle = some .black} := by
    ext handle
    simp only [Set.mem_union, Set.mem_ofPred_eq, h.tracks.isLive_iff]
    constructor
    · rintro ⟨color, hcolor⟩
      cases color with
      | white => exact .inl hcolor
      | gray => exact absurd hcolor (h.ne_gray handle)
      | black => exact .inr hcolor
    · rintro (hcolor | hcolor) <;> exact ⟨_, hcolor⟩
  have hdisjoint : Disjoint {handle | colorIn slots handle = some .white}
      {handle | colorIn slots handle = some .black} := by
    rw [Set.disjoint_left]
    intro handle hwhite hblack
    simp only [Set.mem_ofPred_eq] at hwhite hblack
    rw [hwhite] at hblack
    cases hblack
  have hfinite : ∀ color, {handle | colorIn slots handle = some color}.Finite := by
    intro color
    rw [Marking.setOf_colorIn]
    exact finite_entryIn _ _
  rw [hblack, hsplit, Set.ncard_union_eq hdisjoint (hfinite .white) (hfinite .black), ncard_white]

end Heap

/-! ## Heaps with a history -/

/-- Something done to a heap: a new object, any change of the object that a handle
reaches, or a collection. -/
inductive HeapOp (κ : Type) where
  | alloc (object : Object κ)
  | mutate (handle : Handle) (f : Object κ → Object κ)
  | collect (roots : Roots)

namespace Heap

def apply (heap : Heap κ) : HeapOp κ → Heap κ
  | .alloc object => (heap.alloc object).2
  | .mutate handle f =>
    match heap.mutate handle f with
    | .ok heap' => heap'
    | .error _ => heap
  | .collect roots => (heap.collect roots).2

theorem apply_mutate (heap : Heap κ) (handle : Handle) (f : Object κ → Object κ) :
    heap.apply (.mutate handle f) = heap.modifyObject handle f := by
  rw [apply, mutate, get]
  cases hentry : heap.entry? handle with
  | some entry => rfl
  | none => exact (modifyObject_of_entry?_eq_none hentry f).symm

/-- The heap that a history of operations leads to from the empty one. -/
def replay (history : List (HeapOp κ)) : Heap κ := history.foldl apply {}

theorem WF.apply {heap : Heap κ} (h : heap.WF) (op : HeapOp κ) : (heap.apply op).WF := by
  cases op with
  | alloc object => exact h.alloc object
  | mutate handle f =>
    rw [apply_mutate]
    exact h.modifyObject handle f
  | collect roots => exact h.collect roots

/-- Every history leads to a well-formed heap. -/
theorem WF.replay (history : List (HeapOp κ)) : (replay history).WF := by
  have hrun : ∀ (history : List (HeapOp κ)) (heap : Heap κ), heap.WF →
      (history.foldl Heap.apply heap).WF := by
    intro history
    induction history with
    | nil => exact fun heap h => h
    | cons op history ih => exact fun heap h => ih _ (h.apply op)
  exact hrun history {} WF.empty

/-- **Exactness.** Whatever the history of a heap and whatever the roots, a
collection leaves live exactly the live handles that the roots reach, each with
the object it had and white again. Its report counts the objects reached as
marked and as live, and as freed those that were live before and are not now. -/
theorem collect_exact (history : List (HeapOp κ)) (roots : Roots) :
    let heap := replay history
    let report := (heap.collect roots).1
    let swept := (heap.collect roots).2
    (∀ handle, swept.isLive handle = true ↔
      heap.isLive handle = true ∧ heap.Reachable roots handle) ∧
    (∀ handle, swept.isLive handle = true → swept.get handle = heap.get handle) ∧
    (∀ handle entry, swept.entry? handle = some entry → entry.color = .white) ∧
    report.marked = {handle | heap.isLive handle = true ∧ heap.Reachable roots handle}.ncard ∧
    report.live = {handle | heap.isLive handle = true ∧ heap.Reachable roots handle}.ncard ∧
    report.freed + report.live = {handle | heap.isLive handle = true}.ncard := by
  intro heap report swept
  have hwf : heap.WF := WF.replay history
  obtain ⟨hmarked, hcount⟩ := hwf.marking roots
  have hlive := isLive_collect hwf roots
  have hset : {handle | swept.isLive handle = true} =
      {handle | heap.isLive handle = true ∧ heap.Reachable roots handle} := by
    ext handle
    exact hlive handle
  have hreport : report.live =
      {handle | heap.isLive handle = true ∧ heap.Reachable roots handle}.ncard := by
    rw [← hset, ncard_isLive]
    rfl
  refine ⟨hlive, ?_, ?_, ?_, hreport, ?_⟩
  · intro handle h
    exact get_collect_of_reachable hwf ((hlive handle).1 h).2
  · intro handle entry hentry
    exact (hwf.collect roots).white hentry
  · show (heap.marking roots).2 = _
    rw [hcount, Marking.blackCount]
    congr 1
    ext handle
    exact hmarked.eq_black_iff
  · rw [hreport, ncard_isLive_eq_add hmarked]
    exact congrArg (· + _) (length_unreached _)

end Heap

end ScriptMachine
