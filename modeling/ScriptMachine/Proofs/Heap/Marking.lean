import ScriptMachine.Proofs.Heap.Slab

/-!
# Marking is reachability

The colors after marking: an object is black if it can be reached from the
roots, and white if not (`Marking.colorIn_run_eq_black`,
`Marking.colorIn_run_ne_gray`), whatever cycles, repeated roots and stale
handles there are. The invariant of the worklist has two halves. `Tracks` says
that only reachable objects have been colored, and that the list of gray handles
is faithful. `Follows` says that what a handle refers to has been colored too;
every black handle has it, and the roots are colored from the start.
-/

namespace ScriptMachine

variable {κ : Type}

/-- The objects that can be reached from the roots through the items of lists and
the constants of functions. -/
inductive Heap.Reachable (heap : Heap κ) (roots : Roots) : Handle → Prop
  | root {handle : Handle} (h : handle ∈ roots.handles) : Reachable heap roots handle
  | child {handle child : Handle} {object : Object κ} (h : Reachable heap roots handle)
      (hget : heap.get handle = .ok object) (hchild : child ∈ object.children) :
      Reachable heap roots child

/-- The color of the object that a handle reaches. -/
def colorIn (slots : Array (Slot κ)) (handle : Handle) : Option Color :=
  (entryIn slots handle).map Entry.color

/-! ## Changes of color -/

theorem entryIn_set_recolor {slots : Array (Slot κ)} {handle : Handle}
    (hindex : handle.index < slots.size)
    (hgen : slots[handle.index].generation = handle.generation) (color : Color)
    (other : Handle) :
    entryIn (slots.set handle.index (slots[handle.index].recolor color)) other =
      (entryIn slots other).map fun entry =>
        if other = handle then { entry with color } else entry := by
  obtain ⟨index, generation⟩ := handle
  obtain ⟨index', generation'⟩ := other
  simp only [entryIn, Handle.mk.injEq]
  simp only at hindex hgen
  by_cases hsame : index' = index
  · subst hsame
    rw [Array.getElem?_set_self, Array.getElem?_eq_getElem hindex]
    subst hgen
    unfold Slot.recolor
    cases hentry : slots[index'].entry with
    | none => simp [hentry]
    | some entry => by_cases hgen' : slots[index'].generation = generation' <;> simp [hentry, hgen']
  · rw [Array.getElem?_set_ne _ (Ne.symm hsame)]
    simp [hsame]

/-- Recoloring changes colors only. -/
theorem map_recolor_set {slots : Array (Slot κ)} {index : Nat} (hindex : index < slots.size)
    (color : Color) :
    (slots.set index (slots[index].recolor color)).map (·.recolor .white) =
      slots.map (·.recolor .white) := by
  ext1
  · simp
  · next i hi hi' =>
    rw [Array.getElem_map, Array.getElem_map, Array.getElem_set]
    split
    · next heq =>
      subst heq
      unfold Slot.recolor
      cases hentry : slots[index].entry <;> simp [hentry]
    · rfl

namespace Marking

/-- A handle that reaches no white object is not shaded. -/
theorem shade_of_ne_white {m : Marking κ} {handle : Handle}
    (h : colorIn m.slots handle ≠ some .white) : m.shade handle = m := by
  unfold shade
  split
  · next hindex =>
    dsimp only
    rw [if_neg]
    intro hcond
    simp only [Bool.and_eq_true, decide_eq_true_eq] at hcond
    apply h
    unfold colorIn entryIn
    rw [Array.getElem?_eq_getElem hindex]
    simp only [hcond.1, if_true]
    have hwhite := hcond.2
    unfold Slot.isWhite at hwhite
    cases hentry : m.slots[handle.index].entry with
    | none => simp [hentry] at hwhite
    | some entry => simpa [hentry] using hwhite
  · rfl

/-- The slot of a handle that reaches an object. -/
theorem slot_of_colorIn {slots : Array (Slot κ)} {handle : Handle} {color : Color}
    (h : colorIn slots handle = some color) :
    ∃ hindex : handle.index < slots.size,
      slots[handle.index].generation = handle.generation ∧
        ∃ object, slots[handle.index].entry = some ⟨color, object⟩ := by
  obtain ⟨entry, hentry, rfl⟩ := Option.map_eq_some_iff.1 h
  obtain ⟨hindex, hslot⟩ := Array.getElem?_eq_some_iff.1 (entryIn_eq_some.1 hentry)
  exact ⟨hindex, by rw [hslot], entry.object, by rw [hslot]⟩

/-- A handle that reaches a white object is shaded: the object turns gray. -/
theorem shade_of_white {m : Marking κ} {handle : Handle}
    (h : colorIn m.slots handle = some .white) :
    ∃ hindex : handle.index < m.slots.size,
      m.slots[handle.index].generation = handle.generation ∧
        m.shade handle = ⟨m.slots.set handle.index (m.slots[handle.index].recolor .gray),
          handle :: m.gray⟩ := by
  obtain ⟨hindex, hgen, object, hentry⟩ := slot_of_colorIn h
  refine ⟨hindex, hgen, ?_⟩
  unfold shade
  rw [dif_pos hindex]
  dsimp only
  rw [if_pos]
  simp [hgen, Slot.isWhite, hentry]

theorem colorIn_shade (m : Marking κ) (handle other : Handle) :
    colorIn (m.shade handle).slots other =
      if other = handle ∧ colorIn m.slots handle = some .white then some .gray
      else colorIn m.slots other := by
  by_cases hwhite : colorIn m.slots handle = some .white
  · obtain ⟨hindex, hgen, hshade⟩ := shade_of_white hwhite
    rw [hshade]
    unfold colorIn
    rw [entryIn_set_recolor hindex hgen]
    by_cases hother : other = handle
    · subst hother
      obtain ⟨entry, hentry, -⟩ := Option.map_eq_some_iff.1 hwhite
      simp [hentry, show entry.color = .white by simpa [colorIn, hentry] using hwhite]
    · simp [hother]
  · rw [shade_of_ne_white hwhite]
    simp [hwhite]

theorem gray_shade (m : Marking κ) (handle : Handle) :
    (m.shade handle).gray =
      if colorIn m.slots handle = some .white then handle :: m.gray else m.gray := by
  by_cases hwhite : colorIn m.slots handle = some .white
  · obtain ⟨hindex, hgen, hshade⟩ := shade_of_white hwhite
    rw [hshade, if_pos hwhite]
  · rw [shade_of_ne_white hwhite, if_neg hwhite]

theorem whitened_shade (m : Marking κ) (handle : Handle) :
    (m.shade handle).slots.map (·.recolor .white) = m.slots.map (·.recolor .white) := by
  by_cases hwhite : colorIn m.slots handle = some .white
  · obtain ⟨hindex, hgen, hshade⟩ := shade_of_white hwhite
    rw [hshade]
    exact map_recolor_set hindex .gray
  · rw [shade_of_ne_white hwhite]

/-- Shading makes nothing white. -/
theorem colorIn_shade_ne_white {m : Marking κ} {other : Handle}
    (h : colorIn m.slots other ≠ some .white) (handle : Handle) :
    colorIn (m.shade handle).slots other ≠ some .white := by
  rw [colorIn_shade]
  split
  · simp
  · exact h

/-- Shading neither adds nor takes a black object. -/
theorem colorIn_shade_eq_black (m : Marking κ) (handle other : Handle) :
    colorIn (m.shade handle).slots other = some .black ↔
      colorIn m.slots other = some .black := by
  rw [colorIn_shade]
  split
  · next h =>
    rw [h.1, h.2]
    simp
  · rfl

/-! ## Shading several handles -/

theorem colorIn_foldl_shade_ne_white {m : Marking κ} {other : Handle}
    (h : colorIn m.slots other ≠ some .white) (handles : List Handle) :
    colorIn (handles.foldl shade m).slots other ≠ some .white := by
  induction handles generalizing m with
  | nil => exact h
  | cons handle handles ih => exact ih (colorIn_shade_ne_white h handle)

/-- What has been shaded is not white. -/
theorem colorIn_foldl_shade_of_mem {handles : List Handle} {handle : Handle}
    (h : handle ∈ handles) (m : Marking κ) :
    colorIn (handles.foldl shade m).slots handle ≠ some .white := by
  induction handles generalizing m with
  | nil => cases h
  | cons first handles ih =>
    rcases List.mem_cons.1 h with rfl | h
    · refine colorIn_foldl_shade_ne_white ?_ handles
      rw [colorIn_shade]
      split
      · simp
      · next hne => exact fun hwhite => hne ⟨rfl, hwhite⟩
    · exact ih h (m.shade first)

theorem colorIn_foldl_shade_eq_black (handles : List Handle) (m : Marking κ) (other : Handle) :
    colorIn (handles.foldl shade m).slots other = some .black ↔
      colorIn m.slots other = some .black := by
  induction handles generalizing m with
  | nil => rfl
  | cons handle handles ih =>
    exact (ih (m.shade handle)).trans (colorIn_shade_eq_black m handle other)

/-! ## The invariant of the worklist -/

/-- The colored slots hold the objects of the heap, the gray list holds each gray
handle once, and only reachable objects have been colored. -/
structure Tracks (heap : Heap κ) (roots : Roots) (m : Marking κ) : Prop where
  whitened : m.slots.map (·.recolor .white) = heap.slots
  mem_gray_iff : ∀ {handle}, handle ∈ m.gray ↔ colorIn m.slots handle = some .gray
  gray_nodup : m.gray.Nodup
  reachable : ∀ {handle color}, colorIn m.slots handle = some color → color ≠ .white →
    heap.Reachable roots handle

/-- All that a handle refers to has been colored. -/
def Follows (heap : Heap κ) (m : Marking κ) (handle : Handle) : Prop :=
  ∀ {object}, heap.get handle = .ok object → ∀ child ∈ object.children,
    colorIn m.slots child ≠ some .white

namespace Tracks

variable {heap : Heap κ} {roots : Roots} {m : Marking κ}

/-- Coloring leaves each handle the object it reaches. -/
theorem entry?_eq (h : Tracks heap roots m) (handle : Handle) :
    heap.entry? handle = (entryIn m.slots handle).map fun entry =>
      { entry with color := .white } := by
  rw [Heap.entry?_eq, ← h.whitened]
  unfold entryIn
  rw [Array.getElem?_map]
  cases hslot : m.slots[handle.index]? with
  | none => rfl
  | some slot =>
    obtain ⟨generation, held⟩ := slot
    cases held with
    | none => simp [Slot.recolor]
    | some entry => by_cases hgen : generation = handle.generation <;> simp [Slot.recolor, hgen]

/-- A handle is colored in the marking exactly if it is live. -/
theorem isLive_iff (h : Tracks heap roots m) {handle : Handle} :
    heap.isLive handle = true ↔ ∃ color, colorIn m.slots handle = some color := by
  unfold Heap.isLive colorIn
  rw [h.entry?_eq]
  cases entryIn m.slots handle <;> simp

/-- Shading a reachable handle keeps the invariant. -/
theorem shade (h : Tracks heap roots m) {handle : Handle} (hreach : heap.Reachable roots handle) :
    Tracks heap roots (m.shade handle) := by
  refine ⟨(whitened_shade m handle).trans h.whitened, ?_, ?_, ?_⟩
  · intro other
    rw [gray_shade, colorIn_shade]
    by_cases hwhite : colorIn m.slots handle = some .white
    · by_cases hother : other = handle
      · simp [hother, hwhite]
      · simp [hother, hwhite, h.mem_gray_iff]
    · simp [hwhite, h.mem_gray_iff]
  · rw [gray_shade]
    split
    · next hwhite =>
      refine List.nodup_cons.2 ⟨fun hmem => ?_, h.gray_nodup⟩
      rw [h.mem_gray_iff, hwhite] at hmem
      cases hmem
    · exact h.gray_nodup
  · intro other color hcolor hne
    rw [colorIn_shade] at hcolor
    split at hcolor
    · next heq =>
      rw [heq.1]
      exact hreach
    · exact h.reachable hcolor hne

theorem foldl_shade (h : Tracks heap roots m) {handles : List Handle}
    (hreach : ∀ handle ∈ handles, heap.Reachable roots handle) :
    Tracks heap roots (handles.foldl Marking.shade m) := by
  induction handles generalizing m with
  | nil => exact h
  | cons handle handles ih =>
    exact ih (h.shade (hreach handle List.mem_cons_self))
      fun other hother => hreach other (List.mem_cons_of_mem _ hother)

end Tracks

/-! ## One step of the worklist -/

/-- Blackening a gray handle turns it black and shades what it refers to. -/
theorem blacken_eq {heap : Heap κ} {roots : Roots} {slots : Array (Slot κ)} {handle : Handle}
    {gray : List Handle} (h : Tracks heap roots ⟨slots, handle :: gray⟩) :
    ∃ (hindex : handle.index < slots.size) (object : Object κ),
      slots[handle.index].generation = handle.generation ∧ heap.get handle = .ok object ∧
        blacken ⟨slots, gray⟩ handle = object.children.foldl Marking.shade
          ⟨slots.set handle.index (slots[handle.index].recolor .black), gray⟩ := by
  have hgray : colorIn slots handle = some .gray := h.mem_gray_iff.1 List.mem_cons_self
  obtain ⟨hindex, hgen, object, hentry⟩ := slot_of_colorIn hgray
  refine ⟨hindex, object, hgen, ?_, ?_⟩
  · refine Heap.get_eq_ok.2 ⟨.white, ?_⟩
    rw [h.entry?_eq]
    simp [entryIn, Array.getElem?_eq_getElem hindex, hgen, hentry]
  · unfold blacken
    rw [dif_pos hindex]
    simp [hentry, hgen]

theorem colorIn_set_black {slots : Array (Slot κ)} {handle : Handle}
    (hindex : handle.index < slots.size)
    (hgen : slots[handle.index].generation = handle.generation)
    (hgray : colorIn slots handle = some .gray) (other : Handle) :
    colorIn (slots.set handle.index (slots[handle.index].recolor .black)) other =
      if other = handle then some .black else colorIn slots other := by
  unfold colorIn
  rw [entryIn_set_recolor hindex hgen]
  by_cases hother : other = handle
  · subst hother
    obtain ⟨entry, hentry, -⟩ := Option.map_eq_some_iff.1 hgray
    simp [hentry]
  · simp [hother]

section Step

variable {heap : Heap κ} {roots : Roots} {slots : Array (Slot κ)} {handle : Handle}
  {gray : List Handle} (h : Tracks heap roots ⟨slots, handle :: gray⟩)

include h

theorem Tracks.blacken : Tracks heap roots (blacken ⟨slots, gray⟩ handle) := by
  obtain ⟨hindex, object, hgen, hget, heq⟩ := blacken_eq h
  have hgray : colorIn slots handle = some .gray := h.mem_gray_iff.1 List.mem_cons_self
  have hreach : heap.Reachable roots handle := h.reachable hgray (by decide)
  have hnodup := List.nodup_cons.1 h.gray_nodup
  rw [heq]
  refine Tracks.foldl_shade ⟨?_, ?_, hnodup.2, ?_⟩ fun child hchild => hreach.child hget hchild
  · exact (map_recolor_set hindex .black).trans h.whitened
  · intro other
    rw [colorIn_set_black hindex hgen hgray]
    by_cases hother : other = handle
    · subst hother
      simp [hnodup.1]
    · have hmem : other ∈ handle :: gray ↔ _ := h.mem_gray_iff
      simp only [List.mem_cons, hother, false_or] at hmem
      simp [hother, hmem]
  · intro other color hcolor hne
    rw [colorIn_set_black hindex hgen hgray] at hcolor
    split at hcolor
    · next heq =>
      rw [heq]
      exact hreach
    · exact h.reachable hcolor hne

/-- Blackening makes nothing white. -/
theorem colorIn_blacken_ne_white {other : Handle} (hother : colorIn slots other ≠ some .white) :
    colorIn (Marking.blacken ⟨slots, gray⟩ handle).slots other ≠ some .white := by
  obtain ⟨hindex, object, hgen, -, heq⟩ := blacken_eq h
  rw [heq]
  refine colorIn_foldl_shade_ne_white ?_ _
  rw [colorIn_set_black hindex hgen (h.mem_gray_iff.1 List.mem_cons_self)]
  split
  · simp
  · exact hother

/-- Blackening adds one black object. -/
theorem colorIn_blacken_eq_black (other : Handle) :
    colorIn (Marking.blacken ⟨slots, gray⟩ handle).slots other = some .black ↔
      other = handle ∨ colorIn slots other = some .black := by
  obtain ⟨hindex, object, hgen, -, heq⟩ := blacken_eq h
  rw [heq, colorIn_foldl_shade_eq_black,
    colorIn_set_black hindex hgen (h.mem_gray_iff.1 List.mem_cons_self)]
  by_cases hother : other = handle <;> simp [hother]

/-- What a blackened handle refers to is colored. -/
theorem follows_blacken : Follows heap (Marking.blacken ⟨slots, gray⟩ handle) handle := by
  obtain ⟨hindex, object, hgen, hget, heq⟩ := blacken_eq h
  intro found hfound child hchild
  rw [hget] at hfound
  cases hfound
  rw [heq]
  exact colorIn_foldl_shade_of_mem hchild _

end Step

/-! ## Running the worklist to its end -/

/-- What the slots look like when no gray object is left. -/
structure Marked (heap : Heap κ) (roots : Roots) (slots : Array (Slot κ)) : Prop where
  tracks : Tracks heap roots ⟨slots, []⟩
  follows : ∀ {handle}, colorIn slots handle = some .black → Follows heap ⟨slots, []⟩ handle
  colored : ∀ {handle}, handle ∈ roots.handles → colorIn slots handle ≠ some .white

/-- The number of black objects. -/
noncomputable def blackCount (slots : Array (Slot κ)) : Nat :=
  {handle | colorIn slots handle = some .black}.ncard

theorem setOf_colorIn (slots : Array (Slot κ)) (color : Color) :
    {handle | colorIn slots handle = some color} =
      {handle | (entryIn slots handle).any (fun entry => entry.color = color) = true} := by
  ext handle
  simp only [colorIn, Set.mem_ofPred_eq]
  cases entryIn slots handle <;> simp

/-- The worklist runs to a state without gray objects in which all black ones are
followed, and counts the objects that turn black. -/
theorem run_marked {heap : Heap κ} {roots : Roots} (m : Marking κ) (marked : Nat)
    (h : Tracks heap roots m)
    (hfollows : ∀ {handle}, colorIn m.slots handle = some .black → Follows heap m handle)
    (hroots : ∀ {handle}, handle ∈ roots.handles → colorIn m.slots handle ≠ some .white)
    (hcount : marked = blackCount m.slots) :
    Marked heap roots (m.run marked).1 ∧ (m.run marked).2 = blackCount (m.run marked).1 := by
  fun_induction run m marked with
  | case1 marked slots => exact ⟨⟨h, fun hblack => hfollows hblack, hroots⟩, hcount⟩
  | case2 marked slots handle gray ih =>
    refine ih h.blacken ?_ ?_ ?_
    · intro other hblack
      rcases (colorIn_blacken_eq_black h other).1 hblack with rfl | hold
      · exact follows_blacken h
      · intro object hget child hchild
        exact colorIn_blacken_ne_white h (hfollows hold hget child hchild)
    · intro other hother
      exact colorIn_blacken_ne_white h (hroots hother)
    · have hgray : colorIn slots handle = some .gray := h.mem_gray_iff.1 List.mem_cons_self
      have hset : {other | colorIn (blacken ⟨slots, gray⟩ handle).slots other = some .black} =
          insert handle {other | colorIn slots other = some .black} := by
        ext other
        simpa using colorIn_blacken_eq_black h other
      have hfinite : {other | colorIn slots other = some .black}.Finite := by
        rw [setOf_colorIn]
        exact finite_entryIn slots _
      unfold blackCount at hcount ⊢
      rw [hset, Set.ncard_insert_of_notMem (by simp [hgray]) hfinite, hcount]

namespace Marked

variable {heap : Heap κ} {roots : Roots} {slots : Array (Slot κ)}

theorem ne_gray (h : Marked heap roots slots) (handle : Handle) :
    colorIn slots handle ≠ some .gray := by
  intro hgray
  have hmem := h.tracks.mem_gray_iff.2 hgray
  cases hmem

/-- Nothing that can be reached stays white. -/
theorem ne_white_of_reachable (h : Marked heap roots slots) {handle : Handle}
    (hreach : heap.Reachable roots handle) : colorIn slots handle ≠ some .white := by
  induction hreach with
  | root hroot => exact h.colored hroot
  | @child handle child object _ hget hchild ih =>
    have hlive : heap.isLive handle = true := Heap.isLive_iff.2 ⟨object, hget⟩
    obtain ⟨color, hcolor⟩ := h.tracks.isLive_iff.1 hlive
    cases color with
    | white => exact absurd hcolor ih
    | gray => exact absurd hcolor (h.ne_gray handle)
    | black => exact h.follows hcolor hget child hchild

/-- The black objects are the live ones that can be reached. -/
theorem eq_black_iff (h : Marked heap roots slots) {handle : Handle} :
    colorIn slots handle = some .black ↔
      heap.isLive handle = true ∧ heap.Reachable roots handle := by
  constructor
  · intro hblack
    exact ⟨h.tracks.isLive_iff.2 ⟨_, hblack⟩, h.tracks.reachable hblack (by decide)⟩
  · rintro ⟨hlive, hreach⟩
    obtain ⟨color, hcolor⟩ := h.tracks.isLive_iff.1 hlive
    cases color with
    | white => exact absurd hcolor (h.ne_white_of_reachable hreach)
    | gray => exact absurd hcolor (h.ne_gray handle)
    | black => exact hcolor

end Marked

end Marking

end ScriptMachine
