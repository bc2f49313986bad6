import ScriptMachine.Heap.Basic

/-! # Garbage collection

Mark and sweep with three colors. The roots turn gray; as long as there is a
gray object, it turns black and the white ones it refers to turn gray; what is
white in the end is freed and the rest turns white again. Stale handles lead
nowhere.

Marking ends because every step takes one object off the list of gray ones, and
puts there only objects that were white (`Marking.weight`). -/

namespace ScriptMachine

/-- What a collection starts from. -/
structure Roots where
  stack : Array Value := #[]
  globals : Array Value := #[]
  frames : List Handle := []
  pinned : List Value := []
  deriving Repr, Inhabited

/-- The objects that the roots refer to. -/
def Roots.handles (roots : Roots) : List Handle :=
  roots.stack.toList.filterMap Value.handle? ++ roots.globals.toList.filterMap Value.handle? ++
    roots.pinned.filterMap Value.handle? ++ roots.frames

/-- The figures of one collection. -/
structure CollectReport where
  marked : Nat
  freed : Nat
  live : Nat
  deriving DecidableEq, Repr, Inhabited

namespace Slot

variable {κ : Type}

/-- The slot with its object, if it has one, in another color. -/
def recolor (slot : Slot κ) (color : Color) : Slot κ :=
  match slot.entry with
  | some entry => { slot with entry := some { entry with color } }
  | none => slot

/-- Whether the slot holds a white object. -/
def isWhite (slot : Slot κ) : Bool :=
  match slot.entry with
  | some entry => entry.color = .white
  | none => false

/-- Whether the slot holds an object. -/
def isOccupied (slot : Slot κ) : Bool := slot.entry.isSome

/-- Frees a white object, which ends its generation, and turns any other
white. -/
def sweep (slot : Slot κ) : Slot κ :=
  if slot.isWhite then ⟨slot.generation + 1, none⟩ else slot.recolor .white

end Slot

/-! ## Marking -/

/-- Slots whose objects are being colored, and the gray objects whose references
are still to be followed. -/
structure Marking (κ : Type) where
  slots : Array (Slot κ)
  gray : List Handle

namespace Marking

variable {κ : Type}

/-- Turns the object of a handle gray if it is white. -/
def shade (m : Marking κ) (handle : Handle) : Marking κ :=
  if h : handle.index < m.slots.size then
    let slot := m.slots[handle.index]
    if slot.generation = handle.generation && slot.isWhite then
      ⟨m.slots.set handle.index (slot.recolor .gray), handle :: m.gray⟩
    else m
  else m

/-- Turns the object of a handle black and the white ones it refers to gray. -/
def blacken (m : Marking κ) (handle : Handle) : Marking κ :=
  if h : handle.index < m.slots.size then
    let slot := m.slots[handle.index]
    match slot.entry with
    | some entry =>
      if slot.generation = handle.generation then
        entry.object.children.foldl shade
          ⟨m.slots.set handle.index (slot.recolor .black), m.gray⟩
      else m
    | none => m
  else m

/-- How much is left to do: twice the white objects and once the gray ones. -/
def weight (m : Marking κ) : Nat := 2 * m.slots.countP Slot.isWhite + m.gray.length

@[simp] theorem isWhite_recolor {slot : Slot κ} {color : Color} (h : color ≠ .white) :
    (slot.recolor color).isWhite = false := by
  unfold Slot.recolor Slot.isWhite
  cases he : slot.entry <;> simp [h, he]

theorem weight_shade_le (m : Marking κ) (handle : Handle) : (m.shade handle).weight ≤ m.weight := by
  unfold shade
  split
  · rename_i inside
    dsimp only
    split
    · rename_i shaded
      simp only [Bool.and_eq_true] at shaded
      have pos : 0 < m.slots.countP Slot.isWhite :=
        Array.countP_pos_iff.2 ⟨_, Array.getElem_mem inside, shaded.2⟩
      simp only [weight, Array.countP_set, shaded.2,
        isWhite_recolor (by decide : Color.gray ≠ .white), Bool.false_eq_true, if_true,
        if_false, List.length_cons]
      omega
    · exact Nat.le_refl _
  · exact Nat.le_refl _

theorem weight_foldl_shade_le (handles : List Handle) (m : Marking κ) :
    (handles.foldl shade m).weight ≤ m.weight := by
  induction handles generalizing m with
  | nil => exact Nat.le_refl _
  | cons handle handles ih => exact Nat.le_trans (ih _) (weight_shade_le m handle)

theorem weight_blacken_le (m : Marking κ) (handle : Handle) :
    (m.blacken handle).weight ≤ m.weight := by
  unfold blacken
  split
  · rename_i inside
    dsimp only
    split
    · split
      · refine Nat.le_trans (weight_foldl_shade_le _ _) ?_
        simp only [weight, Array.countP_set, isWhite_recolor (by decide : Color.black ≠ .white),
          Bool.false_eq_true, if_false]
        omega
      · exact Nat.le_refl _
    · exact Nat.le_refl _
  · exact Nat.le_refl _

/-- Follows the references of all gray objects. The result is the colored slots
and how many objects turned black. -/
def run (m : Marking κ) (marked : Nat) : Array (Slot κ) × Nat :=
  match m with
  | ⟨slots, []⟩ => (slots, marked)
  | ⟨slots, handle :: gray⟩ => run (blacken ⟨slots, gray⟩ handle) (marked + 1)
termination_by m.weight
decreasing_by
  refine Nat.lt_of_le_of_lt (weight_blacken_le _ _) ?_
  simp [weight]

end Marking

/-! ## Collecting -/

namespace Heap

variable {κ : Type}

/-- The slots in which marking left a white object, in order. -/
def unreached (slots : Array (Slot κ)) : List Nat :=
  (List.range slots.size).filter fun index =>
    match slots[index]? with
    | some slot => slot.isWhite
    | none => false

/-- Frees what the roots do not reach. -/
def collect (heap : Heap κ) (roots : Roots) : CollectReport × Heap κ :=
  let (slots, marked) := (roots.handles.foldl Marking.shade ⟨heap.slots, []⟩).run 0
  let freed := unreached slots
  let swept := slots.map Slot.sweep
  let live := swept.countP Slot.isOccupied
  (⟨marked, freed.length, live⟩,
    { slots := swept
      free := heap.free ++ freed
      stats := { heap.stats with
        live
        collections := heap.stats.collections + 1
        lastFreed := freed.length
        lastLive := live } })

end Heap

end ScriptMachine
