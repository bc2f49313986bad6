import ScriptMachine.Heap.Basic
import ScriptMachine.Number.Numeral

/-! # The text of a value

A list is written with its items between brackets. Lists can hold themselves:
an item that is a list already being written is cut short to `...`. A list that
merely occurs again is written again.

The writer keeps a stack of pieces still to be written, so that no recursion is
as deep as the nesting of a list, and the lists that it is inside of. A list is
opened when its items go onto the stack, with a piece behind them that closes it.
Since no list is opened inside itself, each value takes a bounded number of
steps (`Heap.displaySteps`), and the stack runs empty. -/

namespace ScriptMachine

/-- How a value is written inside of certain lists: as a text of its own, or
item by item. -/
inductive Shown where
  | text (text : String)
  | items (list : Handle) (items : Array Value)
  deriving Repr

/-- A part still to be written: a text, a value, or the end of a list. -/
inductive Piece where
  | text (text : String)
  | value (value : Value)
  | close (list : Handle)
  deriving Repr

/-- The items of a list, with commas between them. -/
def itemPieces (items : List Value) : List Piece :=
  (items.map Piece.value).intersperse (.text ", ")

namespace Heap

variable {κ : Type}

/-- How a value is written inside of the lists in `opened`. -/
def shown (heap : Heap κ) (opened : List Handle) : Value → Shown
  | .null => .text "null"
  | .bool value => .text (if value then "true" else "false")
  | .number value => .text (formatNumber value)
  | .object handle =>
    match heap.get handle with
    | .error _ => .text "<freed>"
    | .ok (.function f) => .text ("<function " ++ f.name ++ ">")
    | .ok (.native n) => .text ("<native " ++ n.name ++ ">")
    | .ok (.string text) => .text text
    | .ok (.list items) => if handle ∈ opened then .text "..." else .items handle items

/-! ## Bounding the steps -/

/-- The handle that reaches the object in a slot. -/
def handleAt (heap : Heap κ) (slot : Nat) : Handle := ⟨slot, heap.generationAt slot⟩

/-- How many slots have an object that is not among the lists in `opened`. -/
def unopened (heap : Heap κ) (opened : List Handle) : Nat :=
  (List.range heap.slots.size).countP fun slot => heap.handleAt slot ∉ opened

theorem countP_lt_countP {p q : α → Bool} {l : List α} (le : ∀ x ∈ l, p x → q x) {a : α}
    (mem : a ∈ l) (hp : p a = false) (hq : q a = true) : l.countP p < l.countP q := by
  induction l with
  | nil => simp at mem
  | cons x xs ih =>
    have tail : xs.countP p ≤ xs.countP q :=
      List.countP_mono_left fun y hy => le y (List.mem_cons_of_mem _ hy)
    rcases List.mem_cons.1 mem with rfl | mem
    · simp only [List.countP_cons, hp, hq]
      simp
      omega
    · have := ih (fun y hy => le y (List.mem_cons_of_mem _ hy)) mem
      have head := le x List.mem_cons_self
      simp only [List.countP_cons]
      cases hx : p x <;> simp_all
      omega

theorem shown_eq_items {heap : Heap κ} {opened : List Handle} {value : Value} {list : Handle}
    {items : Array Value} (h : heap.shown opened value = .items list items) :
    value = .object list ∧ heap.get list = .ok (.list items) ∧ list ∉ opened := by
  unfold shown at h
  split at h
  case h_4 =>
    split at h
    case h_5 =>
      split at h
      · cases h
      · next hget houtside =>
        cases h
        exact ⟨rfl, hget, houtside⟩
    all_goals cases h
  all_goals cases h

/-- A handle that reaches an object is the one that reaches the object in its slot. -/
theorem eq_handleAt_of_get {heap : Heap κ} {handle : Handle} {object : Object κ}
    (h : heap.get handle = .ok object) :
    handle.index < heap.slots.size ∧ handle = heap.handleAt handle.index := by
  obtain ⟨index, generation⟩ := handle
  unfold get entry? at h
  unfold handleAt generationAt
  cases hslot : heap.slots[index]? with
  | none => simp [hslot] at h
  | some slot =>
    obtain ⟨hlt, -⟩ := Array.getElem?_eq_some_iff.1 hslot
    by_cases hgeneration : slot.generation = generation
    · exact ⟨hlt, by rw [← hgeneration]⟩
    · simp [hslot, hgeneration] at h

/-- Opening a list leaves fewer to be opened. -/
theorem unopened_cons_lt {heap : Heap κ} {opened : List Handle} {list : Handle}
    {items : Array Value} (hget : heap.get list = .ok (.list items)) (houtside : list ∉ opened) :
    heap.unopened (list :: opened) < heap.unopened opened := by
  obtain ⟨hlt, hself⟩ := eq_handleAt_of_get hget
  refine countP_lt_countP (fun slot _ hhidden => ?_) (List.mem_range.2 hlt) ?_ ?_
  · simp only [List.mem_cons, not_or, decide_eq_true_eq] at hhidden ⊢
    exact hhidden.2
  · simp [← hself]
  · simp [← hself, houtside]

theorem unopened_lt {heap : Heap κ} {opened : List Handle} {value : Value} {list : Handle}
    {items : Array Value} (h : heap.shown opened value = .items list items) :
    heap.unopened (list :: opened) < heap.unopened opened := by
  obtain ⟨-, hget, houtside⟩ := shown_eq_items h
  exact unopened_cons_lt hget houtside

/-- How many steps it takes to write a value inside of the lists in `opened`. -/
def displaySteps (heap : Heap κ) (opened : List Handle) (value : Value) : Nat :=
  match h : heap.shown opened value with
  | .text _ => 1
  | .items list items =>
    have := unopened_lt h
    2 + items.toList.foldr (fun item n => heap.displaySteps (list :: opened) item + 1 + n) 0
termination_by heap.unopened opened

section Steps

variable {heap : Heap κ} {opened : List Handle}

theorem displaySteps_of_text {value : Value} {text : String}
    (h : heap.shown opened value = .text text) : heap.displaySteps opened value = 1 := by
  rw [displaySteps]
  split
  · rfl
  · simp_all

theorem displaySteps_of_items {value : Value} {list : Handle} {items : Array Value}
    (h : heap.shown opened value = .items list items) :
    heap.displaySteps opened value =
      2 + items.toList.foldr (fun item n => heap.displaySteps (list :: opened) item + 1 + n) 0 := by
  rw [displaySteps]
  split
  · simp_all
  · next h' =>
    cases h.symm.trans h'
    rfl

/-- How many steps it takes to write the pieces of a stack, inside of the lists in
`opened`. -/
def workSteps (heap : Heap κ) (opened : List Handle) : List Piece → Nat
  | [] => 0
  | .text _ :: work => 1 + heap.workSteps opened work
  | .value value :: work => heap.displaySteps opened value + heap.workSteps opened work
  | .close list :: work => 1 + heap.workSteps (opened.erase list) work

theorem workSteps_itemPieces_le (heap : Heap κ) (opened : List Handle) (items : List Value)
    (work : List Piece) :
    heap.workSteps opened (itemPieces items ++ work) ≤
      items.foldr (fun item n => heap.displaySteps opened item + 1 + n) 0 +
        heap.workSteps opened work := by
  unfold itemPieces
  induction items with
  | nil => simp
  | cons item items ih =>
    cases items with
    | nil => simp [workSteps]
    | cons next items =>
      simp only [List.map_cons, List.intersperse_cons_cons, List.cons_append, workSteps,
        List.foldr_cons] at *
      omega

/-- The items of a list and its end take fewer steps than the list. -/
theorem workSteps_open_lt {value : Value} {list : Handle} {items : Array Value}
    (h : heap.shown opened value = .items list items) (work : List Piece) :
    heap.workSteps (list :: opened) (itemPieces items.toList ++ .close list :: work) <
      heap.workSteps opened (.value value :: work) := by
  have hitems := heap.workSteps_itemPieces_le (list :: opened) items.toList
    (.close list :: work)
  simp only [workSteps, List.erase_cons_head, displaySteps_of_items h] at hitems ⊢
  omega

end Steps

/-! ## Writing -/

/-- Writes the pieces of a stack behind the text `out`, inside of the lists in
`opened`. -/
def displayPieces (heap : Heap κ) (out : String) (opened : List Handle) (work : List Piece) :
    String :=
  match work with
  | [] => out
  | .text text :: work => heap.displayPieces (out ++ text) opened work
  | .close list :: work => heap.displayPieces (out ++ "]") (opened.erase list) work
  | .value value :: work =>
    match h : heap.shown opened value with
    | .text text =>
      have := displaySteps_of_text h
      heap.displayPieces (out ++ text) opened work
    | .items list items =>
      have := workSteps_open_lt h work
      heap.displayPieces (out ++ "[") (list :: opened)
        (itemPieces items.toList ++ .close list :: work)
termination_by heap.workSteps opened work
decreasing_by
  · simp [workSteps]
  · simp [workSteps]
  · simp [workSteps, *]
  · exact this

/-- The text of a value. -/
def display (heap : Heap κ) (value : Value) : String := heap.displayPieces "" [] [.value value]

end Heap

end ScriptMachine
