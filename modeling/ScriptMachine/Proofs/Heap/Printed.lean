import ScriptMachine.Value.Display

/-!
# Printing by recursion

`Heap.printed path value` is the text of a value by recursion on the value, inside of the
lists in `path`: those that are being printed where the value stands, the innermost first.
The writer has a stack of pieces and a set of open lists in place of the recursion. In each
of its states, what it still writes is determined by the pieces, each inside of the lists
that are open when its turn comes (`Heap.displayPieces_eq_pending`), and so it writes the
text of the recursion (`Heap.display_recursive`).
-/

namespace ScriptMachine

namespace Heap

variable {κ : Type}

/-- The text of a value inside of the lists in `path`. A list is cut short exactly where it
is one of those; where it occurs again beside itself it is printed again. -/
def printed (heap : Heap κ) (path : List Handle) : Value → String
  | .null => "null"
  | .bool value => if value then "true" else "false"
  | .number value => formatNumber value
  | .object handle =>
    match hget : heap.get handle with
    | .error _ => "<freed>"
    | .ok (.function f) => "<function " ++ f.name ++ ">"
    | .ok (.native n) => "<native " ++ n.name ++ ">"
    | .ok (.string text) => text
    | .ok (.list items) =>
      if hinside : handle ∈ path then "..."
      else
        have := unopened_cons_lt hget hinside
        "[" ++ ", ".intercalate (items.toList.map (heap.printed (handle :: path))) ++ "]"
termination_by heap.unopened path

section Objects

variable {heap : Heap κ} {path : List Handle} {handle : Handle}

theorem printed_of_stale {fault : HeapFault} (h : heap.get handle = .error fault) :
    heap.printed path (.object handle) = "<freed>" := by
  rw [printed]
  split <;> simp_all

theorem printed_function {f : Function} (h : heap.get handle = .ok (.function f)) :
    heap.printed path (.object handle) = "<function " ++ f.name ++ ">" := by
  rw [printed]
  split <;> simp_all

theorem printed_native {n : Native κ} (h : heap.get handle = .ok (.native n)) :
    heap.printed path (.object handle) = "<native " ++ n.name ++ ">" := by
  rw [printed]
  split <;> simp_all

theorem printed_string {text : String} (h : heap.get handle = .ok (.string text)) :
    heap.printed path (.object handle) = text := by
  rw [printed]
  split <;> simp_all

theorem printed_cut {items : Array Value} (h : heap.get handle = .ok (.list items))
    (hinside : handle ∈ path) : heap.printed path (.object handle) = "..." := by
  rw [printed]
  split <;> simp_all

theorem printed_list {items : Array Value} (h : heap.get handle = .ok (.list items))
    (houtside : handle ∉ path) :
    heap.printed path (.object handle) =
      "[" ++ ", ".intercalate (items.toList.map (heap.printed (handle :: path))) ++ "]" := by
  rw [printed]
  split <;> simp_all

end Objects

/-! ## What the writer has before it -/

/-- What a stack of pieces still stands for, inside of the lists in `opened`. Behind the end
of a list, that list is not open any more. -/
def pending (heap : Heap κ) (opened : List Handle) : List Piece → String
  | [] => ""
  | .text text :: work => text ++ heap.pending opened work
  | .value value :: work => heap.printed opened value ++ heap.pending opened work
  | .close list :: work => "]" ++ heap.pending (opened.erase list) work

variable {heap : Heap κ} {opened : List Handle}

theorem pending_itemPieces (items : List Value) (work : List Piece) :
    heap.pending opened (itemPieces items ++ work) =
      ", ".intercalate (items.map (heap.printed opened)) ++ heap.pending opened work := by
  unfold itemPieces
  induction items with
  | nil => simp
  | cons item items ih =>
    cases items with
    | nil => simp [pending]
    | cons next items =>
      simp only [List.map_cons, List.intersperse_cons_cons, List.cons_append, pending] at ih ⊢
      rw [ih, String.intercalate_cons_cons]
      simp only [String.append_assoc]

theorem printed_of_shown_text {value : Value} {text : String}
    (h : heap.shown opened value = .text text) : heap.printed opened value = text := by
  unfold shown at h
  split at h
  case h_4 handle =>
    split at h
    case h_1 hget => exact (printed_of_stale hget).trans (Shown.text.inj h)
    case h_2 f hget => exact (printed_function hget).trans (Shown.text.inj h)
    case h_3 n hget => exact (printed_native hget).trans (Shown.text.inj h)
    case h_4 text' hget => exact (printed_string hget).trans (Shown.text.inj h)
    case h_5 items hget =>
      split at h
      · next hinside => exact (printed_cut hget hinside).trans (Shown.text.inj h)
      · cases h
  all_goals
    rw [printed]
    exact Shown.text.inj h

theorem printed_of_shown_items {value : Value} {list : Handle} {items : Array Value}
    (h : heap.shown opened value = .items list items) :
    heap.printed opened value =
      "[" ++ ", ".intercalate (items.toList.map (heap.printed (list :: opened))) ++ "]" := by
  obtain ⟨rfl, hget, houtside⟩ := shown_eq_items h
  exact printed_list hget houtside

/-- Whatever pieces are on the stack and whatever lists are open, the writer goes on with what
is pending. -/
theorem displayPieces_eq_pending (heap : Heap κ) (out : String) (opened : List Handle)
    (work : List Piece) :
    heap.displayPieces out opened work = out ++ heap.pending opened work := by
  fun_induction displayPieces heap out opened work with
  | case1 => simp [pending]
  | case2 out opened text work ih => rw [ih, pending, String.append_assoc]
  | case3 out opened list work ih => rw [ih, pending, String.append_assoc]
  | case4 out opened value work text hshown _ ih =>
    rw [ih, pending, printed_of_shown_text hshown, String.append_assoc]
  | case5 out opened value work list items hshown _ ih =>
    -- The end of the list closes it again, so that the pieces below stand where they stood.
    rw [ih, pending_itemPieces, pending, pending, List.erase_cons_head,
      printed_of_shown_items hshown]
    simp only [String.append_assoc]

/-- **The writer prints what the recursion prints.** For every heap, also with shared lists,
cycles and stale handles, the text of a value is the one by recursion. -/
theorem display_recursive (heap : Heap κ) (value : Value) :
    heap.display value = heap.printed [] value := by
  rw [display, displayPieces_eq_pending, pending, pending, String.append_empty,
    String.empty_append]

end Heap

end ScriptMachine
