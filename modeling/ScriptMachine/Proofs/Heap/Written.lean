import ScriptMachine.Proofs.Codegen.Liveness
import ScriptMachine.Proofs.Heap.Printed

/-!
# How values are written

`Heap.Written path v text` says that `text` is the text of the value `v` inside of
the lists in `path`: the rules follow the value, with no stack of pieces, and there
is no rule for an object that is no longer on the heap. Where nothing dangles,
every value has a text by these rules, and it is the one that is displayed
(`Heap.Closed.written_display`).
-/

namespace ScriptMachine

namespace Heap

variable {κ : Type}

mutual

/-- The text of a value inside of the lists whose slots are in `path`. -/
inductive Written (heap : Heap κ) : List Nat → Value → String → Prop
  | null {path : List Nat} : Written heap path .null "null"
  | bool {path : List Nat} (value : Bool) :
      Written heap path (.bool value) (if value then "true" else "false")
  | number {path : List Nat} (value : Float) :
      Written heap path (.number value) (formatNumber value)
  | function {path : List Nat} {handle : Handle} {f : Function}
      (hget : heap.get handle = .ok (.function f)) :
      Written heap path (.object handle) ("<function " ++ f.name ++ ">")
  | native {path : List Nat} {handle : Handle} {n : Native κ}
      (hget : heap.get handle = .ok (.native n)) :
      Written heap path (.object handle) ("<native " ++ n.name ++ ">")
  | string {path : List Nat} {handle : Handle} {text : String}
      (hget : heap.get handle = .ok (.string text)) : Written heap path (.object handle) text
  | cut {path : List Nat} {handle : Handle} {items : Array Value}
      (hget : heap.get handle = .ok (.list items)) (hinside : handle.index ∈ path) :
      Written heap path (.object handle) "..."
  | list {path : List Nat} {handle : Handle} {items : Array Value} {texts : List String}
      (hget : heap.get handle = .ok (.list items)) (houtside : handle.index ∉ path)
      (hitems : WrittenItems heap (handle.index :: path) items.toList texts) :
      Written heap path (.object handle) ("[" ++ ", ".intercalate texts ++ "]")

/-- The texts of values, one for each. -/
inductive WrittenItems (heap : Heap κ) : List Nat → List Value → List String → Prop
  | nil {path : List Nat} : WrittenItems heap path [] []
  | cons {path : List Nat} {item : Value} {text : String} {items : List Value}
      {texts : List String} (hitem : Written heap path item text)
      (hitems : WrittenItems heap path items texts) :
      WrittenItems heap path (item :: items) (text :: texts)

end

variable {heap : Heap κ} {path : List Handle}

theorem writtenItems_printed {slots : List Nat} {items : List Value}
    (h : ∀ item ∈ items, heap.Written slots item (heap.printed path item)) :
    heap.WrittenItems slots items (items.map (heap.printed path)) := by
  induction items with
  | nil => exact .nil
  | cons item items ih =>
    exact .cons (h item List.mem_cons_self) (ih fun other hother => h other (.tail _ hother))

/-- Of live objects, the slots tell one from another. -/
theorem index_mem_map_iff {handle : Handle} (hlive : heap.isLive handle = true)
    (hpath : ∀ other ∈ path, heap.isLive other = true) :
    handle.index ∈ path.map Handle.index ↔ handle ∈ path := by
  refine ⟨fun h => ?_, List.mem_map_of_mem⟩
  obtain ⟨other, hmem, hindex⟩ := List.mem_map.1 h
  obtain ⟨_, hentry⟩ := Option.isSome_iff_exists.1 hlive
  obtain ⟨_, hentry'⟩ := Option.isSome_iff_exists.1 (hpath other hmem)
  rwa [handle_eq_of_index_eq hentry hentry' hindex.symm]

/-- Where nothing dangles, what is printed inside of live lists is the text of the value. -/
theorem Closed.written_printed (hclosed : heap.Closed)
    (hpath : ∀ list ∈ path, heap.isLive list = true) {value : Value} (hvalue : heap.Holds value) :
    heap.Written (path.map Handle.index) value (heap.printed path value) := by
  -- The more lists are open, the fewer can be opened.
  induction hcount : heap.unopened path using Nat.strongRecOn generalizing path value with
  | _ count ih =>
    subst hcount
    cases value with
    | null =>
      rw [printed]
      exact .null
    | bool value =>
      rw [printed]
      exact .bool value
    | number value =>
      rw [printed]
      exact .number value
    | object handle =>
      have hlive := hvalue handle rfl
      obtain ⟨object, hget⟩ := isLive_iff.1 hlive
      have hmem := index_mem_map_iff hlive hpath
      cases object with
      | function f => exact printed_function hget ▸ .function hget
      | native n => exact printed_native hget ▸ .native hget
      | string text => exact (printed_string hget).symm ▸ .string hget
      | list items =>
        by_cases hinside : handle ∈ path
        · exact printed_cut hget hinside ▸ .cut hget (hmem.2 hinside)
        · rw [printed_list hget hinside]
          refine .list hget (fun h => hinside (hmem.1 h)) ?_
          refine writtenItems_printed fun item hitem => ?_
          refine ih _ (unopened_cons_lt hget hinside) ?_ (fun child hchild => ?_) rfl
          · exact List.forall_mem_cons.2 ⟨hlive, hpath⟩
          · exact hclosed.children hget child (List.mem_filterMap.2 ⟨item, hitem, hchild⟩)

/-- Where nothing dangles, what is displayed is the text of the value. -/
theorem Closed.written_display (hclosed : heap.Closed) {value : Value}
    (hvalue : heap.Holds value) : heap.Written [] value (heap.display value) := by
  rw [display, displayPieces_eq_pending, pending, pending, String.append_empty,
    String.empty_append]
  exact hclosed.written_printed (List.forall_mem_nil _) hvalue

end Heap

end ScriptMachine
