import ScriptMachine.Proofs.Codegen.Layout
import ScriptMachine.Proofs.Machine.Persistence
import ScriptMachine.Proofs.Machine.Renaming
import ScriptMachine.Proofs.Semantics.Reference

/-!
# Memories that mirror stores

When a machine runs the code of a program and an evaluation works on its syntax,
the memory of the machine mirrors the store of the evaluation (`Mirrors`): heaps
agree up to handles, with the code of a declaration where the store has a
function without code. Locals are found on the stack by their slots (`Locals`).
What an evaluation does to its store has its counterpart on either side.
-/

namespace ScriptMachine

variable {κ σ : Type} {β γ : Renaming}

/-! ## Images -/

/-- A compiled program: its syntax, the heap it was compiled to, and the number of
its globals. -/
structure Image (κ : Type) where
  program : Program
  heap : Heap κ
  globals : Nat

/-- The site of code in an image. -/
def Image.site (c : Image κ) (chunk : Chunk) (height : Nat → Nat) : Site κ :=
  ⟨chunk, c.heap, c.globals, height⟩

/-- A function with the code of a declaration, and the same function without
code. -/
def Image.Declares (c : Image κ) : FunctionMatch := fun _ f g =>
  ∃ d ∈ c.program.fns, g = ⟨d.name, d.params.length, {}⟩ ∧ f.name = d.name ∧
    f.arity = d.params.length ∧ ∃ height, FnAt (c.site f.chunk height) d

instance (c : Image κ) : c.Declares.Lawful where
  name_eq := by
    rintro β f _ ⟨d, -, rfl, hname, -⟩
    exact hname
  arity_eq := by
    rintro β f _ ⟨d, -, rfl, -, harity, -⟩
    exact harity
  mono _ h := h
  restrict h _ := h

/-! ## Memories and stores -/

/-- The memory of a machine and the store of an evaluation that are at the same
point. -/
structure Mirrors (env : Environment κ σ) (S : Setting κ σ) (c : Image κ) (β : Renaming)
    (m : Memory κ σ) (st : Store κ σ) : Prop where
  heap : Heap.Matches c.Declares β m.heap st.heap
  evolves : c.heap.Evolves m.heap
  size : m.globals.size = c.globals
  globals : ∀ {id : SymbolId} {v}, m.globals[id]? = some v → Value.Matches β v (st.globals id)
  methods : List.Forall₂ (fun a b => a.1 = b.1 ∧ β a.2 b.2) env.methods S.methods
  output : m.output = st.output
  host : m.host = st.host

/-- The values of the live locals `Γ`, in the order of their slots. -/
structure Locals (c : Image κ) (β : Renaming) (Γ : List SymbolId) (values : Array Value)
    (locals : SymbolId → Option Value) : Prop where
  size : values.size = Γ.length
  nodup : Γ.Nodup
  value : ∀ {i : Nat} {id : SymbolId} {v}, Γ[i]? = some id → values[i]? = some v →
    ∃ w, locals id = some w ∧ Value.Matches β v w
  global : ∀ {id : SymbolId}, id < c.globals → locals id = none

section Mirrors

variable {env : Environment κ σ} {S : Setting κ σ} {c : Image κ} {m : Memory κ σ} {st : Store κ σ}
  {Γ : List SymbolId} {values : Array Value} {locals : SymbolId → Option Value}

theorem Locals.mono (hle : β ≤ γ) (h : Locals c β Γ values locals) :
    Locals c γ Γ values locals := by
  refine ⟨h.size, h.nodup, fun hid hv => ?_, h.global⟩
  obtain ⟨w, hw, hvw⟩ := h.value hid hv
  exact ⟨w, hw, hvw.mono hle⟩

namespace Mirrors

/-- Where the stack is does not matter. -/
theorem withStack (h : Mirrors env S c β m st) (stack : Array Value) :
    Mirrors env S c β { m with stack } st :=
  ⟨h.heap, h.evolves, h.size, h.globals, h.methods, h.output, h.host⟩

theorem withLocals (h : Mirrors env S c β m st) (locals : SymbolId → Option Value) :
    Mirrors env S c β m { st with locals } :=
  ⟨h.heap, h.evolves, h.size, h.globals, h.methods, h.output, h.host⟩

/-- Other heaps and host states, under more handles. -/
theorem withHeap (h : Mirrors env S c β m st) (hle : β ≤ γ) {heap heap' : Heap κ} {host host' : σ}
    (hheap : Heap.Matches c.Declares γ heap heap') (hevolves : c.heap.Evolves heap)
    (hhost : host = host') :
    Mirrors env S c γ { m with heap, host } { st with heap := heap', host := host' } :=
  ⟨hheap, hevolves, h.size, fun hv => (h.globals hv).mono hle,
    h.methods.imp fun _ _ hab => ⟨hab.1, hle _ _ hab.2⟩, h.output, hhost⟩

theorem withOutput (h : Mirrors env S c β m st) (text : String) :
    Mirrors env S c β { m with output := m.output ++ text }
      { st with output := st.output ++ text } :=
  ⟨h.heap, h.evolves, h.size, h.globals, h.methods, congrArg (· ++ text) h.output, h.host⟩

/-- A new list. -/
theorem newList (h : Mirrors env S c β m st) {xs ys : Array Value}
    (hxy : Pointwise (Value.Matches β) xs ys) :
    Mirrors env S c (β.extend (m.heap.alloc (.list xs)).1 (st.heap.alloc (.list ys)).1)
      { m with heap := (m.heap.alloc (.list xs)).2 }
      { st with heap := (st.heap.alloc (.list ys)).2 } := by
  obtain ⟨hheap, hevolves, hsize, hglobals, hmethods, houtput, hhost⟩ := h
  have hle := β.le_extend (m.heap.alloc (.list xs)).1 (st.heap.alloc (.list ys)).1
  refine ⟨hheap.alloc (.list hxy), hevolves.alloc _ (by simp [Object.kind]), hsize, ?_, ?_, houtput,
    hhost⟩
  · exact fun hv => (hglobals hv).mono hle
  · exact hmethods.imp fun _ _ hab => ⟨hab.1, hle _ _ hab.2⟩

/-! ### Variables -/

theorem lookup_global (h : Mirrors env S c β m st) {id : SymbolId} (hid : id < c.globals)
    (hlocal : st.locals id = none) :
    ∃ v, m.globals[id]? = some v ∧ Value.Matches β v (st.lookup id) := by
  have hlt : id < m.globals.size := by
    rw [h.size]
    exact hid
  have hget := Array.getElem?_eq_getElem hlt
  refine ⟨_, hget, ?_⟩
  rw [Store.lookup, hlocal]
  exact h.globals hget

theorem setGlobal (h : Mirrors env S c β m st) {id : SymbolId} {v w : Value}
    (hvw : Value.Matches β v w) :
    Mirrors env S c β { m with globals := m.globals.setIfInBounds id v } (st.setGlobal id w) := by
  refine ⟨h.heap, h.evolves, Array.size_setIfInBounds.trans h.size, fun {id'} v' hv' => ?_,
    h.methods, h.output, h.host⟩
  simp only [Store.setGlobal]
  by_cases heq : id' = id
  · rw [if_pos heq]
    subst heq
    rw [Array.getElem?_setIfInBounds, if_pos rfl] at hv'
    split at hv'
    · cases hv'
      exact hvw
    · cases hv'
  · rw [if_neg heq]
    rw [Array.getElem?_setIfInBounds_ne (Ne.symm heq)] at hv'
    exact h.globals hv'

end Mirrors

namespace Locals

theorem lookup (h : Locals c β Γ values st.locals) {i : Nat} {id : SymbolId}
    (hid : Γ[i]? = some id) : ∃ v, values[i]? = some v ∧ Value.Matches β v (st.lookup id) := by
  have hlt : i < values.size := by
    rw [h.size]
    exact (List.getElem?_eq_some_iff.1 hid).1
  obtain ⟨w, hw, hvw⟩ := h.value hid (Array.getElem?_eq_getElem hlt)
  refine ⟨_, Array.getElem?_eq_getElem hlt, ?_⟩
  rw [Store.lookup, hw]
  exact hvw

/-- Assigning to a local changes its slot and no other. -/
theorem set (h : Locals c β Γ values st.locals) {i : Nat} {id : SymbolId} (hid : Γ[i]? = some id)
    {v w : Value} (hvw : Value.Matches β v w) :
    Locals c β Γ (values.setIfInBounds i v) (st.setLocal id w).locals := by
  refine ⟨Array.size_setIfInBounds.trans h.size, h.nodup, fun {j id' v'} hj hv' => ?_,
    fun {id'} hglobal => ?_⟩
  · simp only [Store.setLocal]
    by_cases heq : id' = id
    · subst heq
      have hij : i = j := by
        have hi := (List.getElem?_eq_some_iff.1 hid).1
        exact (List.getElem?_inj hi h.nodup).1 (hid.trans hj.symm)
      subst hij
      rw [Array.getElem?_setIfInBounds, if_pos rfl] at hv'
      split at hv'
      · cases hv'
        exact ⟨w, if_pos rfl, hvw⟩
      · cases hv'
    · have hij : i ≠ j := by
        rintro rfl
        rw [hid] at hj
        exact heq (Option.some.inj hj).symm
      rw [Array.getElem?_setIfInBounds_ne hij] at hv'
      rw [if_neg heq]
      exact h.value hj hv'
  · simp only [Store.setLocal]
    obtain ⟨v₀, hv₀, -⟩ := h.lookup hid
    obtain ⟨w₀, hw₀, -⟩ := h.value hid hv₀
    rw [if_neg, h.global hglobal]
    rintro rfl
    rw [h.global hglobal] at hw₀
    cases hw₀

/-- A local that is declared takes the next slot. -/
theorem push (h : Locals c β Γ values st.locals) {id : SymbolId} (hfresh : id ∉ Γ)
    (hlocal : c.globals ≤ id) {v w : Value} (hvw : Value.Matches β v w) :
    Locals c β (Γ ++ [id]) (values.push v) (st.setLocal id w).locals := by
  refine ⟨by rw [Array.size_push, h.size, List.length_append]; rfl,
    List.nodup_append.2 ⟨h.nodup, List.nodup_singleton id, ?_⟩, fun {j id' v'} hj hv' => ?_,
    fun {id'} hglobal => ?_⟩
  · rintro a ha b hb rfl
    rw [List.mem_singleton] at hb
    exact hfresh (hb ▸ ha)
  · simp only [Store.setLocal]
    rw [Array.getElem?_push, h.size] at hv'
    by_cases heq : j = Γ.length
    · subst heq
      rw [if_pos rfl] at hv'
      rw [List.getElem?_append_right (Nat.le_refl _), Nat.sub_self] at hj
      cases hv'
      cases hj
      exact ⟨w, if_pos rfl, hvw⟩
    · rw [if_neg heq] at hv'
      have hlt : j < Γ.length := by
        have hsize := (Array.getElem?_eq_some_iff.1 hv').1
        rw [h.size] at hsize
        exact hsize
      rw [List.getElem?_append_left hlt] at hj
      have hne : id' ≠ id := fun heq => hfresh (heq ▸ List.mem_of_getElem? hj)
      rw [if_neg hne]
      exact h.value hj hv'
  · simp only [Store.setLocal]
    have hne : id' ≠ id := by
      rintro rfl
      exact Nat.not_lt.2 hlocal hglobal
    rw [if_neg hne, h.global hglobal]

/-- Locals that go out of scope. -/
theorem take {Δ : List SymbolId} (h : Locals c β (Γ ++ Δ) values locals) :
    Locals c β Γ (values.extract 0 Γ.length) locals := by
  have hsize := h.size
  rw [List.length_append] at hsize
  refine ⟨by rw [Array.size_extract]; omega, (List.nodup_append.1 h.nodup).1,
    fun {j id v} hj hv => ?_, h.global⟩
  have hlt := (List.getElem?_eq_some_iff.1 hj).1
  refine h.value (by rw [List.getElem?_append_left hlt, hj]) ?_
  rw [Array.getElem?_extract, if_pos (by omega), Nat.zero_add] at hv
  exact hv

theorem empty (hlocals : ∀ {id : SymbolId}, id < c.globals → locals id = none) :
    Locals c β [] #[] locals :=
  ⟨rfl, List.nodup_nil, by simp, hlocals⟩

end Locals

end Mirrors

/-! ## Operations on values and heaps -/

section Operations

variable {φ : FunctionMatch} {left right : Heap κ} {v v' w w' : Value}

theorem BinaryOp.apply_agree (op : BinaryOp) (hβ : Relator.BiUnique β) (hv : Value.Matches β v v')
    (hw : Value.Matches β w w') :
    Agree (Value.Matches β) (op.apply v w) (op.apply v' w') := by
  have hequals := hv.equals_eq hβ hw
  have hnumbers : ∀ a b : Float, Value.Matches β (op.onNumbers a b) (op.onNumbers a b) := by
    intro a b
    cases op <;> first | exact .number _ | exact .bool _
  cases op with
  | equal =>
    simp only [BinaryOp.apply, Value.same_eq, hequals]
    exact .ok (.bool _)
  | notEqual =>
    simp only [BinaryOp.apply, Value.same_eq, hequals]
    exact .ok (.bool _)
  | _ =>
    cases hv with
    | number a =>
      cases hw with
      | number b => exact .ok (hnumbers a b)
      | _ => exact .error _
    | _ => exact .error _

theorem UnaryOp.apply_agree (op : UnaryOp) (hv : Value.Matches β v v') :
    Agree (Value.Matches β) (op.apply v) (op.apply v') := by
  cases op with
  | neg =>
    cases hv with
    | number a => exact .ok (.number _)
    | _ => exact .error _
  | not =>
    cases hv with
    | bool b => exact .ok (.bool _)
    | _ => exact .error _

namespace Heap.Matches

theorem subscripted (h : Heap.Matches φ β left right) (hv : Value.Matches β v v') :
    Agree (fun x y => β x.1 y.1 ∧ Pointwise (Value.Matches β) x.2 y.2) (left.subscripted v)
      (right.subscripted v') := by
  cases hv with
  | @object a b hab =>
    obtain ⟨x, y, hx, hy, hxy⟩ := h.objects hab
    simp only [Heap.subscripted, hx, hy]
    cases hxy with
    | list hitems => exact .ok ⟨hab, hitems⟩
    | function h => exact .error _
    | native native => exact .error _
    | string text => exact .error _
  | _ => exact .error _

theorem element (h : Heap.Matches φ β left right) (hv : Value.Matches β v v')
    (hw : Value.Matches β w w') :
    Agree (Value.Matches β) (left.element v w) (right.element v' w') := by
  have hlist := h.subscripted hv
  unfold Heap.element
  generalize left.subscripted v = found at hlist
  generalize right.subscripted v' = found' at hlist
  cases hlist with
  | error fault => exact .error fault
  | @ok x y hxy =>
    obtain ⟨a, xs⟩ := x
    obtain ⟨b, ys⟩ := y
    obtain ⟨-, hitems⟩ := hxy
    have hposition := listPosition_agree hw hitems.size_eq
    dsimp only at hposition ⊢
    generalize listPosition w xs.size = position at hposition
    generalize listPosition w' ys.size = position' at hposition
    cases hposition with
    | error fault => exact .error fault
    | @ok i j hij =>
      have hvalue := hitems.getElem (hij ▸ i.2 : j.val < xs.size) j.2
      simp only [hij]
      exact .ok hvalue

theorem withElement (h : Heap.Matches φ β left right) (hv : Value.Matches β v v')
    (hw : Value.Matches β w w') {u u' : Value} (hu : Value.Matches β u u') :
    Agree (Heap.Matches φ β) (left.withElement v w u) (right.withElement v' w' u') := by
  have hlist := h.subscripted hv
  unfold Heap.withElement
  generalize left.subscripted v = found at hlist
  generalize right.subscripted v' = found' at hlist
  cases hlist with
  | error fault => exact .error fault
  | @ok x y hxy =>
    obtain ⟨a, xs⟩ := x
    obtain ⟨b, ys⟩ := y
    obtain ⟨hab, hitems⟩ := hxy
    have hposition := listPosition_agree hw hitems.size_eq
    dsimp only at hposition ⊢
    generalize listPosition w xs.size = position at hposition
    generalize listPosition w' ys.size = position' at hposition
    cases hposition with
    | error fault => exact .error fault
    | @ok i j hij =>
      dsimp only
      rw [hij]
      exact .ok (h.modifyList hab fun hitems => hitems.setIfInBounds _ hu)

theorem method (h : Heap.Matches φ β left right) {methods methods' : MethodTable}
    (hmethods : List.Forall₂ (fun a b => a.1 = b.1 ∧ β a.2 b.2) methods methods')
    (name : String) (hv : Value.Matches β v v') :
    Agree Eq (left.method methods name v) (right.method methods' name v') := by
  have htype := h.typeName_eq hv
  cases hv with
  | @object a b hab =>
    simp only [Heap.method, h.kind_eq hab, Heap.typeWord_eq, htype]
    cases right.kind b with
    | error fault => exact .error _
    | ok kind =>
      have hfound := find?_rel hmethods kind name
      unfold MethodTable.find? at hfound
      dsimp only
      generalize methods.lookup (kind, name) = found at hfound
      generalize methods'.lookup (kind, name) = found' at hfound
      cases hfound with
      | none => exact .error _
      | @some p q hpq =>
        have hnative := h.native hpq
        dsimp only
        generalize left.native p = native at hnative
        generalize right.native q = native' at hnative
        cases hnative with
        | error fault => exact .error _
        | ok heq => exact .ok heq
  | _ =>
    simp only [Heap.method, Heap.typeWord_eq, htype]
    exact .error _

end Heap.Matches

/-- Replacing an element keeps all objects but lists. -/
theorem Heap.Evolves.withElement {origin heap heap' : Heap κ} (h : origin.Evolves heap)
    (helement : heap.withElement v w w' = .ok heap') : origin.Evolves heap' := by
  obtain ⟨handle, position, rfl⟩ := Heap.exists_eq_of_withElement helement
  exact h.modifyList handle _

end Operations

end ScriptMachine
