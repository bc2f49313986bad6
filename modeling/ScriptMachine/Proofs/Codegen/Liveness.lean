import ScriptMachine.Proofs.Codegen.Edits
import ScriptMachine.Proofs.Heap.Slab

/-!
# Nothing dangles after code generation

On a closed heap (`Heap.Closed`) every object refers to live ones only. Code
generation keeps the heap closed: it allocates names before it refers to them,
and functions after what their constants hold (`Program.compile_closed`). On any heap,
it leaves the script there (`Program.get_script_compile`).
-/

namespace ScriptMachine

variable {κ : Type}

/-! ## Closed heaps -/

/-- A value that refers to a live object, if to any. -/
def Heap.Holds (heap : Heap κ) (value : Value) : Prop :=
  ∀ handle, value.handle? = some handle → heap.isLive handle

/-- A heap on which nothing dangles. -/
structure Heap.Closed (heap : Heap κ) : Prop where
  wf : heap.WF
  children : ∀ {handle object}, heap.get handle = .ok object →
    ∀ child ∈ object.children, heap.isLive child

namespace Heap

variable {heap : Heap κ}

theorem isLive_alloc (h : heap.WF) (object : Object κ) {handle : Handle}
    (hlive : heap.isLive handle) : (heap.alloc object).2.isLive handle := by
  obtain ⟨x, hx⟩ := isLive_iff.1 hlive
  exact isLive_iff.2 ⟨x, get_alloc_of_get h object hx⟩

theorem isLive_alloc_self (h : heap.WF) (object : Object κ) :
    (heap.alloc object).2.isLive (heap.alloc object).1 :=
  isLive_iff.2 ⟨object, get_alloc_self h object⟩

theorem Holds.alloc {value : Value} (hvalue : heap.Holds value) (h : heap.WF)
    (object : Object κ) : (heap.alloc object).2.Holds value :=
  fun handle hhandle => isLive_alloc h object (hvalue handle hhandle)

theorem Closed.empty : ({} : Heap κ).Closed :=
  ⟨.empty, fun h => by simp [get, entry?] at h⟩

theorem Closed.alloc (h : heap.Closed) {object : Object κ}
    (hobject : ∀ child ∈ object.children, heap.isLive child) :
    (heap.alloc object).2.Closed := by
  refine ⟨h.wf.alloc object, fun {handle x} hx child hchild => isLive_alloc h.wf object ?_⟩
  rcases get_of_get_alloc h.wf hx with ⟨-, rfl⟩ | hx
  · exact hobject child hchild
  · exact h.children hx child hchild

end Heap

/-! ## Drafts -/

/-- A draft on whose heap nothing dangles, that refers to live objects only, and
on whose heap the `known` handles are live. -/
structure Draft.Closed (known : Handle → Prop) (d : Draft κ) : Prop where
  heap : d.heap.Closed
  constants : ∀ value ∈ d.chunk.constants, d.heap.Holds value
  known : ∀ {handle}, known handle → d.heap.isLive handle

variable {known : Handle → Prop} {start : Nat} {d d' : Draft κ}

theorem Draft.Edit.closed (h : Draft.Edit known start d d') (hd : d.Closed known) :
    d'.Closed known := by
  cases h with
  | report error => exact ⟨hd.heap, hd.constants, hd.known⟩
  | write byte line => exact ⟨hd.heap, hd.constants, hd.known⟩
  | patch offset distance => exact ⟨hd.heap, hd.constants, hd.known⟩
  | declare symbols height _ => exact ⟨hd.heap, hd.constants, hd.known⟩
  | constant value hvalue =>
    refine ⟨hd.heap, fun other hother => ?_, hd.known⟩
    rcases Array.mem_push.1 hother with hother | rfl
    · exact hd.constants other hother
    · exact fun handle hhandle => hd.known (hvalue handle hhandle)
  | text name =>
    have hwf := hd.heap.wf
    exact ⟨hd.heap.alloc (by simp [Object.children]),
      fun value hvalue => (hd.constants value hvalue).alloc hwf _,
      fun hknown => Heap.isLive_alloc hwf _ (hd.known hknown)⟩
  | name name =>
    have hwf := hd.heap.wf
    refine ⟨hd.heap.alloc (by simp [Object.children]), fun value hvalue => ?_,
      fun hknown => Heap.isLive_alloc hwf _ (hd.known hknown)⟩
    rcases Array.mem_push.1 hvalue with hvalue | rfl
    · exact (hd.constants value hvalue).alloc hwf _
    · rintro _ ⟨⟩
      exact Heap.isLive_alloc_self hwf _

theorem Draft.Edits.closed (h : Draft.Edits known start d d') (hd : d.Closed known) :
    d'.Closed known := by
  induction h with
  | refl => exact hd
  | tail _ hedit ih => exact hedit.closed ih

/-! ## Programs -/

/-- The handles that are live on a heap stay live. -/
def Assembly.Closed (known : Handle → Prop) (a : Assembly κ) : Prop :=
  a.heap.Closed ∧ ∀ {handle}, known handle → a.heap.isLive handle

theorem Assembly.Closed.addFunction {a : Assembly κ} (ha : a.Closed known) (name : String)
    (arity : Nat) {body : Gen κ Unit} (hbody : Walks known 0 AnyResult body) :
    (a.addFunction name arity body).2.Closed
      (fun handle => known handle ∨ handle = (a.addFunction name arity body).1) := by
  have hstart : Draft.Closed known ({ a with name } : Draft κ) :=
    ⟨ha.1, fun value hvalue => by simp at hvalue, ha.2⟩
  have hdraft := (hbody { a with name } (Nat.zero_le _)).1.closed hstart
  have hwf := hdraft.heap.wf
  refine ⟨hdraft.heap.alloc fun child hchild => ?_, ?_⟩
  · obtain ⟨value, hvalue, hhandle⟩ := List.mem_filterMap.1 hchild
    exact hdraft.constants value (Array.mem_toList_iff.1 hvalue) child hhandle
  · rintro handle (hknown | rfl)
    · exact Heap.isLive_alloc hwf _ (hdraft.known hknown)
    · exact Heap.isLive_alloc_self hwf _

theorem Assembly.Closed.genFns {a : Assembly κ} (ha : a.Closed known) (decls : List Decl) :
    (genFns decls a).2.Closed
      (fun handle => known handle ∨ ∃ fn ∈ (genFns decls a).1, handle = fn.2) := by
  induction decls generalizing a known with
  | nil =>
    refine ⟨ha.1, fun {handle} h => ?_⟩
    simpa [ScriptMachine.genFns] using ha.2 (by simpa [ScriptMachine.genFns] using h)
  | cons decl decls ih =>
    cases decl with
    | var d => exact ih ha
    | fn d =>
      obtain ⟨hheap, hlive⟩ := ih (ha.addFunction d.name d.params.length (Walks.genFnBody d))
      refine ⟨hheap, fun {handle} h => hlive ?_⟩
      rcases h with hknown | ⟨fn, hfn, rfl⟩
      · exact .inl (.inl hknown)
      · rcases List.mem_cons.1 hfn with rfl | hfn
        · exact .inl (.inr rfl)
        · exact .inr ⟨fn, hfn, rfl⟩

/-- Compiling on a closed heap gives a closed heap, with all that was live on it. -/
theorem Program.compile_closed (program : Program) {heap : Heap κ} (h : heap.Closed)
    (symbols : SymbolTable) :
    (program.compile heap symbols).heap.Closed ∧
      ∀ {handle}, heap.isLive handle → (program.compile heap symbols).heap.isLive handle := by
  have hstart : Assembly.Closed (fun handle => heap.isLive handle)
      (⟨heap, (assignGlobalSlots symbols).1, (assignGlobalSlots symbols).2⟩ : Assembly κ) :=
    ⟨h, id⟩
  have hfns := hstart.genFns program.decls
  have hscript := hfns.addFunction "script" 0
    (Walks.genScript program fun fn hfn => .inr ⟨fn, hfn, rfl⟩)
  exact ⟨hscript.1, fun hlive => hscript.2 (.inl (.inl hlive))⟩

/-! ## The script -/

theorem Draft.Edits.wf (h : Draft.Edits known start d d') (hd : d.heap.WF) : d'.heap.WF :=
  (h.allocs.kept hd).wf

/-- A function that is added is on the heap. -/
theorem Assembly.get_addFunction {a : Assembly κ} (h : a.heap.WF) (name : String) (arity : Nat)
    {body : Gen κ Unit} (hbody : Walks known 0 AnyResult body) :
    (a.addFunction name arity body).2.heap.WF ∧
      ∃ f, (a.addFunction name arity body).2.heap.get (a.addFunction name arity body).1 =
        .ok (.function f) := by
  have hwf := (hbody { a with name } (Nat.zero_le _)).1.wf h
  exact ⟨hwf.alloc _, _, Heap.get_alloc_self hwf _⟩

theorem wf_genFns {a : Assembly κ} (h : a.heap.WF) (decls : List Decl) :
    (genFns decls a).2.heap.WF :=
  ((allocs_genFns decls a).kept h).wf

/-- Compiling leaves the script on the heap. -/
theorem Program.get_script_compile (program : Program) {heap : Heap κ} (h : heap.WF)
    (symbols : SymbolTable) :
    (program.compile heap symbols).heap.WF ∧
      ∃ f, (program.compile heap symbols).heap.get (program.compile heap symbols).script =
        .ok (.function f) := by
  have hscript : ∀ fns, Walks (fun _ => True) 0 AnyResult (genScript program fns : Gen κ Unit) :=
    fun _ => Walks.genScript program fun _ _ => trivial
  exact Assembly.get_addFunction (wf_genFns h program.decls) "script" 0 (hscript _)

end ScriptMachine
