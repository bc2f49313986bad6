import ScriptMachine.Host.Recipe
import ScriptMachine.Proofs.Heap.Growth
import ScriptMachine.Proofs.Machine.Persistence

/-!
# What recipes do

What a recipe for a value describes is on the heap once it has been made, and all that was
there is still there (`ValueRecipe.made_make`). Built-in functions and recipes for functions
work on the heap through its operations, and of these they use mutation for the items of
lists only (`Recipe.exists_works`). So the heap stays well-formed, and a function stays what
it is until a collection frees it (`Recipe.call_leaves_functions`).
-/

namespace ScriptMachine

variable {κ : Type}

/-! ## Values -/

mutual

/-- The value is what the recipe describes. -/
inductive ValueRecipe.Made (heap : Heap κ) : ValueRecipe → Value → Prop
  | given (value : Value) : Made heap (.given value) value
  | string {text : String} {handle : Handle} (h : heap.get handle = .ok (.string text)) :
      Made heap (.string text) (.object handle)
  | list {recipes : List ValueRecipe} {values : List Value} {handle : Handle}
      (h : heap.get handle = .ok (.list values.toArray)) (hitems : MadeAll heap recipes values) :
      Made heap (.list recipes) (.object handle)
  | function {name : String} {handle : Handle}
      (h : heap.get handle = .ok (.function ⟨name, 0, {}⟩)) :
      Made heap (.function name) (.object handle)

inductive ValueRecipe.MadeAll (heap : Heap κ) : List ValueRecipe → List Value → Prop
  | nil : MadeAll heap [] []
  | cons {recipe : ValueRecipe} {recipes : List ValueRecipe} {value : Value} {values : List Value}
      (h : ValueRecipe.Made heap recipe value) (hrest : MadeAll heap recipes values) :
      MadeAll heap (recipe :: recipes) (value :: values)

end

namespace ValueRecipe

mutual

/-- What has been made stays so for as long as the objects stay. -/
theorem Made.mono {heap heap' : Heap κ}
    (hget : ∀ {handle object}, heap.get handle = .ok object → heap'.get handle = .ok object)
    {recipe : ValueRecipe} {value : Value} (h : Made heap recipe value) :
    Made heap' recipe value := by
  cases h with
  | given => exact .given _
  | string h => exact .string (hget h)
  | list h hitems => exact .list (hget h) (hitems.mono hget)
  | function h => exact .function (hget h)

theorem MadeAll.mono {heap heap' : Heap κ}
    (hget : ∀ {handle object}, heap.get handle = .ok object → heap'.get handle = .ok object)
    {recipes : List ValueRecipe} {values : List Value} (h : MadeAll heap recipes values) :
    MadeAll heap' recipes values := by
  cases h with
  | nil => exact .nil
  | cons h hrest => exact .cons (h.mono hget) (hrest.mono hget)

end

mutual

/-- Making a value only adds objects to the heap. -/
theorem allocs_make (recipe : ValueRecipe) (heap : Heap κ) :
    heap.Allocs (recipe.make heap).2 := by
  cases recipe with
  | given value => exact .refl
  | string text => exact .alloc .refl _
  | function name => exact .alloc .refl _
  | list recipes => exact (allocs_makeAll recipes heap).alloc _

theorem allocs_makeAll (recipes : List ValueRecipe) (heap : Heap κ) :
    heap.Allocs (makeAll recipes heap).2 := by
  cases recipes with
  | nil => exact .refl
  | cons recipe recipes => exact (allocs_make recipe heap).trans (allocs_makeAll recipes _)

end

mutual

/-- What a recipe describes is on the heap once it has been made. -/
theorem made_make {heap : Heap κ} (hwf : heap.WF) (recipe : ValueRecipe) :
    Made (recipe.make heap).2 recipe (recipe.make heap).1 := by
  cases recipe with
  | given value => exact .given value
  | string text => exact .string (Heap.get_alloc_self hwf _)
  | function name => exact .function (Heap.get_alloc_self hwf _)
  | list recipes =>
    have hwf' := ((allocs_makeAll recipes heap).grown hwf).wf
    exact .list (Heap.get_alloc_self hwf' _)
      ((madeAll_makeAll hwf recipes).mono (Heap.get_alloc_of_get hwf' _))

theorem madeAll_makeAll {heap : Heap κ} (hwf : heap.WF) (recipes : List ValueRecipe) :
    MadeAll (makeAll recipes heap).2 recipes (makeAll recipes heap).1 := by
  cases recipes with
  | nil => exact .nil
  | cons recipe recipes =>
    have hwf' := ((allocs_make recipe heap).grown hwf).wf
    have hgrown := (allocs_makeAll recipes (recipe.make heap).2).grown hwf'
    exact .cons ((made_make hwf recipe).mono hgrown.get) (madeAll_makeAll hwf' recipes)

end

end ValueRecipe

/-! ## Functions -/

/-- An operation that mutates nothing but the items of a list. -/
inductive HeapOp.Plain : HeapOp κ → Prop
  | alloc (object : Object κ) : Plain (.alloc object)
  | items (handle : Handle) (f : Array Value → Array Value) :
      Plain (.mutate handle (Object.mapItems f))
  | collect (roots : Roots) : Plain (.collect roots)

/-- Such operations lead from one heap to the other. -/
def Heap.Works (heap : Heap κ) (ops : List (HeapOp κ)) (heap' : Heap κ) : Prop :=
  (∀ op ∈ ops, op.Plain) ∧ heap' = ops.foldl Heap.apply heap

namespace Heap.Works

variable {heap heap' : Heap κ} {ops : List (HeapOp κ)}

theorem refl (heap : Heap κ) : heap.Works [] heap := ⟨nofun, rfl⟩

theorem concat (h : heap.Works ops heap') {op : HeapOp κ} (hop : op.Plain) :
    heap.Works (ops ++ [op]) (heap'.apply op) := by
  refine ⟨List.forall_mem_append.2 ⟨h.1, by simpa using hop⟩, ?_⟩
  rw [List.foldl_append, ← h.2]
  rfl

theorem modifyList (heap : Heap κ) (handle : Handle) (f : Array Value → Array Value) :
    heap.Works [.mutate handle (Object.mapItems f)] (heap.modifyList handle f) := by
  refine ⟨by simpa using HeapOp.Plain.items handle f, ?_⟩
  rw [modifyList_eq, ← apply_mutate]
  rfl

theorem exists_of_allocs (h : heap.Allocs heap') : ∃ ops, heap.Works ops heap' := by
  induction h with
  | refl => exact ⟨[], refl heap⟩
  | tail _ hlast ih =>
    obtain ⟨ops, hops⟩ := ih
    obtain ⟨object, rfl⟩ := hlast
    exact ⟨_, hops.concat (.alloc object)⟩

theorem wf (h : heap.Works ops heap') (hwf : heap.WF) : heap'.WF := by
  obtain ⟨-, rfl⟩ := h
  induction ops generalizing heap with
  | nil => exact hwf
  | cons op ops ih => exact ih (hwf.apply op)

/-- A function stays what it is until a collection frees it. -/
theorem get_function (h : heap.Works ops heap') (hwf : heap.WF) {handle : Handle} {f : Function}
    (hget : heap.get handle = .ok (.function f)) (hkept : ¬heap.Frees handle ops) :
    heap'.get handle = .ok (.function f) := by
  obtain ⟨hplain, rfl⟩ := h
  have hsame : mutated handle ops (.function f : Object κ) = .function f := by
    clear hget hkept
    induction ops with
    | nil => rfl
    | cons op ops ih =>
      obtain ⟨hop, hops⟩ := List.forall_mem_cons.1 hplain
      have hfirst : op.mutation handle (.function f) = .function f := by
        cases hop with
        | alloc | collect => rfl
        | items =>
          rw [HeapOp.mutation]
          split <;> rfl
      rw [mutated, List.foldl_cons, hfirst]
      exact ih hops
  rw [get_of_not_frees ops hwf hget hkept, hsame]

end Heap.Works

theorem Builtin.exists_works {ε τ : Type} (clock : Nat → Float) (builtin : Builtin)
    (args : List Value) (world : World ε τ) :
    ∃ ops, world.1.Works ops (builtin.call clock args world).2.1 := by
  fun_cases Builtin.call clock builtin args world with
  | case2 value heap host name handle heap' halloc =>
    obtain ⟨rfl, rfl⟩ := Prod.ext_iff.1 halloc
    exact ⟨_, (Heap.Works.refl _).concat (.alloc _)⟩
  | case4 => exact ⟨_, .modifyList _ _ _⟩
  | case7 => exact ⟨_, .modifyList _ _ _⟩
  | _ => exact ⟨[], .refl _⟩

/-- Recipes work on the heap through its operations, and mutate nothing but the items of
lists. -/
theorem Recipe.exists_works (clock : Nat → Float) (recipe : Recipe) (args : List Value)
    (world : World Recipe Value) : ∃ ops, world.1.Works ops (recipe.call clock args world).2.1 := by
  fun_induction Recipe.call clock recipe args world with
  | case1 args recipe heap host value heap' hmake =>
    have hallocs := recipe.allocs_make heap
    rw [hmake] at hallocs
    exact Heap.Works.exists_of_allocs hallocs
  | case6 args heap host handle heap' halloc =>
    obtain ⟨rfl, rfl⟩ := Prod.ext_iff.1 halloc
    exact ⟨_, (Heap.Works.refl heap).concat (.alloc _)⟩
  | case9 args heap host report heap' hcollect =>
    obtain ⟨rfl, rfl⟩ := Prod.ext_iff.1 hcollect
    exact ⟨_, (Heap.Works.refl heap).concat (.collect _)⟩
  | case10 _ args heap host _ _ builtin _ => exact builtin.exists_works clock args (heap, host)
  | case11 _ _ _ _ _ _ _ _ ih => exact ih
  | case14 args name arity code constants heap host values heap' hmake =>
    have hallocs := ValueRecipe.allocs_makeAll constants heap
    rw [hmake] at hallocs
    exact Heap.Works.exists_of_allocs (hallocs.alloc _)
  | _ => exact ⟨[], .refl _⟩

/-- Whatever a recipe does, the heap is well-formed behind it, and a function that has not been
freed is what it was. -/
theorem Recipe.call_leaves_functions (clock : Nat → Float) (recipe : Recipe) (args : List Value)
    (world : World Recipe Value) (hwf : world.1.WF) :
    let heap' := (recipe.call clock args world).2.1
    heap'.WF ∧ ∃ ops : List (HeapOp (NativeCode Recipe)), heap' = ops.foldl Heap.apply world.1 ∧
      ∀ {handle f}, world.1.get handle = .ok (.function f) → ¬world.1.Frees handle ops →
        heap'.get handle = .ok (.function f) := by
  obtain ⟨ops, hworks⟩ := recipe.exists_works clock args world
  exact ⟨hworks.wf hwf, ops, hworks.2, fun hget hkept => hworks.get_function hwf hget hkept⟩

end ScriptMachine
