import ScriptMachine.Library
import ScriptMachine.Proofs.Heap.Renaming

/-!
# Native code up to handles

Native code respects renamings if, run on heaps that match and on matching
arguments, it gives matching results and leaves matching heaps
(`RespectsRenaming`). The built-in functions do (`Builtin.call_matches`), since
they look at handles only through the heap.
-/

namespace ScriptMachine

variable {κ σ : Type} {φ : FunctionMatch} {β γ : Renaming}

/-- Two outcomes of native code that agree up to handles, those of the renaming
`β` and of what was allocated meanwhile. -/
structure CallMatches (φ : FunctionMatch) (β : Renaming)
    (left right : Except String Value × (Heap κ × σ)) : Prop where
  host : left.2.2 = right.2.2
  result : ∃ γ, β ≤ γ ∧ Heap.Matches φ γ left.2.1 right.2.1 ∧
    Agree (Value.Matches γ) left.1 right.1

/-- Native code that does not see which handles it works on. -/
def RespectsRenaming (φ : FunctionMatch) (call call' : NativeCall κ σ) : Prop :=
  ∀ (code : κ) (host : σ) {β : Renaming} {args args' : List Value} {left right : Heap κ},
    Heap.Matches φ β left right → List.Forall₂ (Value.Matches β) args args' →
      CallMatches φ β (call code args (left, host)) (call' code args' (right, host))

/-- Native code that leaves the heap as it is. -/
theorem CallMatches.of_agree {left right : Heap κ} {host : σ} {r r' : Except String Value}
    (h : Heap.Matches φ β left right) (hr : Agree (Value.Matches β) r r') :
    CallMatches φ β (r, (left, host)) (r', (right, host)) :=
  ⟨rfl, β, le_refl β, h, hr⟩

/-- Native code that looks up the list of its receiver and fails if there is none. -/
theorem CallMatches.onList {left right : Heap κ} {host : σ} {a b : Handle}
    (h : Heap.Matches φ β left right) (hab : β a b)
    {run run' : Array Value → Except String Value × (Heap κ × σ)}
    (hrun : ∀ {items items'}, Pointwise (Value.Matches β) items items' →
      CallMatches φ β (run items) (run' items')) :
    CallMatches φ β
      (match left.list a with
        | .ok items => run items
        | .error fault => (.error fault.message, (left, host)))
      (match right.list b with
        | .ok items => run' items
        | .error fault => (.error fault.message, (right, host))) := by
  have hitems := h.list hab
  generalize left.list a = found at hitems
  generalize right.list b = found' at hitems
  cases hitems with
  | error fault => exact .of_agree h (.error _)
  | ok hitems => exact hrun hitems

variable {ε τ : Type}

/-- The built-in functions respect renamings. -/
theorem Builtin.call_matches [φ.Lawful] {left right : Heap (NativeCode ε)}
    (h : Heap.Matches φ β left right) {args args' : List Value}
    (hargs : List.Forall₂ (Value.Matches β) args args') (clock : Nat → Float)
    (builtin : Builtin) (host : HostState τ) :
    CallMatches φ β (builtin.call clock args (left, host))
      (builtin.call clock args' (right, host)) := by
  cases builtin with
  | clock => exact ⟨rfl, β, le_refl β, h, .ok (.number _)⟩
  | type =>
    cases hargs with
    | nil => exact .of_agree h (.error _)
    | cons hvw htail =>
      cases htail with
      | nil =>
        simp only [Builtin.call, h.typeName_eq hvw]
        exact ⟨rfl, _, β.le_extend _ _, h.alloc (.string _), .ok (.object (.inr ⟨rfl, rfl⟩))⟩
      | cons _ _ => exact .of_agree h (.error _)
  | push =>
    cases hargs with
    | nil => exact .of_agree h (.error _)
    | cons hlist htail =>
      cases htail with
      | nil => cases hlist <;> exact .of_agree h (.error _)
      | cons hvalue htail =>
        cases htail with
        | cons _ _ => cases hlist <;> exact .of_agree h (.error _)
        | nil =>
          cases hlist with
          | object hab =>
            exact .onList h hab fun _ =>
              ⟨rfl, β, le_refl β, h.modifyList hab fun hxy => hxy.push hvalue, .ok .null⟩
          | _ => exact .of_agree h (.error _)
  | pop =>
    cases hargs with
    | nil => exact .of_agree h (.error _)
    | cons hlist htail =>
      cases htail with
      | cons _ _ => cases hlist <;> exact .of_agree h (.error _)
      | nil =>
        cases hlist with
        | object hab =>
          refine .onList h hab fun {items items'} hitems => ?_
          have hback := hitems.back?
          generalize items.back? = last at hback
          generalize items'.back? = last' at hback
          cases hback with
          | none => exact .of_agree h (.error _)
          | some hvw => exact ⟨rfl, β, le_refl β, h.modifyList hab fun hxy => hxy.pop, .ok hvw⟩
        | _ => exact .of_agree h (.error _)
  | len =>
    cases hargs with
    | nil => exact .of_agree h (.error _)
    | cons hlist htail =>
      cases htail with
      | cons _ _ => cases hlist <;> exact .of_agree h (.error _)
      | nil =>
        cases hlist with
        | object hab =>
          refine .onList h hab fun hitems => ?_
          rw [hitems.size_eq]
          exact .of_agree h (.ok (.number _))
        | _ => exact .of_agree h (.error _)

/-- A host without functions of its own respects renamings. -/
theorem Host.plain_respectsRenaming [φ.Lawful] (clock : Nat → Float) :
    RespectsRenaming φ (Host.plain clock).call (Host.plain clock).call := by
  intro code host β args args' left right h hargs
  cases code with
  | builtin builtin => exact builtin.call_matches h hargs clock host
  | custom code => exact nomatch code

end ScriptMachine
