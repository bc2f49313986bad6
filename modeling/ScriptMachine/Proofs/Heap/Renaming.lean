import Mathlib.Data.List.Forall2
import ScriptMachine.Proofs.Heap.Exactness
import ScriptMachine.Proofs.Heap.Printed

/-!
# Heaps that agree up to handles

A renaming says which handle of one heap stands for which handle of another.
Under it two heaps match (`Heap.Matches`) if handles that stand for each other
reach objects of the same shape, which in turn refer to handles that stand for
each other. Matching handles are live on both sides, so a match also says that
nothing dangles.

Allocation extends a renaming (`Heap.Matches.alloc`), changing a list keeps it
(`Heap.Matches.modifyList`), and collecting garbage on one side restricts it to
what survives there (`Heap.Matches.collect`). Values that match are written the
same way (`Heap.Matches.display`).

When two functions match is left open, since code may be compared byte by byte
or by what it was generated from; `FunctionMatch.Lawful` collects what is needed
of it.
-/

namespace ScriptMachine

/-! ## Arrays related place by place -/

theorem rel_imp {α β : Type} {R S : α → β → Prop} {x : Option α} {y : Option β}
    (h : Option.Rel R x y) (hRS : ∀ {a b}, x = some a → R a b → S a b) : Option.Rel S x y := by
  cases h with
  | some hab => exact .some (hRS rfl hab)
  | none => exact .none

/-- Arrays of one size whose elements are related place by place. -/
def Pointwise {α β : Type} (R : α → β → Prop) (xs : Array α) (ys : Array β) : Prop :=
  ∀ i : Nat, Option.Rel R xs[i]? ys[i]?

namespace Pointwise

variable {α β : Type} {R S : α → β → Prop} {xs : Array α} {ys : Array β}

theorem size_eq (h : Pointwise R xs ys) : xs.size = ys.size := by
  rcases Nat.lt_trichotomy xs.size ys.size with hlt | heq | hlt
  · have hrel := h xs.size
    rw [Array.getElem?_eq_none (Nat.le_refl _), Array.getElem?_eq_getElem hlt] at hrel
    cases hrel
  · exact heq
  · have hrel := h ys.size
    rw [Array.getElem?_eq_getElem hlt, Array.getElem?_eq_none (Nat.le_refl _)] at hrel
    cases hrel

theorem getElem (h : Pointwise R xs ys) {i : Nat} (hi : i < xs.size) (hi' : i < ys.size) :
    R xs[i] ys[i] := by
  have hrel := h i
  rw [Array.getElem?_eq_getElem hi, Array.getElem?_eq_getElem hi'] at hrel
  exact Option.rel_some_some.1 hrel

theorem mono (hRS : ∀ {a b}, R a b → S a b) (h : Pointwise R xs ys) : Pointwise S xs ys :=
  fun i => rel_imp (h i) fun _ hab => hRS hab

theorem empty : Pointwise R #[] #[] := fun _ => by simp

theorem push (h : Pointwise R xs ys) {a : α} {b : β} (hab : R a b) :
    Pointwise R (xs.push a) (ys.push b) := by
  intro i
  rw [Array.getElem?_push, Array.getElem?_push, h.size_eq]
  split
  · exact .some hab
  · exact h i

theorem pop (h : Pointwise R xs ys) : Pointwise R xs.pop ys.pop := by
  intro i
  rw [Array.getElem?_pop, Array.getElem?_pop, h.size_eq]
  split
  · exact h i
  · exact .none

theorem extract (h : Pointwise R xs ys) (start stop : Nat) :
    Pointwise R (xs.extract start stop) (ys.extract start stop) := by
  intro i
  rw [Array.getElem?_extract, Array.getElem?_extract, h.size_eq]
  split
  · exact h _
  · exact .none

theorem shrink (h : Pointwise R xs ys) (n : Nat) : Pointwise R (xs.shrink n) (ys.shrink n) := by
  rw [Array.shrink_eq_take, Array.shrink_eq_take]
  exact h.extract 0 n

theorem setIfInBounds (h : Pointwise R xs ys) (i : Nat) {a : α} {b : β} (hab : R a b) :
    Pointwise R (xs.setIfInBounds i a) (ys.setIfInBounds i b) := by
  intro j
  rw [Array.getElem?_setIfInBounds, Array.getElem?_setIfInBounds, h.size_eq]
  split
  · split
    · exact .some hab
    · exact .none
  · exact h j

theorem back? (h : Pointwise R xs ys) : Option.Rel R xs.back? ys.back? := by
  rw [Array.back?_eq_getElem?, Array.back?_eq_getElem?, h.size_eq]
  exact h _

theorem forall₂ (h : Pointwise R xs ys) : List.Forall₂ R xs.toList ys.toList := by
  refine List.forall₂_iff_get.2 ⟨by simpa using h.size_eq, fun i hi hi' => ?_⟩
  simpa using h.getElem (by simpa using hi) (by simpa using hi')

theorem of_forall₂ (h : List.Forall₂ R xs.toList ys.toList) : Pointwise R xs ys := by
  intro i
  obtain ⟨hlength, hget⟩ := List.forall₂_iff_get.1 h
  rw [Array.length_toList, Array.length_toList] at hlength
  by_cases hi : i < xs.size
  · have hi' : i < ys.size := hlength ▸ hi
    rw [Array.getElem?_eq_getElem hi, Array.getElem?_eq_getElem hi']
    simpa using hget i (by simpa using hi) (by simpa using hi')
  · rw [Array.getElem?_eq_none (by omega), Array.getElem?_eq_none (by omega)]
    exact .none

theorem refl_of {R : α → α → Prop} {xs : Array α} (h : ∀ a ∈ xs, R a a) : Pointwise R xs xs := by
  intro i
  cases hi : xs[i]? with
  | none => exact .none
  | some a => exact .some (h a (Array.mem_of_getElem? hi))

end Pointwise

/-! ## Renamings -/

/-- Which handle of one heap stands for which handle of another. -/
abbrev Renaming := Handle → Handle → Prop

/-- A renaming with one more pair of handles. -/
def Renaming.extend (β : Renaming) (a b : Handle) : Renaming :=
  fun x y => β x y ∨ x = a ∧ y = b

/-- A renaming of certain handles only. -/
def Renaming.restrict (β : Renaming) (keep : Handle → Prop) : Renaming :=
  fun x y => β x y ∧ keep x

theorem Renaming.le_extend (β : Renaming) (a b : Handle) : β ≤ β.extend a b :=
  fun _ _ h => .inl h

inductive Value.Matches (β : Renaming) : Value → Value → Prop
  | null : Matches β .null .null
  | bool (value : Bool) : Matches β (.bool value) (.bool value)
  | number (value : Float) : Matches β (.number value) (.number value)
  | object {a b : Handle} (h : β a b) : Matches β (.object a) (.object b)

namespace Value.Matches

variable {β γ : Renaming} {v w : Value}

theorem mono (hle : β ≤ γ) (h : Value.Matches β v w) : Value.Matches γ v w := by
  cases h with
  | null => exact .null
  | bool value => exact .bool value
  | number value => exact .number value
  | object h => exact .object (hle _ _ h)

theorem restrict {keep : Handle → Prop} (h : Value.Matches β v w)
    (hkeep : ∀ {a}, v.handle? = some a → keep a) : Value.Matches (β.restrict keep) v w := by
  cases h with
  | null => exact .null
  | bool value => exact .bool value
  | number value => exact .number value
  | object h => exact .object ⟨h, hkeep rfl⟩

/-- Comparison does not see handles that stand for each other. -/
theorem equals_eq (hβ : Relator.BiUnique β) {v' w' : Value} (h : Value.Matches β v w)
    (h' : Value.Matches β v' w') : v.equals v' = w.equals w' := by
  cases h with
  | null => cases h' <;> rfl
  | bool value => cases h' <;> rfl
  | number value => cases h' <;> rfl
  | @object a b h =>
    cases h' with
    | null => rfl
    | bool value => rfl
    | number value => rfl
    | @object a' b' h' =>
      have hiff : a = a' ↔ b = b' := by
        constructor
        · rintro rfl
          exact hβ.2 h h'
        · rintro rfl
          exact hβ.1 h h'
      simp only [Value.equals, beq_eq_decide, hiff]

end Value.Matches

/-- When two functions match, given a renaming of the handles they hold. -/
abbrev FunctionMatch := Renaming → Function → Function → Prop

/-- What a comparison of functions must respect: names and arities; it survives
more handles standing for each other, and it needs only those the function
refers to. -/
class FunctionMatch.Lawful (φ : FunctionMatch) : Prop where
  name_eq : ∀ {β f g}, φ β f g → f.name = g.name
  arity_eq : ∀ {β f g}, φ β f g → f.arity = g.arity
  mono : ∀ {β γ : Renaming} {f g}, β ≤ γ → φ β f g → φ γ f g
  restrict : ∀ {β : Renaming} {f g} {keep : Handle → Prop}, φ β f g →
    (∀ a ∈ f.chunk.constants.toList.filterMap Value.handle?, keep a) → φ (β.restrict keep) f g

inductive Object.Matches {κ : Type} (φ : FunctionMatch) (β : Renaming) :
    Object κ → Object κ → Prop
  | function {f g : Function} (h : φ β f g) : Matches φ β (.function f) (.function g)
  | list {xs ys : Array Value} (h : Pointwise (Value.Matches β) xs ys) :
      Matches φ β (.list xs) (.list ys)
  | native (native : Native κ) : Matches φ β (.native native) (.native native)
  | string (text : String) : Matches φ β (.string text) (.string text)

variable {κ : Type} {φ : FunctionMatch} {β γ : Renaming}

namespace Object.Matches

variable {x y : Object κ}

theorem kind_eq (h : Object.Matches φ β x y) : x.kind = y.kind := by
  cases h <;> rfl

theorem mono [φ.Lawful] (hle : β ≤ γ) (h : Object.Matches φ β x y) : Object.Matches φ γ x y := by
  cases h with
  | function h => exact .function (FunctionMatch.Lawful.mono hle h)
  | list h => exact .list (h.mono (Value.Matches.mono hle))
  | native native => exact .native native
  | string text => exact .string text

theorem restrict [φ.Lawful] {keep : Handle → Prop} (h : Object.Matches φ β x y)
    (hkeep : ∀ a ∈ x.children, keep a) : Object.Matches φ (β.restrict keep) x y := by
  cases h with
  | function h => exact .function (FunctionMatch.Lawful.restrict h hkeep)
  | @list xs ys h =>
    refine .list fun i => rel_imp (h i) fun {v _} hv hvw => hvw.restrict fun {a} ha => hkeep a ?_
    exact List.mem_filterMap.2 ⟨v, Array.mem_toList_iff.2 (Array.mem_of_getElem? hv), ha⟩
  | native native => exact .native native
  | string text => exact .string text

end Object.Matches

/-! ## Heaps -/

/-- Two results, both good and related or both the same fault. -/
inductive Agree {ε α α' : Type} (R : α → α' → Prop) : Except ε α → Except ε α' → Prop
  | ok {a : α} {b : α'} (h : R a b) : Agree R (.ok a) (.ok b)
  | error (e : ε) : Agree R (.error e) (.error e)

/-- Two heaps that agree up to handles. -/
structure Heap.Matches (φ : FunctionMatch) (β : Renaming) (left right : Heap κ) : Prop where
  left_wf : left.WF
  right_wf : right.WF
  biUnique : Relator.BiUnique β
  objects : ∀ {a b}, β a b →
    ∃ x y, left.get a = .ok x ∧ right.get b = .ok y ∧ Object.Matches φ β x y

namespace Heap.Matches

variable {left right : Heap κ} {a b : Handle} {v w : Value}

theorem kind_eq (h : Heap.Matches φ β left right) (hab : β a b) : left.kind a = right.kind b := by
  obtain ⟨x, y, hx, hy, hxy⟩ := h.objects hab
  simp only [kind, hx, hy, hxy.kind_eq]

theorem typeName_eq (h : Heap.Matches φ β left right) (hvw : Value.Matches β v w) :
    left.typeName v = right.typeName w := by
  cases hvw with
  | null => rfl
  | bool value => rfl
  | number value => rfl
  | object hab => simp only [typeName, h.kind_eq hab]

theorem get (h : Heap.Matches φ β left right) (hab : β a b) :
    Agree (Object.Matches φ β) (left.get a) (right.get b) := by
  obtain ⟨x, y, hx, hy, hxy⟩ := h.objects hab
  rw [hx, hy]
  exact .ok hxy

theorem function (h : Heap.Matches φ β left right) (hab : β a b) :
    Agree (φ β) (left.function a) (right.function b) := by
  obtain ⟨x, y, hx, hy, hxy⟩ := h.objects hab
  simp only [Heap.function, hx, hy]
  cases hxy with
  | function h => exact .ok h
  | list h => exact .error _
  | native native => exact .error _
  | string text => exact .error _

theorem list (h : Heap.Matches φ β left right) (hab : β a b) :
    Agree (Pointwise (Value.Matches β)) (left.list a) (right.list b) := by
  obtain ⟨x, y, hx, hy, hxy⟩ := h.objects hab
  simp only [Heap.list, hx, hy]
  cases hxy with
  | function h => exact .error _
  | list h => exact .ok h
  | native native => exact .error _
  | string text => exact .error _

theorem string (h : Heap.Matches φ β left right) (hab : β a b) :
    Agree Eq (left.string a) (right.string b) := by
  obtain ⟨x, y, hx, hy, hxy⟩ := h.objects hab
  simp only [Heap.string, hx, hy]
  cases hxy with
  | function h => exact .error _
  | list h => exact .error _
  | native native => exact .error _
  | string text => exact .ok rfl

theorem native (h : Heap.Matches φ β left right) (hab : β a b) :
    Agree Eq (left.native a) (right.native b) := by
  obtain ⟨x, y, hx, hy, hxy⟩ := h.objects hab
  simp only [Heap.native, hx, hy]
  cases hxy with
  | function h => exact .error _
  | list h => exact .error _
  | native native => exact .ok rfl
  | string text => exact .error _

/-! ### Allocation -/

/-- A new object on both sides: its two handles stand for each other from now
on. -/
theorem alloc [φ.Lawful] (h : Heap.Matches φ β left right) {x y : Object κ}
    (hxy : Object.Matches φ β x y) :
    Heap.Matches φ (β.extend (left.alloc x).1 (right.alloc y).1)
      (left.alloc x).2 (right.alloc y).2 := by
  have hle := β.le_extend (left.alloc x).1 (right.alloc y).1
  have hfresh : ∀ {p q}, β p q → p ≠ (left.alloc x).1 ∧ q ≠ (right.alloc y).1 := by
    intro p q hpq
    obtain ⟨u, w, hu, hw, -⟩ := h.objects hpq
    obtain ⟨_, hu⟩ := get_eq_ok.1 hu
    obtain ⟨_, hw⟩ := get_eq_ok.1 hw
    constructor
    · rintro rfl
      rw [entry?_alloc_fresh h.left_wf] at hu
      cases hu
    · rintro rfl
      rw [entry?_alloc_fresh h.right_wf] at hw
      cases hw
  refine ⟨h.left_wf.alloc x, h.right_wf.alloc y, ⟨?_, ?_⟩, ?_⟩
  · rintro p p' q (hpq | ⟨rfl, rfl⟩) (hpq' | ⟨rfl, hq⟩)
    · exact h.biUnique.1 hpq hpq'
    · exact absurd hq (hfresh hpq).2
    · exact absurd rfl (hfresh hpq').2
    · rfl
  · rintro p q q' (hpq | ⟨rfl, rfl⟩) (hpq' | ⟨hp, rfl⟩)
    · exact h.biUnique.2 hpq hpq'
    · exact absurd hp (hfresh hpq).1
    · exact absurd rfl (hfresh hpq').1
    · rfl
  · rintro p q (hpq | ⟨rfl, rfl⟩)
    · obtain ⟨u, w, hu, hw, huw⟩ := h.objects hpq
      exact ⟨u, w, get_alloc_of_get h.left_wf x hu, get_alloc_of_get h.right_wf y hw, huw.mono hle⟩
    · exact ⟨x, y, get_alloc_self h.left_wf x, get_alloc_self h.right_wf y, hxy.mono hle⟩

/-! ### Changing a list -/

theorem modifyList (h : Heap.Matches φ β left right) (hab : β a b)
    {f g : Array Value → Array Value}
    (hfg : ∀ {xs ys}, Pointwise (Value.Matches β) xs ys →
      Pointwise (Value.Matches β) (f xs) (g ys)) :
    Heap.Matches φ β (left.modifyList a f) (right.modifyList b g) := by
  rw [modifyList_eq, modifyList_eq]
  refine ⟨h.left_wf.modifyObject _ _, h.right_wf.modifyObject _ _, h.biUnique, ?_⟩
  intro p q hpq
  obtain ⟨x, y, hx, hy, hxy⟩ := h.objects hpq
  rw [get_modifyObject, get_modifyObject, hx, hy]
  refine ⟨if p = a then x.mapItems f else x, if q = b then y.mapItems g else y, rfl, rfl, ?_⟩
  have hiff : p = a ↔ q = b := by
    constructor
    · rintro rfl
      exact h.biUnique.2 hpq hab
    · rintro rfl
      exact h.biUnique.1 hpq hab
  by_cases hp : p = a
  · rw [if_pos hp, if_pos (hiff.1 hp)]
    cases hxy with
    | function h => exact .function h
    | list h => exact .list (hfg h)
    | native native => exact .native native
    | string text => exact .string text
  · rw [if_neg hp, if_neg (fun hq => hp (hiff.2 hq))]
    exact hxy

/-! ### Collecting garbage on one side -/

/-- After a collection on the left the heaps agree on what survived there. -/
theorem collect [φ.Lawful] (h : Heap.Matches φ β left right) (roots : Roots) :
    Heap.Matches φ (β.restrict (left.Reachable roots)) (left.collect roots).2 right := by
  refine ⟨h.left_wf.collect roots, h.right_wf, ⟨?_, ?_⟩, ?_⟩
  · intro p p' q hpq hpq'
    exact h.biUnique.1 hpq.1 hpq'.1
  · intro p q q' hpq hpq'
    exact h.biUnique.2 hpq.1 hpq'.1
  · rintro p q ⟨hpq, hreach⟩
    obtain ⟨x, y, hx, hy, hxy⟩ := h.objects hpq
    refine ⟨x, y, ?_, hy, hxy.restrict fun child hchild => hreach.child hx hchild⟩
    rw [get_collect_of_reachable h.left_wf hreach, hx]

end Heap.Matches

/-! ## Writing values -/

namespace Heap.Matches

variable {left right : Heap κ} {a b : Handle} {v w : Value}

theorem mem_iff (h : Heap.Matches φ β left right) {path path' : List Handle}
    (hpath : List.Forall₂ β path path') (hab : β a b) : a ∈ path ↔ b ∈ path' := by
  induction hpath with
  | nil => simp
  | @cons p q path path' hpq _ ih =>
    have hiff : a = p ↔ b = q := by
      constructor
      · rintro rfl
        exact h.biUnique.2 hab hpq
      · rintro rfl
        exact h.biUnique.1 hab hpq
    rw [List.mem_cons, List.mem_cons, ih, hiff]

/-- Matching values are printed in the same way inside of matching lists. -/
theorem printed [φ.Lawful] (h : Heap.Matches φ β left right) {path path' : List Handle}
    (hpath : List.Forall₂ β path path') (hvw : Value.Matches β v w) :
    left.printed path v = right.printed path' w := by
  induction hcount : left.unopened path using Nat.strongRecOn generalizing path path' v w with
  | _ count ih =>
    subst hcount
    cases hvw with
    | null | bool | number => rw [Heap.printed, Heap.printed]
    | @object a b hab =>
      obtain ⟨x, y, hx, hy, hxy⟩ := h.objects hab
      cases hxy with
      | function hfg =>
        rw [printed_function hx, printed_function hy, FunctionMatch.Lawful.name_eq hfg]
      | native native => rw [printed_native hx, printed_native hy]
      | string text => rw [printed_string hx, printed_string hy]
      | @list xs ys hitems =>
        have hmem := h.mem_iff hpath hab
        by_cases hinside : a ∈ path
        · rw [printed_cut hx hinside, printed_cut hy (hmem.1 hinside)]
        · rw [printed_list hx hinside, printed_list hy fun hb => hinside (hmem.2 hb)]
          have htexts : xs.toList.map (left.printed (a :: path)) =
              ys.toList.map (right.printed (b :: path')) := by
            refine List.forall₂_eq_eq_eq ▸ ?_
            rw [List.forall₂_map_left_iff, List.forall₂_map_right_iff]
            exact hitems.forall₂.imp fun _ _ hvw =>
              ih _ (unopened_cons_lt hx hinside) (.cons hab hpath) hvw rfl
          rw [htexts]

/-- Matching values have the same text. -/
theorem display [φ.Lawful] (h : Heap.Matches φ β left right) (hvw : Value.Matches β v w) :
    left.display v = right.display w := by
  unfold Heap.display
  rw [displayPieces_eq_pending, displayPieces_eq_pending, pending, pending, pending, pending,
    h.printed .nil hvw]

end Heap.Matches

end ScriptMachine
