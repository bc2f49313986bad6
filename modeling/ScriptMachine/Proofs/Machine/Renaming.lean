import ScriptMachine.Machine.Run
import ScriptMachine.Proofs.Machine.Actions
import ScriptMachine.Proofs.Machine.Natives

/-!
# Instructions up to handles

Two machines whose memories agree up to handles do the same: performing an
instruction on both gives the same fault or goes on to the same place, with
memories that agree again (`perform_respects`). The renaming may have grown by
what was allocated, so computations are compared under every renaming that
extends the one at hand (`Respects`), and comparisons compose
(`Respects.bind`).
-/

namespace ScriptMachine

variable {κ σ : Type} {β γ : Renaming}

/-! ## What is compared -/

/-- Functions with the same code, up to the handles among their constants. -/
def Function.Matches : FunctionMatch := fun β f g =>
  f.name = g.name ∧ f.arity = g.arity ∧ f.chunk.code = g.chunk.code ∧
    f.chunk.lines = g.chunk.lines ∧
    Pointwise (Value.Matches β) f.chunk.constants g.chunk.constants

instance : Function.Matches.Lawful where
  name_eq h := h.1
  arity_eq h := h.2.1
  mono hle h := ⟨h.1, h.2.1, h.2.2.1, h.2.2.2.1, h.2.2.2.2.mono (Value.Matches.mono hle)⟩
  restrict := by
    intro β f g keep h hkeep
    refine ⟨h.1, h.2.1, h.2.2.1, h.2.2.2.1, fun i => rel_imp (h.2.2.2.2 i) ?_⟩
    intro v w hv hvw
    refine hvw.restrict fun {a} ha => hkeep a ?_
    exact List.mem_filterMap.2 ⟨v, Array.mem_toList_iff.2 (Array.mem_of_getElem? hv), ha⟩

theorem Function.Matches.fetch_eq {f g : Function} (h : Function.Matches β f g) (ip : Nat) :
    f.chunk.fetch ip = g.chunk.fetch ip := by
  unfold Chunk.fetch
  rw [h.2.2.1, h.2.2.2.2.size_eq]

theorem Function.Matches.lineAt_eq {f g : Function} (h : Function.Matches β f g) (offset : Nat) :
    f.chunk.lineAt offset = g.chunk.lineAt offset := by
  unfold Chunk.lineAt
  rw [h.2.2.2.1]

structure Frame.Matches (β : Renaming) (left right : Frame) : Prop where
  handle : β left.handle right.handle
  function : Function.Matches β left.function right.function
  base : left.base = right.base
  ip : left.ip = right.ip

theorem Frame.Matches.mono (hle : β ≤ γ) {left right : Frame} (h : Frame.Matches β left right) :
    Frame.Matches γ left right :=
  ⟨hle _ _ h.handle, FunctionMatch.Lawful.mono hle h.function, h.base, h.ip⟩

/-- Memories that agree up to handles. When they next collect garbage is not
compared. -/
structure Memory.Matches (β : Renaming) (left right : Memory κ σ) : Prop where
  heap : Heap.Matches Function.Matches β left.heap right.heap
  stack : Pointwise (Value.Matches β) left.stack right.stack
  globals : Pointwise (Value.Matches β) left.globals right.globals
  output : left.output = right.output
  host : left.host = right.host

/-- Environments that differ at most in the policy of collection and in
handles. -/
structure Environment.Matches (β : Renaming) (left right : Environment κ σ) : Prop where
  maxFrames : left.config.maxFrames = right.config.maxFrames
  maxStack : left.config.maxStack = right.config.maxStack
  methods : List.Forall₂ (fun a b => a.1 = b.1 ∧ β a.2 b.2) left.methods right.methods
  call : RespectsRenaming Function.Matches left.call right.call

theorem Environment.Matches.mono (hle : β ≤ γ) {left right : Environment κ σ}
    (h : Environment.Matches β left right) : Environment.Matches γ left right :=
  ⟨h.maxFrames, h.maxStack, h.methods.imp fun _ _ hab => ⟨hab.1, hle _ _ hab.2⟩, h.call⟩

inductive Transfer.Matches (β : Renaming) : Transfer → Transfer → Prop
  | next : Matches β .next .next
  | jump (distance : Nat) : Matches β (.jump distance) (.jump distance)
  | enter {a b : Handle} {f g : Function} (hab : β a b) (hfg : Function.Matches β f g)
      (argc : Nat) : Matches β (.enter a f argc) (.enter b g argc)
  | leave {v w : Value} (h : Value.Matches β v w) : Matches β (.leave v) (.leave w)

/-! ## Computations up to handles -/

/-- Outcomes of two computations that started from memories related by `β`. -/
inductive ActMatches {α α' : Type} (β : Renaming) (R : Renaming → α → α' → Prop) :
    EStateM.Result Fault (Memory κ σ) α → EStateM.Result Fault (Memory κ σ) α' → Prop
  | ok {γ : Renaming} {a : α} {a' : α'} {m m' : Memory κ σ} (hle : β ≤ γ)
      (hm : Memory.Matches γ m m') (h : R γ a a') : ActMatches β R (.ok a m) (.ok a' m')
  | error {γ : Renaming} {m m' : Memory κ σ} (hle : β ≤ γ) (hm : Memory.Matches γ m m')
      (fault : Fault) : ActMatches β R (.error fault m) (.error fault m')

theorem ActMatches.widen {α α' : Type} {R : Renaming → α → α' → Prop}
    {r : EStateM.Result Fault (Memory κ σ) α} {r' : EStateM.Result Fault (Memory κ σ) α'}
    (hle : β ≤ γ) (h : ActMatches γ R r r') : ActMatches β R r r' := by
  cases h with
  | ok hle' hm h => exact .ok (le_trans hle hle') hm h
  | error hle' hm fault => exact .error (le_trans hle hle') hm fault

/-- Two computations that do the same up to handles, under every renaming that
extends `β`. -/
def Respects {α α' : Type} (β : Renaming) (R : Renaming → α → α' → Prop) (x : Act κ σ α)
    (y : Act κ σ α') : Prop :=
  ∀ (γ : Renaming) (m m' : Memory κ σ), β ≤ γ → Memory.Matches γ m m' →
    ActMatches γ R (x m) (y m')

/-- Results that are not compared. -/
abbrev Anything : Renaming → Unit → Unit → Prop := fun _ _ _ => True

namespace Respects

variable {α α' δ δ' : Type} {R : Renaming → α → α' → Prop} {S : Renaming → δ → δ' → Prop}

theorem mono {x : Act κ σ α} {y : Act κ σ α'} (hle : β ≤ γ) (h : Respects β R x y) :
    Respects γ R x y :=
  fun _ _ _ hle' hm => h _ _ _ (le_trans hle hle') hm

theorem pure {a : α} {b : α'} (h : ∀ γ, β ≤ γ → R γ a b) :
    Respects (κ := κ) (σ := σ) β R (Pure.pure a) (Pure.pure b) :=
  fun _ _ _ hle hm => .ok (le_refl _) hm (h _ hle)

theorem throw (fault : Fault) :
    Respects β R (throwThe Fault fault : Act κ σ α) (throwThe Fault fault : Act κ σ α') :=
  fun _ _ _ _ hm => .error (le_refl _) hm fault

theorem bind {x : Act κ σ α} {y : Act κ σ α'} {k : α → Act κ σ δ} {l : α' → Act κ σ δ'}
    (hx : Respects β R x y)
    (hk : ∀ {γ a b}, β ≤ γ → R γ a b → Respects γ S (k a) (l b)) :
    Respects β S (x >>= k) (y >>= l) := by
  intro γ m m' hle hm
  have hxy := hx γ m m' hle hm
  show ActMatches γ S (EStateM.bind x k m) (EStateM.bind y l m')
  unfold EStateM.bind
  generalize x m = r at hxy
  generalize y m' = r' at hxy
  cases hxy with
  | @error δ n n' hle' hn fault => exact .error hle' hn fault
  | @ok δ a b n n' hle' hn hab =>
    exact (hk (le_trans hle hle') hab δ n n' (le_refl δ) hn).widen hle'

/-- Two faults or results that agree, each raised or returned. -/
theorem onHeap {T : α → α' → Prop} {x : Except HeapFault α} {y : Except HeapFault α'}
    (h : Agree T x y) :
    Respects (κ := κ) (σ := σ) β (fun _ => T) (onHeap x) (ScriptMachine.onHeap y) := by
  cases h with
  | ok hab => exact .pure fun _ _ => hab
  | error fault => exact .throw _

end Respects

theorem respects_get : Respects (κ := κ) (σ := σ) β Memory.Matches get get :=
  fun _ _ _ _ hm => .ok (le_refl _) hm hm

theorem Respects.withMatch {α α' : Type} {R : Renaming → α → α' → Prop} {x : Act κ σ α}
    {y : Act κ σ α'} (h : Respects β R x y) :
    Respects β (fun γ a b => R γ a b ∧ ∃ m m' : Memory κ σ, Memory.Matches γ m m') x y := by
  intro γ m m' hle hm
  have hxy := h γ m m' hle hm
  generalize x m = r at hxy
  generalize y m' = r' at hxy
  cases hxy with
  | ok hle' hn hab => exact .ok hle' hn ⟨hab, _, _, hn⟩
  | error hle' hn fault => exact .error hle' hn fault

theorem respects_modify {f g : Memory κ σ → Memory κ σ}
    (h : ∀ {γ m m'}, β ≤ γ → Memory.Matches γ m m' → Memory.Matches γ (f m) (g m')) :
    Respects β Anything (modify f) (modify g) :=
  fun _ _ _ hle hm => .ok (le_refl _) (h hle hm) trivial

theorem Memory.Matches.withStack {m m' : Memory κ σ} (hm : Memory.Matches γ m m')
    {stack stack' : Array Value} (h : Pointwise (Value.Matches γ) stack stack') :
    Memory.Matches γ { m with stack } { m' with stack := stack' } :=
  ⟨hm.heap, h, hm.globals, hm.output, hm.host⟩

theorem Memory.Matches.withHeap (hle : γ ≤ β) {m m' : Memory κ σ} (hm : Memory.Matches γ m m')
    {heap heap' : Heap κ} (h : Heap.Matches Function.Matches β heap heap') :
    Memory.Matches β { m with heap } { m' with heap := heap' } :=
  ⟨h, hm.stack.mono (Value.Matches.mono hle), hm.globals.mono (Value.Matches.mono hle),
    hm.output, hm.host⟩

/-! ## The actions -/

section Actions

variable {env env' : Environment κ σ} (henv : Environment.Matches β env env')

include henv in
theorem push_respects {v w : Value} (h : Value.Matches β v w) :
    Respects (κ := κ) (σ := σ) β Anything (push env.config v) (push env'.config w) := by
  intro γ m m' hle hm
  rw [push_apply, push_apply, henv.maxStack, hm.stack.size_eq]
  split
  · exact .error (le_refl γ) hm _
  · exact .ok (le_refl γ) (hm.withStack (hm.stack.push (h.mono hle))) trivial

theorem pop_respects : Respects (κ := κ) (σ := σ) β Value.Matches pop pop := by
  intro γ m m' _ hm
  rw [pop_apply, pop_apply]
  have hback := hm.stack.back?
  generalize m.stack.back? = top at hback
  generalize m'.stack.back? = top' at hback
  cases hback with
  | none => exact .error (le_refl γ) hm _
  | some hvw => exact .ok (le_refl γ) (hm.withStack hm.stack.pop) hvw

theorem peek_respects (distance : Nat) :
    Respects (κ := κ) (σ := σ) β Value.Matches (peek distance) (peek distance) := by
  intro γ m m' _ hm
  rw [peek_apply, peek_apply, hm.stack.size_eq]
  by_cases hinside : distance < m'.stack.size
  · rw [if_pos hinside, if_pos hinside]
    have hvalue := hm.stack (m'.stack.size - (distance + 1))
    generalize m.stack[m'.stack.size - (distance + 1)]? = found at hvalue
    generalize m'.stack[m'.stack.size - (distance + 1)]? = found' at hvalue
    cases hvalue with
    | none => exact .error (le_refl γ) hm _
    | some hvw => exact .ok (le_refl γ) hm hvw
  · rw [if_neg hinside, if_neg hinside]
    exact .error (le_refl γ) hm _

theorem popMany_respects (count : Nat) :
    Respects (κ := κ) (σ := σ) β (fun γ => Pointwise (Value.Matches γ)) (popMany count)
      (popMany count) := by
  intro γ m m' _ hm
  rw [popMany_apply, popMany_apply, hm.stack.size_eq]
  split
  · exact .error (le_refl γ) hm _
  · exact .ok (le_refl γ) (hm.withStack (hm.stack.shrink _)) (hm.stack.extract _ _)

/-- A result of an operator on numbers holds no handle. -/
def Value.IsPlain (v : Value) : Prop := ∀ β, Value.Matches β v v

include henv in
theorem numericBinary_respects {op : Float → Float → Value} (hop : ∀ a b, (op a b).IsPlain) :
    Respects (κ := κ) (σ := σ) β Anything (numericBinary env.config op)
      (numericBinary env'.config op) := by
  refine .bind pop_respects fun hle hright => ?_
  refine .bind pop_respects fun hle' hleft => ?_
  cases hleft with
  | number a =>
    cases hright with
    | number b => exact push_respects (henv.mono (le_trans hle hle')) (hop a b _)
    | null => exact .throw _
    | bool _ => exact .throw _
    | object _ => exact .throw _
  | null => exact .throw _
  | bool _ => exact .throw _
  | object _ => exact .throw _

theorem subscript_respects {v w : Value} (h : Value.Matches β v w) :
    Respects (κ := κ) (σ := σ) β (fun γ a b => γ a b) (subscript v) (subscript w) := by
  cases h with
  | null => exact .throw _
  | bool _ => exact .throw _
  | number _ => exact .throw _
  | @object a b hab =>
    refine .bind respects_get fun {γ m m'} hle hm => ?_
    refine .bind (R := fun _ => Eq) ?_ fun {γ' kind kind'} hle' hkind => ?_
    · rw [hm.heap.kind_eq (hle _ _ hab)]
      cases m'.heap.kind b with
      | ok kind => exact .pure fun _ _ => rfl
      | error fault => exact .throw _
    · subst hkind
      split
      · exact .pure fun _ hle'' => hle'' _ _ (hle' _ _ (hle _ _ hab))
      · exact .throw _

theorem listPosition_agree {index index' : Value} (h : Value.Matches β index index')
    {size size' : Nat} (hsize : size = size') :
    Agree (fun i j => i.val = j.val) (listPosition index size) (listPosition index' size') := by
  subst hsize
  have heq : listPosition index size = listPosition index' size := by cases h <;> rfl
  rw [heq]
  cases listPosition index' size with
  | ok position => exact .ok rfl
  | error fault => exact .error fault

theorem getElement_respects {base base' index index' : Value} (hbase : Value.Matches β base base')
    (hindex : Value.Matches β index index') :
    Respects (κ := κ) (σ := σ) β Value.Matches (getElement base index)
      (getElement base' index') := by
  refine .bind (subscript_respects hbase) fun {γ a b} hle hab => ?_
  refine .bind respects_get fun {γ₁ m m'} hle₁ hm => ?_
  refine .bind (.onHeap (hm.heap.list (hle₁ _ _ hab))) fun {γ₂ xs ys} hle₂ hitems => ?_
  have hposition := listPosition_agree hindex hitems.size_eq
  generalize listPosition index xs.size = found at hposition
  generalize listPosition index' ys.size = found' at hposition
  cases hposition with
  | error fault => exact .throw fault
  | @ok i j hij =>
    have hvw := hitems.getElem (hij ▸ i.2 : j.val < xs.size) j.2
    simp only [Fin.getElem_fin, hij]
    exact .pure fun _ hle₃ => hvw.mono (le_trans hle₂ hle₃)

theorem setElement_respects {base base' index index' v w : Value}
    (hbase : Value.Matches β base base') (hindex : Value.Matches β index index')
    (hvw : Value.Matches β v w) :
    Respects (κ := κ) (σ := σ) β Anything (setElement base index v)
      (setElement base' index' w) := by
  refine .bind (subscript_respects hbase) fun {γ a b} hle hab => ?_
  refine .bind respects_get fun {γ₁ m m'} hle₁ hm => ?_
  refine .bind (.onHeap (hm.heap.list (hle₁ _ _ hab))) fun {γ₂ xs ys} hle₂ hitems => ?_
  have hposition := listPosition_agree hindex hitems.size_eq
  dsimp only
  generalize listPosition index xs.size = found at hposition
  generalize listPosition index' ys.size = found' at hposition
  cases hposition with
  | error fault => exact .throw fault
  | @ok i j hij =>
    dsimp only
    rw [hij]
    refine respects_modify fun hle₃ hm' => hm'.withHeap (le_refl _) ?_
    have hle₄ := le_trans hle₁ (le_trans hle₂ hle₃)
    exact hm'.heap.modifyList (hle₄ _ _ hab) fun hxy =>
      hxy.setIfInBounds _ (hvw.mono (le_trans hle hle₄))

theorem allocList_respects {xs ys : Array Value} (h : Pointwise (Value.Matches β) xs ys) :
    Respects (κ := κ) (σ := σ) β (fun γ a b => γ a b)
      (modifyGet fun m =>
        ((m.heap.alloc (.list xs)).1, { m with heap := (m.heap.alloc (.list xs)).2 }))
      (modifyGet fun m =>
        ((m.heap.alloc (.list ys)).1, { m with heap := (m.heap.alloc (.list ys)).2 })) := by
  intro γ m m' hle hm
  have hheap := hm.heap.alloc (.list (h.mono (Value.Matches.mono hle)))
  exact .ok (γ.le_extend _ _) (hm.withHeap (γ.le_extend _ _) hheap) (.inr ⟨rfl, rfl⟩)

theorem checkArity_respects (name : String) (arity argc : Nat) :
    Respects (κ := κ) (σ := σ) β Anything (checkArity name arity argc)
      (checkArity name arity argc) := by
  unfold checkArity
  split
  · exact .throw _
  · exact .pure fun _ _ => trivial

include henv in
theorem callNative_respects (code : κ) (popped argc : Nat) :
    Respects β Anything (callNative env code popped argc) (callNative env' code popped argc) := by
  intro γ m m' hle hm
  rw [callNative_apply, callNative_apply, ← hm.host, hm.stack.size_eq]
  have hargs := (hm.stack.extract (m'.stack.size - argc) m'.stack.size).forall₂
  have hcall := henv.call code m.host hm.heap hargs
  generalize env.call code _ (m.heap, m.host) = outcome at hcall
  generalize env'.call code _ (m'.heap, m.host) = outcome' at hcall
  obtain ⟨result, heap, host⟩ := outcome
  obtain ⟨result', heap', host'⟩ := outcome'
  obtain ⟨hhost, δ, hle', hheap, hresult⟩ := hcall
  have hm' : Memory.Matches δ { m with heap, host } { m' with heap := heap', host := host' } :=
    ⟨hheap, hm.stack.mono (Value.Matches.mono hle'), hm.globals.mono (Value.Matches.mono hle'),
      hm.output, hhost⟩
  cases hresult with
  | error message => exact .error hle' hm' _
  | ok hvw =>
    have hstack := hm'.stack.shrink (m.stack.size - popped)
    have hpush := push_respects (henv.mono (le_trans hle hle')) hvw δ _ _ (le_refl δ)
      (hm'.withStack hstack)
    dsimp only
    rw [← hm.stack.size_eq]
    exact hpush.widen hle'

include henv in
theorem callValue_respects (argc : Nat) :
    Respects β Transfer.Matches (callValue env argc) (callValue env' argc) := by
  refine .bind (peek_respects argc) fun {γ v w} hle hvw => ?_
  cases hvw with
  | null => exact .bind respects_get fun _ hm => hm.heap.typeName_eq .null ▸ .throw _
  | bool b => exact .bind respects_get fun _ hm => hm.heap.typeName_eq (.bool b) ▸ .throw _
  | number x => exact .bind respects_get fun _ hm => hm.heap.typeName_eq (.number x) ▸ .throw _
  | @object a b hab =>
    refine .bind respects_get fun {γ₁ m m'} hle₁ hm => ?_
    refine .bind (.onHeap (hm.heap.get (hle₁ _ _ hab))) fun {γ₂ x y} hle₂ hxy => ?_
    cases hxy with
    | list h => exact .throw _
    | string text => exact .throw _
    | @function f g hfg =>
      dsimp only
      rw [hfg.1, hfg.2.1]
      refine .bind (checkArity_respects _ _ _) fun {γ₃ _ _} hle₃ _ => ?_
      refine .pure fun γ₄ hle₄ => ?_
      have hle' := le_trans hle₂ (le_trans hle₃ hle₄)
      exact .enter (hle' _ _ (hle₁ _ _ hab)) (FunctionMatch.Lawful.mono hle' hfg) argc
    | native n =>
      refine .bind (checkArity_respects _ _ _) fun {γ₃ _ _} hle₃ _ => ?_
      have henv' := henv.mono (le_trans hle (le_trans hle₁ (le_trans hle₂ hle₃)))
      refine .bind (callNative_respects henv' _ _ _) fun _ _ => ?_
      exact .pure fun _ _ => .next

theorem find?_rel {methods methods' : MethodTable}
    (h : List.Forall₂ (fun a b => a.1 = b.1 ∧ β a.2 b.2) methods methods') (kind : ObjectKind)
    (name : String) : Option.Rel β (methods.find? kind name) (methods'.find? kind name) := by
  unfold MethodTable.find?
  induction h with
  | nil => exact .none
  | @cons a b _ _ hab _ ih =>
    obtain ⟨key, native⟩ := a
    obtain ⟨key', native'⟩ := b
    obtain ⟨rfl, hnative⟩ := hab
    simp only [List.lookup_cons]
    cases (kind, name) == key with
    | true => exact .some hnative
    | false => exact ih

include henv in
theorem findMethod_respects (name : String) {v w : Value} (hvw : Value.Matches β v w) :
    Respects β (fun γ a b => γ a b) (findMethod env name v) (findMethod env' name w) := by
  -- What is done with the method found, whichever way the search went.
  have hfound : ∀ {γ x y}, β ≤ γ → Option.Rel γ x y →
      Respects (κ := κ) (σ := σ) γ (fun γ a b => γ a b)
        (answered name v x) (answered name w y) := by
    intro γ x y hle hxy
    cases hxy with
    | some hab => exact .pure fun _ hle' => hle' _ _ hab
    | none =>
      refine .bind respects_get fun hle' hm => ?_
      rw [hm.heap.typeName_eq (hvw.mono (le_trans hle hle'))]
      exact .throw _
  unfold findMethod
  cases hvw with
  | null => exact hfound (le_refl β) .none
  | bool _ => exact hfound (le_refl β) .none
  | number _ => exact hfound (le_refl β) .none
  | object hab =>
    refine .bind respects_get fun {γ₁ m m'} hle₁ hm => ?_
    rw [hm.heap.kind_eq (hle₁ _ _ hab)]
    refine .bind (R := fun _ => Eq) (.onHeap (T := Eq) ?_) fun hle₂ hkind => ?_
    · cases m'.heap.kind _ with
      | ok kind => exact .ok rfl
      | error fault => exact .error fault
    · subst hkind
      have hle := le_trans hle₁ hle₂
      exact hfound hle (find?_rel (henv.mono hle).methods _ _)

include henv in
theorem invoke_respects {v w : Value} (hvw : Value.Matches β v w) (argc : Nat) :
    Respects β Anything (invoke env v argc) (invoke env' w argc) := by
  cases hvw with
  | null => exact .throw _
  | bool _ => exact .throw _
  | number _ => exact .throw _
  | object hab =>
    refine .bind respects_get fun {γ₁ m m'} hle₁ hm => ?_
    refine .bind (.onHeap (hm.heap.string (hle₁ _ _ hab))) fun {γ₂ name _} hle₂ hname => ?_
    subst hname
    refine .bind (peek_respects argc) fun {γ₃ r r'} hle₃ hreceiver => ?_
    have hle := le_trans hle₁ (le_trans hle₂ hle₃)
    refine .bind (findMethod_respects (henv.mono hle) name hreceiver) fun {γ₄ f g} hle₄ hfg => ?_
    refine .bind respects_get fun {γ₅ n n'} hle₅ hn => ?_
    refine .bind (.onHeap (hn.heap.native (hle₅ _ _ hfg))) fun {γ₆ x _} hle₆ hnative => ?_
    subst hnative
    refine .bind (checkArity_respects _ _ _) fun hle₇ _ => ?_
    have hle' := le_trans hle₄ (le_trans hle₅ (le_trans hle₆ hle₇))
    exact callNative_respects (henv.mono (le_trans hle hle')) _ _ _

theorem constantAt_respects {frame frame' : Frame} (h : Frame.Matches β frame frame')
    (index : UInt8) :
    Respects (κ := κ) (σ := σ) β Value.Matches (constantAt frame index)
      (constantAt frame' index) := by
  have hconstant := h.function.2.2.2.2 index.toNat
  unfold constantAt
  generalize frame.function.chunk.constants[index.toNat]? = found at hconstant
  generalize frame'.function.chunk.constants[index.toNat]? = found' at hconstant
  cases hconstant with
  | some hvw => exact .pure fun _ hle => hvw.mono hle
  | none => exact .throw _

theorem jumpIf_respects (expected : Bool) (distance : Nat) :
    Respects (κ := κ) (σ := σ) β Transfer.Matches (jumpIf expected distance)
      (jumpIf expected distance) := by
  refine .bind (peek_respects 0) fun hle hvw => ?_
  cases hvw with
  | null => exact .throw _
  | number _ => exact .throw _
  | object _ => exact .throw _
  | bool b =>
    refine .pure fun _ _ => ?_
    split
    · exact .jump distance
    · exact .next

theorem Respects.next {x y : Act κ σ Unit} (h : Respects β Anything x y) :
    Respects β Transfer.Matches (do x; return .next) (do y; return .next) :=
  h.bind fun _ _ => .pure fun _ _ => .next

include henv in
/-- Instructions do the same on memories that agree up to handles. -/
theorem perform_respects {frame frame' : Frame} (hframe : Frame.Matches β frame frame')
    (i : Instruction) :
    Respects β Transfer.Matches (perform env frame i) (perform env' frame' i) := by
  unfold perform
  cases i.opcode with
  | constant =>
    refine .bind (constantAt_respects hframe _) fun hle hvw => ?_
    exact (push_respects (henv.mono hle) hvw).next
  | loadNull => exact (push_respects henv .null).next
  | loadTrue => exact (push_respects henv (.bool true)).next
  | loadFalse => exact (push_respects henv (.bool false)).next
  | pop => exact .bind pop_respects fun _ _ => .pure fun _ _ => .next
  | popN =>
    refine .next (respects_modify fun hle hm => ?_)
    rw [hm.stack.size_eq]
    exact hm.withStack (hm.stack.shrink _)
  | getLocal =>
    refine .bind respects_get fun {γ m m'} hle hm => ?_
    have hfound := hm.stack (frame'.base + i.first.toNat)
    rw [hframe.base]
    generalize m.stack[frame'.base + i.first.toNat]? = found at hfound
    generalize m'.stack[frame'.base + i.first.toNat]? = found' at hfound
    cases hfound with
    | some hvw => exact (push_respects (henv.mono hle) hvw).next
    | none => exact .next (.throw _)
  | setLocal =>
    refine .bind respects_get fun hle hm => ?_
    dsimp only
    rw [hframe.base, hm.stack.size_eq]
    split
    · exact .throw _
    · refine .bind (peek_respects 0) fun hle₁ hvw => .next (respects_modify fun hle₂ hn => ?_)
      exact hn.withStack (hn.stack.setIfInBounds _ (hvw.mono hle₂))
  | getGlobal =>
    refine .bind respects_get fun {γ m m'} hle hm => ?_
    have hfound := hm.globals i.first.toNat
    dsimp only
    generalize m.globals[i.first.toNat]? = found at hfound
    generalize m'.globals[i.first.toNat]? = found' at hfound
    cases hfound with
    | some hvw => exact (push_respects (henv.mono hle) hvw).next
    | none => exact .next (.throw _)
  | setGlobal =>
    refine .bind (peek_respects 0) fun hle hvw => ?_
    refine .bind respects_get fun hle₁ hm => ?_
    dsimp only
    rw [hm.globals.size_eq]
    split
    · exact .throw _
    · refine .next (respects_modify fun hle₂ hn => ?_)
      exact ⟨hn.heap, hn.stack, hn.globals.setIfInBounds _ (hvw.mono (le_trans hle₁ hle₂)),
        hn.output, hn.host⟩
  | add => exact (numericBinary_respects henv fun _ _ _ => .number _).next
  | sub => exact (numericBinary_respects henv fun _ _ _ => .number _).next
  | mul => exact (numericBinary_respects henv fun _ _ _ => .number _).next
  | div => exact (numericBinary_respects henv fun _ _ _ => .number _).next
  | floorDiv => exact (numericBinary_respects henv fun _ _ _ => .number _).next
  | mod => exact (numericBinary_respects henv fun _ _ _ => .number _).next
  | less => exact (numericBinary_respects henv fun _ _ _ => .bool _).next
  | lessEqual => exact (numericBinary_respects henv fun _ _ _ => .bool _).next
  | greater => exact (numericBinary_respects henv fun _ _ _ => .bool _).next
  | greaterEqual => exact (numericBinary_respects henv fun _ _ _ => .bool _).next
  | equal =>
    refine .bind pop_respects fun hle hright => ?_
    refine .bind (pop_respects.withMatch) fun hle₁ hleft => ?_
    obtain ⟨hleft, _, _, hm⟩ := hleft
    rw [hleft.equals_eq hm.heap.biUnique (hright.mono hle₁)]
    exact (push_respects (henv.mono (le_trans hle hle₁)) (.bool _)).next
  | notEqual =>
    refine .bind pop_respects fun hle hright => ?_
    refine .bind (pop_respects.withMatch) fun hle₁ hleft => ?_
    obtain ⟨hleft, _, _, hm⟩ := hleft
    rw [hleft.equals_eq hm.heap.biUnique (hright.mono hle₁)]
    exact (push_respects (henv.mono (le_trans hle hle₁)) (.bool _)).next
  | negate =>
    refine .bind pop_respects fun hle hvw => ?_
    cases hvw with
    | number x => exact (push_respects (henv.mono hle) (.number _)).next
    | null => exact .next (.throw _)
    | bool _ => exact .next (.throw _)
    | object _ => exact .next (.throw _)
  | invert =>
    refine .bind pop_respects fun hle hvw => ?_
    cases hvw with
    | bool _ => exact (push_respects (henv.mono hle) (.bool _)).next
    | null => exact .next (.throw _)
    | number _ => exact .next (.throw _)
    | object _ => exact .next (.throw _)
  | makeList =>
    refine .bind (popMany_respects _) fun hle hitems => ?_
    refine .bind (allocList_respects hitems) fun hle₁ hab => ?_
    exact (push_respects (henv.mono (le_trans hle hle₁)) (.object hab)).next
  | getIndex =>
    refine .bind pop_respects fun hle hindex => ?_
    refine .bind pop_respects fun hle₁ hbase => ?_
    refine .bind (getElement_respects hbase (hindex.mono hle₁)) fun hle₂ hvw => ?_
    exact (push_respects (henv.mono (le_trans hle (le_trans hle₁ hle₂))) hvw).next
  | setIndex =>
    refine .bind pop_respects fun hle hvw => ?_
    refine .bind pop_respects fun hle₁ hindex => ?_
    refine .bind pop_respects fun hle₂ hbase => ?_
    have hvw' := hvw.mono (le_trans hle₁ hle₂)
    refine .bind (setElement_respects hbase (hindex.mono hle₂) hvw') fun hle₃ _ => ?_
    have hle' := le_trans hle (le_trans hle₁ (le_trans hle₂ hle₃))
    exact (push_respects (henv.mono hle') (hvw'.mono hle₃)).next
  | jump => exact .pure fun _ _ => .jump _
  | jumpIfFalse => exact jumpIf_respects false _
  | jumpIfTrue => exact jumpIf_respects true _
  | call => exact callValue_respects henv _
  | invoke =>
    refine .bind (constantAt_respects hframe _) fun hle hvw => ?_
    exact (invoke_respects (henv.mono hle) hvw _).next
  | ret => exact .bind pop_respects fun _ hvw => .pure fun _ hle => .leave (hvw.mono hle)
  | print =>
    refine .bind pop_respects fun hle hvw => ?_
    refine .bind respects_get fun hle₁ hm => ?_
    refine .next (respects_modify fun hle₂ hn => ?_)
    have htext := hm.heap.display (hvw.mono hle₁)
    exact ⟨hn.heap, hn.stack, hn.globals, by rw [hn.output, htext], hn.host⟩

end Actions

end ScriptMachine
