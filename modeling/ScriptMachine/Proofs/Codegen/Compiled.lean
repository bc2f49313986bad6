import ScriptMachine.Proofs.Codegen.Generation
import ScriptMachine.Proofs.Scope.Resolution

/-!
# What a compiled program has on the heap

A program that compiles without errors has its script and its functions on the
heap, each with the code that its source asks for, and no other functions but
those that were there before (`Program.compile_compiled`). What was on the heap before stays
there in any case (`Program.compile_kept`).
-/

namespace ScriptMachine

variable {κ : Type} {known : Handle → Prop} {globals count : Nat}

/-! ## The slots of globals -/

section Slots

variable {table : SymbolTable}

theorem setSlot_foldl (table : SymbolTable) (n : Nat) (id : SymbolId) :
    ((List.range n).zipIdx.foldl (fun table (id, slot) => table.setSlot id slot) table)[id]? =
      (table[id]?).map fun symbol =>
        if id < n then { symbol with slot := some id } else symbol := by
  induction n with
  | zero => simp
  | succ n ih =>
    rw [List.range_succ, List.zipIdx_append, List.foldl_append]
    generalize (List.range n).zipIdx.foldl _ table = folded at ih
    simp only [List.zipIdx_cons, List.zipIdx_nil, List.foldl_cons, List.foldl_nil,
      List.length_range,
      Nat.zero_add, SymbolTable.setSlot, Array.getElem?_modify, ih]
    by_cases heq : n = id
    · subst heq
      cases table[n]? <;> simp
    · have hiff : id < n + 1 ↔ id < n :=
        ⟨fun h => (Nat.lt_succ_iff_lt_or_eq.1 h).resolve_right (Ne.symm heq), Nat.lt_succ_of_lt⟩
      simp only [if_neg heq, hiff]

theorem globalIds_eq (hle : globals ≤ table.size)
    (hkind : ∀ {id : SymbolId} {symbol}, table[id]? = some symbol →
      (symbol.kind = .global ↔ id < globals)) :
    ((List.range table.size).filter fun id =>
      match table[id]? with
      | some symbol => symbol.kind = .global
      | none => false) = List.range globals := by
  have hsplit : List.range table.size =
      List.range globals ++ List.range' globals (table.size - globals) := by
    have happend := List.range'_append_1 (s := 0) (m := globals) (n := table.size - globals)
    rw [Nat.zero_add, Nat.add_sub_of_le hle] at happend
    rw [List.range_eq_range', List.range_eq_range', happend]
  have htest : ∀ id, id < table.size → ((match table[id]? with
      | some symbol => decide (symbol.kind = .global)
      | none => false) = true ↔ id < globals) := by
    intro id hid
    rw [Array.getElem?_eq_getElem hid]
    simp only [decide_eq_true_eq]
    exact hkind (Array.getElem?_eq_getElem hid)
  rw [hsplit, List.filter_append, List.filter_eq_self.2, List.filter_eq_nil_iff.2, List.append_nil]
  · intro id hid
    have hid' := List.mem_range'_1.1 hid
    rw [htest id (by omega)]
    omega
  · intro id hid
    have hid' := List.mem_range.1 hid
    exact (htest id (by omega)).2 hid'

end Slots

/-! ## Assemblies -/

/-- What generating one function works on: `count` symbols, of which the first
`globals` have their own numbers as slots. -/
structure Assembly.Fits (globals count : Nat) (a : Assembly κ) : Prop where
  wf : a.heap.WF
  symbol : ∀ {id : SymbolId}, globals ≤ id → id < count →
    ∃ symbol, a.symbols[id]? = some symbol ∧ symbol.kind = .local
  globalSlot : ∀ {id : SymbolId}, id < globals →
    ∃ symbol, a.symbols[id]? = some symbol ∧ symbol.kind = .global ∧ symbol.slot = some id
  globals_le : globals ≤ maxSlots

/-- The globals, which come first, have their own numbers as slots. -/
theorem getElem?_assignGlobalSlots {table : SymbolTable} (hle : globals ≤ table.size)
    (hkind : ∀ {id : SymbolId} {symbol}, table[id]? = some symbol →
      (symbol.kind = .global ↔ id < globals)) (id : SymbolId) :
    (assignGlobalSlots table).1[id]? = (table[id]?).map fun symbol =>
      if id < globals then { symbol with slot := some id } else symbol := by
  rw [← setSlot_foldl, ← globalIds_eq hle hkind]
  rfl

theorem assignGlobalSlots_fits {table : SymbolTable} {heap : Heap κ} (hheap : heap.WF)
    (hle : globals ≤ table.size)
    (hkind : ∀ {id : SymbolId} {symbol}, table[id]? = some symbol →
      (symbol.kind = .global ↔ id < globals))
    (herrors : (assignGlobalSlots table).2 = #[]) :
    Assembly.Fits globals table.size
      (⟨heap, (assignGlobalSlots table).1, (assignGlobalSlots table).2⟩ : Assembly κ) := by
  have hslots := getElem?_assignGlobalSlots hle hkind
  refine ⟨hheap, fun {id} hid hcount => ?_, fun {id} hid => ?_, ?_⟩
  · refine ⟨table[id], ?_, ?_⟩
    · rw [hslots, Array.getElem?_eq_getElem hcount, Option.map_some, if_neg (Nat.not_lt.2 hid)]
    · have hiff := hkind (Array.getElem?_eq_getElem hcount)
      cases hlocal : table[id].kind with
      | «local» => rfl
      | global => exact absurd (hiff.1 hlocal) (Nat.not_lt.2 hid)
  · have hlt := Nat.lt_of_lt_of_le hid hle
    refine ⟨{ table[id] with slot := some id }, ?_, ?_, rfl⟩
    · rw [hslots, Array.getElem?_eq_getElem hlt, Option.map_some, if_pos hid]
    · exact (hkind (Array.getElem?_eq_getElem hlt)).2 hid
  · -- One global too many would have been an error.
    refine Nat.le_of_not_lt fun hlt => ?_
    have hmax : (List.range globals)[maxSlots]? = some maxSlots := by simp [hlt]
    have hsymbol := Array.getElem?_eq_getElem (Nat.lt_of_lt_of_le hlt hle)
    have hnone : (match (List.range globals)[maxSlots]?.bind (table[·]?) with
        | some symbol => #[(⟨.tooManyGlobals, symbol.span⟩ : CodeError)]
        | none => #[]) = #[] := by
      rw [← globalIds_eq hle hkind]
      exact herrors
    rw [hmax, Option.bind_some, hsymbol] at hnone
    simp at hnone

/-- Generating code leaves no new functions on the heap. -/
theorem Draft.Edits.function {start : Nat} {d d' : Draft κ} (h : Draft.Edits known start d d')
    (hd : d.heap.WF) {handle : Handle} {f : Function}
    (hget : d'.heap.get handle = .ok (.function f)) :
    d.heap.get handle = .ok (.function f) := by
  induction h with
  | refl => exact hget
  | @tail d₁ d₂ hedits hedit ih =>
    refine ih ?_
    have hwf := (Draft.Edits.kept hedits hd).wf
    have hstring : ∀ {text}, (d₁.heap.alloc (.string text)).2.get handle = .ok (.function f) →
        d₁.heap.get handle = .ok (.function f) := by
      intro text hget
      rcases Heap.get_of_get_alloc hwf hget with ⟨-, heq⟩ | hget
      · cases heq
      · exact hget
    cases hedit with
    | text name => exact hstring hget
    | name name => exact hstring hget
    | _ => exact hget

/-- A function that has been added to an assembly: its code satisfies `P` on
every heap that comes later. -/
structure Assembly.Added (globals count : Nat) (a a' : Assembly κ) (handle : Handle) (name : String)
    (arity : Nat) (P : Site κ → Prop) : Prop where
  fits : a'.Fits globals count
  kept : a.heap.Kept a'.heap
  only : ∀ {h f}, a'.heap.get h = .ok (.function f) → a.heap.get h = .ok (.function f) ∨ h = handle
  placed : ∃ chunk height, a'.heap.get handle = .ok (.function ⟨name, arity, chunk⟩) ∧
    ∀ {heap}, a'.heap.Kept heap → P ⟨chunk, heap, globals, height⟩

theorem Assembly.Fits.addFunction {a : Assembly κ} (ha : a.Fits globals count) (name : String)
    (arity : Nat) {body : Gen κ Unit} {Δ : List SymbolId} {n m : Nat} {P : Site κ → Prop}
    (hbody : Emits known globals count [] Δ n m body fun _ k p _ => p = 0 → P k)
    (herrors : (a.addFunction name arity body).2.errors = #[]) :
    Assembly.Added globals count a (a.addFunction name arity body).2
      (a.addFunction name arity body).1 name arity P := by
  have hstart : Draft.Fits globals count [] ({ a with name } : Draft κ) :=
    ⟨ha.wf, Nat.zero_le _, rfl, ha.symbol, ha.globalSlot, by simp, ha.globals_le, Nat.zero_le _⟩
  have hedits := (hbody.walks 0 { a with name } (Nat.zero_le _)).1
  have herrors' : (body { a with name }).2.errors = #[] := herrors
  obtain ⟨hfits, H, -, -, hplaced⟩ := hbody.emits _ hstart herrors'
  have hkept := hedits.kept ha.wf
  refine ⟨⟨hfits.wf.alloc _, hfits.symbol, hfits.globalSlot,
    ha.globals_le⟩, hkept.alloc _, fun {h f} hget => ?_,
    (body { a with name }).2.chunk, H, Heap.get_alloc_self hfits.wf _, fun {heap} hheap => ?_⟩
  · rcases Heap.get_of_get_alloc hfits.wf hget with ⟨rfl, -⟩ | hget
    · exact .inr rfl
    · exact .inl (hedits.function ha.wf hget)
  · refine hplaced _ rfl ⟨fun _ _ _ => rfl, id, ?_, fun _ _ _ => rfl⟩ rfl
    exact ((Heap.Kept.refl hfits.wf).alloc _).trans hheap

/-! ## Programs -/

theorem addFunction_errors {a : Assembly κ} {name : String} {arity : Nat} {body : Gen κ Unit}
    (hbody : Walks known 0 AnyResult body) (h : (a.addFunction name arity body).2.errors = #[]) :
    a.errors = #[] :=
  (hbody { a with name } (Nat.zero_le _)).1.errors_eq_empty h

theorem genFns_errors : ∀ {decls : List Decl} {a : Assembly κ},
    (genFns decls a).2.errors = #[] → a.errors = #[]
  | [], _, h => h
  | .var _ :: decls, a, h => by
    have hrest : (genFns decls a).2.errors = #[] := h
    exact genFns_errors hrest
  | .fn d :: decls, a, h => by
    have hrest : (genFns decls (a.addFunction d.name d.params.length (genFnBody d)).2).2.errors =
        #[] := h
    have hbody : Walks (κ := κ) (fun _ => False) 0 AnyResult (genFnBody d) := .genFnBody d
    exact addFunction_errors hbody (genFns_errors hrest)

theorem kept_addFunction {a : Assembly κ} (h : a.heap.WF) (name : String) (arity : Nat)
    {body : Gen κ Unit} (hbody : Walks known 0 AnyResult body) :
    a.heap.Kept (a.addFunction name arity body).2.heap :=
  (allocs_addFunction name arity hbody).kept h

/-- What was on the heap stays there, also when errors are reported. -/
theorem Program.compile_kept (program : Program) {heap : Heap κ} (h : heap.WF)
    (symbols : SymbolTable) : heap.Kept (program.compile heap symbols).heap :=
  (program.compile_allocs heap symbols).kept h

/-- The declared functions with their handles, each on the heap with its code. -/
structure FnsPlaced (globals : Nat) (heap : Heap κ) (fns : List (FnDecl × Handle)) : Prop where
  placed : ∀ fn ∈ fns, ∃ chunk height,
    heap.get fn.2 = .ok (.function ⟨fn.1.name, fn.1.params.length, chunk⟩) ∧
      ∀ {heap'}, heap.Kept heap' → FnAt ⟨chunk, heap', globals, height⟩ fn.1

theorem FnsPlaced.kept {heap heap' : Heap κ} {fns : List (FnDecl × Handle)}
    (h : FnsPlaced globals heap fns) (hkept : heap.Kept heap') : FnsPlaced globals heap' fns := by
  refine ⟨fun fn hfn => ?_⟩
  obtain ⟨chunk, height, hget, hat⟩ := h.placed fn hfn
  exact ⟨chunk, height, hkept.get hget (by simp [Object.kind]), fun h => hat (hkept.trans h)⟩

/-- What generating the functions of a program gives. -/
structure Assembly.FnsAdded (globals count : Nat) (a a' : Assembly κ) (decls : List Decl)
    (fns : List (FnDecl × Handle)) : Prop where
  fits : a'.Fits globals count
  kept : a.heap.Kept a'.heap
  decls : fns.map Prod.fst = decls.filterMap Decl.fn?
  only : ∀ {h f}, a'.heap.get h = .ok (.function f) →
    a.heap.get h = .ok (.function f) ∨ ∃ fn ∈ fns, fn.2 = h
  placed : FnsPlaced globals a'.heap fns

theorem Assembly.Fits.genFns {decls : List Decl} {a : Assembly κ} (ha : a.Fits globals count)
    (hdecls : ∀ decl ∈ decls, decl.Scoped globals count)
    (herrors : (genFns decls a).2.errors = #[]) :
    Assembly.FnsAdded globals count a (genFns decls a).2 decls (genFns decls a).1 := by
  induction decls generalizing a with
  | nil => exact ⟨ha, .refl ha.wf, rfl, .inl, ⟨by simp [ScriptMachine.genFns]⟩⟩
  | cons decl decls ih =>
    have hdecls' : ∀ decl ∈ decls, decl.Scoped globals count :=
      fun decl hdecl => hdecls decl (by simp [hdecl])
    cases decl with
    | var d =>
      have hrest := ih ha hdecls' herrors
      exact ⟨hrest.fits, hrest.kept, hrest.decls, hrest.only, hrest.placed⟩
    | fn d =>
      have hd : d.Scoped globals count := hdecls (.fn d) (by simp)
      have hbody : Emits (κ := κ) (fun _ => False) globals count [] _ _ 0 (genFnBody d) _ :=
        .genFnBody hd
      have hadded := ha.addFunction d.name d.params.length hbody (genFns_errors herrors)
      have hrest := ih hadded.fits hdecls' herrors
      refine ⟨hrest.fits, hadded.kept.trans hrest.kept, ?_, fun {h f} hget => ?_,
        ⟨fun fn hfn => ?_⟩⟩
      · exact congrArg (d :: ·) hrest.decls
      · rcases hrest.only hget with hget | ⟨fn, hfn, rfl⟩
        · rcases hadded.only hget with hget | rfl
          · exact .inl hget
          · exact .inr ⟨_, List.mem_cons_self, rfl⟩
        · exact .inr ⟨fn, List.mem_cons_of_mem _ hfn, rfl⟩
      · rcases List.mem_cons.1 hfn with rfl | hfn
        · obtain ⟨chunk, height, hget, hat⟩ := hadded.placed
          exact ⟨chunk, height, hrest.kept.get hget (by simp [Object.kind]),
            fun h => hat (hrest.kept.trans h)⟩
        · exact hrest.placed.placed fn hfn

/-! ## Kinds of symbols -/

theorem addFunction_kinds {a : Assembly κ} (name : String) (arity : Nat) {body : Gen κ Unit}
    (hbody : Walks known 0 AnyResult body) :
    (a.addFunction name arity body).2.symbols.map Symbol.kind = a.symbols.map Symbol.kind :=
  (hbody { a with name } (Nat.zero_le _)).1.kinds_eq

theorem genFns_kinds (decls : List Decl) (a : Assembly κ) :
    (genFns decls a).2.symbols.map Symbol.kind = a.symbols.map Symbol.kind := by
  induction decls generalizing a with
  | nil => rfl
  | cons decl decls ih =>
    cases decl with
    | var d => exact ih a
    | fn d =>
      have hbody : Walks (κ := κ) (fun _ => False) 0 AnyResult (genFnBody d) := .genFnBody d
      exact (ih _).trans (addFunction_kinds d.name d.params.length hbody)

theorem assignGlobalSlots_kinds (table : SymbolTable) :
    (assignGlobalSlots table).1.map Symbol.kind = table.map Symbol.kind := by
  unfold assignGlobalSlots
  dsimp only
  generalize List.zipIdx _ = slots
  induction slots generalizing table with
  | nil => rfl
  | cons slot slots ih => exact (ih _).trans (table.kinds_setSlot slot.1 slot.2)

/-- Code generation does not change which symbols are globals. -/
theorem Program.compile_kinds (program : Program) (heap : Heap κ) (symbols : SymbolTable) :
    (program.compile heap symbols).symbols.map Symbol.kind = symbols.map Symbol.kind := by
  let a : Assembly κ := ⟨heap, (assignGlobalSlots symbols).1, (assignGlobalSlots symbols).2⟩
  let fns := (genFns program.decls a).1
  have hscript : Walks (κ := κ) (fun h => ∃ fn ∈ fns, fn.2 = h) 0 AnyResult
      (genScript program fns) := .genScript program fun fn hfn => ⟨fn, hfn, rfl⟩
  calc (program.compile heap symbols).symbols.map Symbol.kind
    _ = (genFns program.decls a).2.symbols.map Symbol.kind := addFunction_kinds "script" 0 hscript
    _ = (assignGlobalSlots symbols).1.map Symbol.kind := genFns_kinds program.decls a
    _ = symbols.map Symbol.kind := assignGlobalSlots_kinds symbols

theorem SymbolTable.globalCount_eq {table table' : SymbolTable}
    (h : table.map Symbol.kind = table'.map Symbol.kind) :
    table.globalCount = table'.globalCount := by
  have hcount : ∀ table : SymbolTable,
      table.globalCount = (table.map Symbol.kind).countP (· = .global) := by
    intro table
    rw [Array.countP_map]
    rfl
  rw [hcount, h, ← hcount]

/-- The globals are the first symbols, so there are as many as their numbers go. -/
theorem SymbolTable.globalCount_of_kinds {table : SymbolTable} (hle : globals ≤ table.size)
    (hkind : ∀ {id : SymbolId} {symbol}, table[id]? = some symbol →
      (symbol.kind = .global ↔ id < globals)) : table.globalCount = globals := by
  have hsplit := List.take_append_drop globals table.toList
  have hget : ∀ {id : SymbolId} {symbol}, table.toList[id]? = some symbol →
      (symbol.kind = .global ↔ id < globals) := by
    intro id symbol h
    exact hkind (by rwa [← Array.getElem?_toList])
  unfold SymbolTable.globalCount
  rw [← Array.countP_toList, ← hsplit, List.countP_append, List.countP_eq_length.2,
    List.countP_eq_zero.2]
  · rw [List.length_take, Array.length_toList]
    omega
  · intro symbol hsymbol
    obtain ⟨id, hid⟩ := List.getElem?_of_mem hsymbol
    rw [List.getElem?_drop] at hid
    simp [hget hid]
  · intro symbol hsymbol
    obtain ⟨id, hid⟩ := List.getElem?_of_mem hsymbol
    rw [List.getElem?_take] at hid
    split at hid
    · next hlt => simp [hget hid, hlt]
    · cases hid

/-- The script and the functions of a compiled program are on the heap, and no
other functions. -/
structure Compiled (hosts globals count : Nat) (program : Program) (heap : Heap κ)
    (script : Handle) (fns : List (FnDecl × Handle)) : Prop where
  wf : heap.WF
  inScope : program.Scoped hosts globals count
  globals_le : globals ≤ maxSlots
  decls : fns.map Prod.fst = program.fns
  placed : FnsPlaced globals heap fns
  scriptPlaced : ∃ chunk height, heap.get script = .ok (.function ⟨"script", 0, chunk⟩) ∧
    ∀ {heap'}, heap.Kept heap' → ScriptAt ⟨chunk, heap', globals, height⟩ program fns
  only : ∀ {h f}, heap.get h = .ok (.function f) → h = script ∨ ∃ fn ∈ fns, fn.2 = h

theorem Program.Scoped.id_lt {hosts : Nat} {program : Program}
    (h : program.Scoped hosts globals count) {decl : Decl} (hdecl : decl ∈ program.decls) :
    ∃ i, decl.id = some i ∧ i < globals := by
  have hmem : decl.id ∈ (List.range' hosts program.decls.length).map some := by
    rw [← h.ids]
    exact List.mem_map_of_mem hdecl
  obtain ⟨i, hi, hid⟩ := List.mem_map.1 hmem
  refine ⟨i, hid.symm, ?_⟩
  rw [h.globals_eq]
  exact (List.mem_range'_1.1 hi).2

theorem Program.mem_of_main? {program : Program} {i : SymbolId} (h : program.main? = some i) :
    ∃ d, .fn d ∈ program.decls ∧ d.name = "main" ∧ d.id = some i := by
  obtain ⟨decl, hdecl, hsome⟩ := List.exists_of_findSome?_eq_some h
  cases decl with
  | var d => cases hsome
  | fn d =>
    dsimp only at hsome
    split at hsome
    · next hname => exact ⟨d, hdecl, hname, hsome⟩
    · cases hsome

/-- A program in scope that compiles without errors on a heap without functions. -/
theorem Program.compile_compiled {hosts : Nat} {program : Program} {symbols : SymbolTable}
    {heap : Heap κ} (hheap : heap.WF) (hnone : ∀ {h f}, heap.get h ≠ .ok (.function f))
    (hscoped : program.Scoped hosts globals symbols.size) (hle : globals ≤ symbols.size)
    (hkind : ∀ {id : SymbolId} {symbol}, symbols[id]? = some symbol →
      (symbol.kind = .global ↔ id < globals))
    (herrors : (program.compile heap symbols).errors = []) :
    heap.Kept (program.compile heap symbols).heap ∧
      ∃ fns, Compiled hosts globals symbols.size program (program.compile heap symbols).heap
        (program.compile heap symbols).script fns := by
  let a₀ : Assembly κ := ⟨heap, (assignGlobalSlots symbols).1, (assignGlobalSlots symbols).2⟩
  let fns := (genFns program.decls a₀).1
  let a₁ := (genFns program.decls a₀).2
  have herrors₂ : (a₁.addFunction "script" 0 (genScript program fns)).2.errors = #[] :=
    Array.toList_eq_nil_iff.1 herrors
  have hwalks : Walks (κ := κ) (fun h => ∃ fn ∈ fns, fn.2 = h) 0 AnyResult
    (genScript program fns) :=
    .genScript program fun fn hfn => ⟨fn, hfn, rfl⟩
  have herrors₁ : a₁.errors = #[] := addFunction_errors hwalks herrors₂
  have hfits₀ := assignGlobalSlots_fits hheap hle hkind (genFns_errors herrors₁)
  have hfns := hfits₀.genFns hscoped.decls herrors₁
  have hdecl : ∀ fn ∈ fns, .fn fn.1 ∈ program.decls := by
    intro fn hfn
    have hmem : fn.1 ∈ fns.map Prod.fst := List.mem_map_of_mem hfn
    rw [hfns.decls] at hmem
    exact Program.mem_fns.1 hmem
  have hmain : ∀ i, program.main? = some i → i < globals := by
    intro i hi
    obtain ⟨d, hd, -, hid⟩ := Program.mem_of_main? hi
    obtain ⟨j, hj, hlt⟩ := hscoped.id_lt hd
    cases hid.symm.trans hj
    exact hlt
  have hcode : Emits (κ := κ) (fun h => ∃ fn ∈ fns, fn.2 = h) globals symbols.size [] [] 0 0
      (genScript program fns) fun _ k p _ => p = 0 → ScriptAt k program fns :=
    .genScript (fun fn hfn => ⟨fn, hfn, rfl⟩) (fun fn hfn => hscoped.id_lt (hdecl fn hfn))
      (fun decl => hscoped.id_lt) (fun d => hscoped.decls (.var d)) hmain
  have hscript := hfns.fits.addFunction "script" 0 hcode herrors₂
  refine ⟨hfns.kept.trans hscript.kept, fns, hscript.fits.wf, hscoped, hscript.fits.globals_le,
    hfns.decls, hfns.placed.kept hscript.kept, hscript.placed, fun hget => ?_⟩
  rcases hscript.only hget with hget | rfl
  · rcases hfns.only hget with hget | hfn
    · exact absurd hget hnone
    · exact .inr hfn
  · exact .inl rfl

end ScriptMachine
