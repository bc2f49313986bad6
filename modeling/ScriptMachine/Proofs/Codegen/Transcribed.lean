import ScriptMachine.Proofs.Codegen.Compiled
import ScriptMachine.Proofs.Codegen.Transcription

/-!
# Compiled programs spell their listings

The code of a compiled program is told by its listings: the chunk of the script
and those of its functions have just their bytes and lines, all symbols have got
the slots that they should have, and no other functions have been put on the heap
(`Program.compile_transcribed`). This holds of every program whose names are
settled, whether or not errors are reported.
-/

namespace ScriptMachine

variable {κ : Type} {Q : CodeFault → Prop} {globals count : Nat}

/-! ## Functions -/

/-- A chunk has the code and the lines of a listing. Its constants live on a heap,
and its operands are exact if no error has been reported. -/
structure Chunk.Transcribes (chunk : Chunk) (heap : Heap κ) (exact : Prop) (L : List Listed) :
    Prop where
  code : Spells ⟨chunk.constants, heap, exact⟩ L chunk.code.toList
  lines : chunk.lineTable = listedLines L
  pool : chunk.constants.size ≤ maxConstants

theorem Chunk.Transcribes.kept {chunk : Chunk} {heap heap' : Heap κ} {exact exact' : Prop}
    {L : List Listed} (h : chunk.Transcribes heap exact L) (hheap : heap.Kept heap')
    (hexact : exact' → exact) : chunk.Transcribes heap' exact' L :=
  ⟨h.code.keeps ⟨fun hvalue => hvalue, hheap, hexact⟩, h.lines, h.pool⟩

/-- At a handle there is a function whose chunk has the code and lines of a
listing. -/
def Heap.Transcribes (heap : Heap κ) (exact : Prop) (handle : Handle) (name : String) (arity : Nat)
    (L : List Listed) : Prop :=
  ∃ chunk : Chunk, heap.get handle = .ok (.function ⟨name, arity, chunk⟩) ∧
    chunk.Transcribes heap exact L

theorem Heap.Transcribes.kept {heap heap' : Heap κ} {exact exact' : Prop} {handle : Handle}
    {name : String} {arity : Nat} {L : List Listed}
    (h : heap.Transcribes exact handle name arity L) (hheap : heap.Kept heap')
    (hexact : exact' → exact) : heap'.Transcribes exact' handle name arity L := by
  obtain ⟨chunk, hget, hchunk⟩ := h
  exact ⟨chunk, hheap.get hget (by simp [Object.kind]), hchunk.kept hheap hexact⟩

/-- The symbols that get slots as parameters, with `n` slots taken before. -/
def paramsSlotted : List Param → Nat → List (SymbolId × Nat)
  | [], _ => []
  | p :: ps, n => p.id.toList.map (·, n) ++ paramsSlotted ps (n + 1)

/-- The symbols that get slots in a function. -/
def FnDecl.slotted (d : FnDecl) : List (SymbolId × Nat) :=
  paramsSlotted d.params 0 ++ stmtsSlotted d.body.stmts d.params.length

theorem declareParams_writes {σ : Slots} {d : Draft κ} {params : List Param}
    (hparams : paramsSettled Q params σ) (h : σ.Fits d) :
    d.Writes Q { σ with locals := σ.locals ++ params.map (·.id) } (paramsSlotted params σ.height) []
      ((params.forM fun p => declareSlot p.id p.span) d).2 := by
  induction params generalizing σ d with
  | nil =>
    rw [List.map_nil, List.append_nil]
    exact Draft.Computes.nil h
  | cons p ps ih =>
    have hp := declareSlot_writes hparams.1 h p.span
    have hps := ih hparams.2 hp.fits
    rw [height_declare] at hps
    have hall := hp.append hps
    simp only [Slots.declare, List.append_assoc, List.singleton_append] at hall
    exact hall

theorem returnListed_computes {σ : Slots} {d : Draft κ} (h : σ.Fits d) (node : Node) (n : Nat) :
    d.Computes Q σ (returnListed node n)
    (emit .ret node.line (emit .loadNull node.line d).2).2 := by
  have hnull : d.Computes Q σ [⟨.loadNull, .none, node, n⟩] _ := .emit h rfl node n
  exact hnull.append (.emit hnull.fits rfl node (n + 1))

theorem genFnBody_writes (hQ : Tolerant Q) {decl : FnDecl}
    (hdecl : (Decl.fn decl).Settled globals count Q) {d : Draft κ}
    (h : Slots.Fits ⟨globals, count, []⟩ d) :
    d.Writes Q (stmtsSlots (decl.slots globals count) decl.body.stmts) decl.slotted
      (decl.listed globals count) (genFnBody decl d).2 := by
  have hrest : ∀ {d : Draft κ}, Slots.Fits ⟨globals, count, []⟩ d →
      d.Writes Q (stmtsSlots (decl.slots globals count) decl.body.stmts) decl.slotted
        (decl.listed globals count) (Prod.snd ((do
          decl.params.forM fun p => declareSlot p.id p.span
          genStmts decl.body.stmts
          emit .loadNull decl.body.span.stop.line
          emit .ret decl.body.span.stop.line : Gen κ Unit) d)) := by
    intro d h
    have hparams := declareParams_writes hdecl.1 h
    have hbody := genStmts_writes hQ decl.body.stmts hdecl.2 hparams.fits
    have hreturn := returnListed_computes (Q := Q) hbody.fits (.bodyEnd decl)
      (stmtsSlots (decl.slots globals count) decl.body.stmts).height
    have hheight : (decl.slots globals count).height = decl.params.length := List.length_map ..
    have hall := hparams.append (hbody.append hreturn)
    rw [hheight, List.append_nil] at hall
    exact hall
  unfold genFnBody
  dsimp only
  split
  · have hmany : Q (.tooManyParams decl.name) := hQ _ nofun nofun
    have hreported := Draft.Computes.reportCode h hmany decl.nameSpan
    have hall := Draft.Writes.append hreported (hrest hreported.fits)
    exact hall
  · exact hrest h

/-! ## Scripts -/

theorem forM_computes {α : Type} {σ : Slots} {f : α → Gen κ Unit} {L : α → List Listed}
    {xs : List α} {d : Draft κ} (h : σ.Fits d)
    (hf : ∀ x ∈ xs, ∀ {d : Draft κ}, σ.Fits d → d.Computes Q σ (L x) (f x d).2) :
    d.Computes Q σ (xs.flatMap L) (xs.forM f d).2 := by
  induction xs generalizing d with
  | nil => exact .nil h
  | cons x xs ih =>
    have hx := hf x List.mem_cons_self h
    exact hx.append (ih hx.fits fun y hy => hf y (List.mem_cons_of_mem x hy))

theorem genFnStore_computes (hQ : Tolerant Q) {σ : Slots} {fn : FnDecl × Handle}
    (hid : σ.Knows fn.1.id) {d : Draft κ} (h : σ.Fits d) :
    d.Computes Q σ (fnStoreListed σ fn) (genFnStore fn.1 fn.2 d).2 := by
  let node : Node := .decl (.fn fn.1)
  have hconstant : d.Computes Q σ [⟨.constant, .constant (.object fn.2), node, 0⟩] _ :=
    .emitConstant h hQ (.object fn.2) rfl 0
  have hstore := Draft.Computes.emitStore? (Q := Q) hconstant.fits hid node 1
  exact (hconstant.append hstore).append (.emit hstore.fits rfl node 1)

theorem genVarInit_computes (hQ : Tolerant Q) {decl : Decl}
    (hid : Slots.Knows ⟨globals, count, []⟩ decl.id)
    (hdecl : decl.Settled globals count Q) {d : Draft κ} (h : Slots.Fits ⟨globals, count, []⟩ d) :
    d.Computes Q ⟨globals, count, []⟩ (varInitListed ⟨globals, count, []⟩ decl)
    (genVarInit decl d).2 := by
  cases decl with
  | fn decl => exact .nil h
  | var decl =>
    let node : Node := .decl (.var decl)
    have hvalue := genExpr?_computes hQ hdecl h node
    have hstore := Draft.Computes.emitStore? (Q := Q) hvalue.fits hid node 1
    exact (hvalue.append hstore).append (.emit hstore.fits rfl node 1)

theorem genScript_computes (hQ : Tolerant Q) {program : Program}
    (hprogram : program.Settled globals count Q)
    {fns : List (FnDecl × Handle)} (hfns : ∀ fn ∈ fns, .fn fn.1 ∈ program.decls) {d : Draft κ}
    (h : Slots.Fits ⟨globals, count, []⟩ d) :
    d.Computes Q ⟨globals, count, []⟩ (program.listed globals count fns)
    (genScript program fns d).2 := by
  let node : Node := .scriptEnd program
  have hstores : d.Computes Q ⟨globals, count, []⟩ _ _ :=
    forM_computes h fun fn hfn _ h => genFnStore_computes hQ (hprogram.ids _ (hfns fn hfn)) h
  have hinits := forM_computes hstores.fits fun decl hdecl _ h =>
    genVarInit_computes hQ (hprogram.ids decl hdecl) (hprogram.decls decl hdecl) h
  have hdecls := hstores.append hinits
  cases hmain : program.main? with
  | none =>
    have hgen : (genScript program fns d).2 = (emit .ret node.line (emit .loadNull node.line
        (program.decls.forM genVarInit (fns.forM (fun fn => genFnStore fn.1 fn.2)
          d).2).2).2).2 := by
      unfold genScript
      rw [hmain, program.endLine_eq]
      rfl
    rw [Program.listed, mainListed, ← program.main?_eq_head?, hmain, hgen, List.append_nil]
    exact hdecls.append (returnListed_computes hinits.fits node 0)
  | some id =>
    have hgen : (genScript program fns d).2 = (emit .ret node.line (emit .loadNull node.line
        (emit .pop node.line (emitWith .call 0 node.line (emitLoad id node.line
          (program.decls.forM genVarInit (fns.forM (fun fn => genFnStore fn.1 fn.2)
            d).2).2).2).2).2).2).2 := by
      unfold genScript
      rw [hmain, program.endLine_eq]
      rfl
    obtain ⟨decl, hdecl, -, hid⟩ := Program.mem_of_main? hmain
    have hknown : Slots.Knows ⟨globals, count, []⟩ (some id) := hid ▸ hprogram.ids _ hdecl
    have hload := Draft.Computes.emitLoad (Q := Q) hinits.fits hknown node 0
    have hnoArgs : ∀ b : Backing κ, Operand.Stands b 0 0 (.count 0) := fun _ _ => rfl
    have hcall : Draft.Computes Q _ _ [⟨.call, .count 0, node, 1⟩] _ :=
      .emitWith hload.fits rfl (hnoArgs _) node 1
    have hpop : Draft.Computes Q _ _ [⟨.pop, .none, node, 1⟩] _ := .emit hcall.fits rfl node 1
    rw [Program.listed, mainListed, ← program.main?_eq_head?, hmain, hgen]
    exact (hdecls.append (hload.append (hcall.append hpop))).append
      (returnListed_computes hpop.fits node 0)

/-! ## Assemblies -/

/-- An assembly with `count` symbols, of which the first `globals` are globals and
have their own numbers as slots. -/
structure Assembly.Ready (globals count : Nat) (a : Assembly κ) : Prop where
  wf : a.heap.WF
  size : a.symbols.size = count
  globalSlot : ∀ {id : SymbolId}, id < globals →
    ∃ symbol, a.symbols[id]? = some symbol ∧ symbol.kind = .global ∧ symbol.slot = some id
  localKind : ∀ {id : SymbolId} {symbol}, globals ≤ id → a.symbols[id]? = some symbol →
    symbol.kind = .local

/-- An assembly that has grown by functions `fns` and their listings, in which
symbols `A` have got slots. -/
structure Assembly.Grows (globals count : Nat) (Q : CodeFault → Prop) (A : List (SymbolId × Nat))
    (a a' : Assembly κ) : Prop where
  ready : a'.Ready globals count
  kept : a.heap.Kept a'.heap
  exact : a'.errors = #[] → a.errors = #[]
  faults : ∀ e ∈ a'.errors, e ∈ a.errors ∨ Q e.fault
  symbols : a'.symbols = a.symbols.assign A

theorem Assembly.Grows.refl {a : Assembly κ} (h : a.Ready globals count) :
    Assembly.Grows globals count Q [] a a :=
  ⟨h, .refl h.wf, id, fun _ he => .inl he, rfl⟩

theorem Assembly.Grows.trans {A A' : List (SymbolId × Nat)} {a a' a'' : Assembly κ}
    (h : Assembly.Grows globals count Q A a a') (h' : Assembly.Grows globals count Q A' a' a'') :
    Assembly.Grows globals count Q (A ++ A') a a'' := by
  refine ⟨h'.ready, h.kept.trans h'.kept, fun he => h.exact (h'.exact he), fun e he => ?_, ?_⟩
  · rcases h'.faults e he with he | he
    · exact h.faults e he
    · exact .inr he
  · rw [h'.symbols, h.symbols, SymbolTable.assign, SymbolTable.assign, SymbolTable.assign,
      List.foldl_append]

theorem Assembly.Ready.addFunction {a : Assembly κ} (h : a.Ready globals count) {name : String}
    {arity : Nat} {body : Gen κ Unit} {Δ : List (Option SymbolId)} {A : List (SymbolId × Nat)}
    {L : List Listed}
    (hbody : ∀ {d : Draft κ}, Slots.Fits ⟨globals, count, []⟩ d →
      d.Writes Q ⟨globals, count, Δ⟩ A L (body d).2) :
    Assembly.Grows globals count Q A a (a.addFunction name arity body).2 ∧
      (a.addFunction name arity body).2.heap.Transcribes
        ((a.addFunction name arity body).2.errors = #[])
        (a.addFunction name arity body).1 name arity
          L := by
  have hstart : Slots.Fits ⟨globals, count, []⟩ ({ a with name } : Draft κ) :=
    ⟨h.wf, Nat.zero_le _, h.size, rfl, h.globalSlot, h.localKind, nofun⟩
  have hwritten := hbody hstart
  have halloc := (Heap.Kept.refl hwritten.fits.wf).alloc
    (.function ⟨name, arity, (body { a with name }).2.chunk⟩)
  obtain ⟨bytes, hcode, hspells⟩ := hwritten.code
  refine ⟨⟨⟨halloc.wf, hwritten.fits.size, hwritten.fits.globalSlot, hwritten.fits.localKind⟩,
    hwritten.keeps.heap.trans halloc, hwritten.keeps.exact, hwritten.faults, hwritten.symbols⟩,
    (body { a with name }).2.chunk, Heap.get_alloc_self hwritten.fits.wf _, ?_, ?_,
      hwritten.fits.pool⟩
  · obtain rfl : (body { a with name }).2.chunk.code.toList = bytes := hcode
    exact hspells.keeps ⟨fun hvalue => hvalue, halloc, fun he => he⟩
  · exact hwritten.lines

/-- The symbols that get slots inside a top-level declaration. -/
def Decl.slotted : Decl → List (SymbolId × Nat)
  | .fn d => d.slotted
  | .var _ => []

theorem Assembly.Ready.genFns (hQ : Tolerant Q) {decls : List Decl} {a : Assembly κ}
    (h : a.Ready globals count) (hdecls : ∀ decl ∈ decls, decl.Settled globals count Q) :
    Assembly.Grows globals count Q (decls.flatMap Decl.slotted) a (genFns decls a).2 ∧
      (genFns decls a).1.map Prod.fst = decls.filterMap Decl.fn? ∧
        ∀ fn ∈ (genFns decls a).1, (genFns decls a).2.heap.Transcribes
          ((genFns decls a).2.errors = #[]) fn.2 fn.1.name fn.1.params.length
            (fn.1.listed globals count) := by
  induction decls generalizing a with
  | nil => exact ⟨.refl h, rfl, nofun⟩
  | cons decl decls ih =>
    obtain ⟨hdecl, hrest⟩ := List.forall_mem_cons.1 hdecls
    cases decl with
    | var d => exact ih h hrest
    | fn d =>
      obtain ⟨Δ, hΔ⟩ := exists_stmtsSlots_eq (d.slots globals count) d.body.stmts
      have hbody : ∀ {draft : Draft κ}, Slots.Fits ⟨globals, count, []⟩ draft →
          draft.Writes Q ⟨globals, count, d.params.map (·.id) ++ Δ⟩ d.slotted
            (d.listed globals count) (genFnBody d draft).2 := by
        intro draft hdraft
        have hwritten := genFnBody_writes hQ hdecl hdraft
        rw [hΔ] at hwritten
        exact hwritten
      obtain ⟨hadded, hholds⟩ : Assembly.Grows globals count Q d.slotted a
          (a.addFunction d.name d.params.length (genFnBody d)).2 ∧ Heap.Transcribes _ _ _ _ _ _ :=
        h.addFunction hbody
      obtain ⟨hgrows, hfns, hheld⟩ := ih hadded.ready hrest
      refine ⟨hadded.trans hgrows, congrArg (d :: ·) hfns, fun fn hfn => ?_⟩
      rcases List.mem_cons.1 hfn with rfl | hfn
      · exact hholds.kept hgrows.kept hgrows.exact
      · exact hheld fn hfn

theorem assignGlobalSlots_ready {table : SymbolTable} {heap : Heap κ} {errors : Array CodeError}
    (hheap : heap.WF) (hle : globals ≤ table.size)
    (hkind : ∀ {id : SymbolId} {symbol}, table[id]? = some symbol →
      (symbol.kind = .global ↔ id < globals)) :
    Assembly.Ready globals table.size
      (⟨heap, (assignGlobalSlots table).1, errors⟩ : Assembly κ) := by
  have hslots := getElem?_assignGlobalSlots hle hkind
  refine ⟨hheap, ?_, fun {id} hid => ?_, fun {id symbol} hid hsymbol => ?_⟩
  · have hkinds := congrArg Array.size (assignGlobalSlots_kinds table)
    simpa using hkinds
  · have hlt := Nat.lt_of_lt_of_le hid hle
    refine ⟨{ table[id] with slot := some id }, ?_, ?_, rfl⟩
    · rw [hslots, Array.getElem?_eq_getElem hlt, Option.map_some, if_pos hid]
    · exact (hkind (Array.getElem?_eq_getElem hlt)).2 hid
  · rw [hslots] at hsymbol
    obtain ⟨symbol', hsymbol', rfl⟩ := Option.map_eq_some_iff.1 hsymbol
    rw [if_neg (Nat.not_lt.2 hid)]
    cases hlocal : symbol'.kind with
    | «local» => rfl
    | global => exact absurd ((hkind hsymbol').1 hlocal) (Nat.not_lt.2 hid)

theorem assignGlobalSlots_faults (table : SymbolTable) :
    ∀ e ∈ (assignGlobalSlots table).2, e.fault = .tooManyGlobals := by
  intro e he
  unfold assignGlobalSlots at he
  dsimp only at he
  split at he
  · obtain rfl := Array.mem_singleton.1 he
    rfl
  · cases Array.not_mem_empty _ he

/-! ## Programs -/

/-- What a program compiles to, in terms of its listings. -/
structure Program.Transcribed (globals count : Nat) (Q : CodeFault → Prop) (program : Program)
    (heap : Heap κ) (symbols : SymbolTable) (c : Compilation κ) (fns : List (FnDecl × Handle)) :
    Prop where
  kept : heap.Kept c.heap
  decls : fns.map Prod.fst = program.fns
  functions : ∀ fn ∈ fns, c.heap.Transcribes (c.errors = []) fn.2 fn.1.name fn.1.params.length
    (fn.1.listed globals count)
  script : c.heap.Transcribes (c.errors = []) c.script "script" 0 (program.listed globals count fns)
  only : ∀ {handle f}, c.heap.get handle = .ok (.function f) →
    heap.get handle = .ok (.function f) ∨ handle = c.script ∨ ∃ fn ∈ fns, fn.2 = handle
  symbols : c.symbols = (assignGlobalSlots symbols).1.assign (program.decls.flatMap Decl.slotted)
  faults : ∀ e ∈ c.errors, e.fault = .tooManyGlobals ∨ Q e.fault

/-- A function that is generated is the only one that is added to the heap. -/
theorem function_of_addFunction {a : Assembly κ} (h : a.heap.WF) {name : String} {arity : Nat}
    {known : Handle → Prop} {body : Gen κ Unit} (hbody : Walks known 0 AnyResult body)
    {handle : Handle} {f : Function}
    (hget : (a.addFunction name arity body).2.heap.get handle = .ok (.function f)) :
    a.heap.get handle = .ok (.function f) ∨ handle = (a.addFunction name arity body).1 := by
  have hedits := (hbody { a with name } (Nat.zero_le _)).1
  rcases Heap.get_of_get_alloc (hedits.kept h).wf hget with ⟨rfl, -⟩ | hget
  · exact .inr rfl
  · exact .inl (hedits.function h hget)

theorem function_of_genFns {decls : List Decl} {a : Assembly κ} (h : a.heap.WF) {handle : Handle}
    {f : Function} (hget : (genFns decls a).2.heap.get handle = .ok (.function f)) :
    a.heap.get handle = .ok (.function f) ∨ ∃ fn ∈ (genFns decls a).1, fn.2 = handle := by
  induction decls generalizing a with
  | nil => exact .inl hget
  | cons decl decls ih =>
    cases decl with
    | var d => exact ih h hget
    | fn d =>
      have hbody : Walks (κ := κ) (fun _ => False) 0 AnyResult (genFnBody d) := .genFnBody d
      have hadded := kept_addFunction h d.name d.params.length hbody
      rcases ih hadded.wf hget with hget | ⟨fn, hfn, rfl⟩
      · rcases function_of_addFunction h hbody hget with hget | rfl
        · exact .inl hget
        · exact .inr ⟨_, List.mem_cons_self, rfl⟩
      · exact .inr ⟨fn, List.mem_cons_of_mem _ hfn, rfl⟩

/-- A program whose names are settled compiles to what its listings say. -/
theorem Program.compile_transcribed (hQ : Tolerant Q) {program : Program} {symbols : SymbolTable}
    (hprogram : program.Settled globals symbols.size Q) (hle : globals ≤ symbols.size)
    (hkind : ∀ {id : SymbolId} {symbol}, symbols[id]? = some symbol →
      (symbol.kind = .global ↔ id < globals)) {heap : Heap κ} (hheap : heap.WF) :
    ∃ fns, program.Transcribed globals symbols.size Q heap symbols (program.compile heap symbols)
      fns := by
  let a : Assembly κ := ⟨heap, (assignGlobalSlots symbols).1, (assignGlobalSlots symbols).2⟩
  let fns := (genFns program.decls a).1
  let c := program.compile heap symbols
  have hready : a.Ready globals symbols.size := assignGlobalSlots_ready hheap hle hkind
  obtain ⟨hgrows, hdecls, hheld⟩ := hready.genFns hQ hprogram.decls
  have hmem : ∀ fn ∈ fns, .fn fn.1 ∈ program.decls := by
    intro fn hfn
    have hfst : fn.1 ∈ fns.map Prod.fst := List.mem_map_of_mem hfn
    rw [hdecls] at hfst
    exact Program.mem_fns.1 hfst
  obtain ⟨hadded, hscript⟩ : Assembly.Grows globals symbols.size Q [] (genFns program.decls a).2
      ((genFns program.decls a).2.addFunction "script" 0 (genScript program fns)).2 ∧
        Heap.Transcribes _ _ _ _ _ _ :=
    hgrows.ready.addFunction fun h => genScript_computes hQ hprogram hmem h
  have hall := hgrows.trans hadded
  have hexact : c.errors = [] →
      ((genFns program.decls a).2.addFunction "script" 0 (genScript program fns)).2.errors = #[] :=
    Array.toList_eq_nil_iff.1
  have hwalks : Walks (κ := κ) (fun _ => True) 0 AnyResult (genScript program fns) :=
    .genScript program fun _ _ => trivial
  refine ⟨fns, hall.kept, hdecls, fun fn hfn => ?_, ?_, fun {handle f} hget => ?_, ?_,
    fun e he => ?_⟩
  · exact (hheld fn hfn).kept hadded.kept fun he => hadded.exact (hexact he)
  · exact hscript.kept (.refl hadded.ready.wf) hexact
  · rcases function_of_addFunction hgrows.ready.wf hwalks hget with hget | hscript
    · rcases function_of_genFns hheap hget with hget | hfn
      · exact .inl hget
      · exact .inr (.inr hfn)
    · exact .inr (.inl hscript)
  · have hsymbols := hall.symbols
    rw [List.append_nil] at hsymbols
    exact hsymbols
  · rcases hall.faults e (Array.mem_toList_iff.1 he) with he | he
    · exact .inl (assignGlobalSlots_faults symbols e he)
    · exact .inr he

end ScriptMachine
