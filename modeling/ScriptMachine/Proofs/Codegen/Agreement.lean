import ScriptMachine.Proofs.Codegen.Accesses
import ScriptMachine.Proofs.Codegen.Slotting
import ScriptMachine.Proofs.Codegen.WellFormed

/-!
# Name resolution and code generation agree on slots

Name resolution counts the locals of a function that are live, and code generation
counts the slots that are taken. In a program without scoping errors both counts are
the same wherever a local is declared, so every local has a slot of its own while it
is live, every access to a variable goes to the slot of its own symbol, and nothing
is put in place of an access (`Program.resolve_compile_agree`).
-/

namespace ScriptMachine

variable {κ : Type}

/-! ## The scopes of a resolution -/

section Scopes

variable {α β : Type}

theorem getElem?_mapM_resolve {f : α → Resolve β} (as : List α) (s : Scope) (n : Nat) :
    (as.mapM f s).1[n]? = as[n]?.map fun a => (f a ((as.take n).mapM f s).2).1 := by
  induction as generalizing s n with
  | nil => rfl
  | cons a as ih =>
    rw [mapM_resolve_cons]
    cases n with
    | zero => rfl
    | succ n =>
      rw [List.getElem?_cons_succ, ih, List.getElem?_cons_succ, List.take_succ_cons,
        mapM_resolve_cons]

theorem mapM_resolve_take_succ {f : α → Resolve β} {as : List α} {n : Nat} {a : α}
    (h : as[n]? = some a) (s : Scope) :
    ((as.take (n + 1)).mapM f s).2 = (f a ((as.take n).mapM f s).2).2 := by
  induction as generalizing s n with
  | nil => cases h
  | cons a' as ih =>
    rw [List.take_succ_cons, mapM_resolve_cons]
    cases n with
    | zero =>
      cases h
      rfl
    | succ n => rw [List.take_succ_cons, mapM_resolve_cons, ih h]

end Scopes

/-- The declarations of a program with their own numbers, and the scope of all globals. -/
def Program.declareAll (hostNames : List String) (program : Program) : List Decl × Scope :=
  program.decls.mapM declareDecl
    (hostNames.foldl (fun s name => (s.declareGlobal name .nowhere).2) {})

/-- The scope in which name resolution starts with a declaration. -/
def Program.scopeBefore (hostNames : List String) (program : Program) (n : Nat) : Scope :=
  (((program.declareAll hostNames).1.take n).mapM resolveDecl (program.declareAll hostNames).2).2

theorem numbers_resolveDecls {names : List String} (decls : List Decl) {s : Scope}
    (hlocals : s.locals = []) (hs : s.Numbers names) :
    (decls.mapM resolveDecl s).2.Numbers names := by
  induction decls generalizing s with
  | nil => exact hs
  | cons decl decls ih =>
    have hdecl := resolveDecl_behind hlocals hs decl
    rw [mapM_resolve_cons]
    exact ih hdecl.locals (by rw [Scope.Numbers, hdecl.globals]; exact hs)

theorem Program.declareAll_ofGlobals (hostNames : List String) (program : Program) :
    (program.declareAll hostNames).2.OfGlobals (globalsOf hostNames program) := by
  have hstart : ({} : Scope).OfGlobals [] := ⟨rfl, rfl, rfl, rfl⟩
  exact ((hstart.declareHosts hostNames).declareDecls program.decls).1

theorem Program.scopeBefore_numbers (hostNames : List String) (program : Program) (n : Nat) :
    (program.scopeBefore hostNames n).Numbers ((globalsOf hostNames program).map Prod.fst) :=
  numbers_resolveDecls _ (program.declareAll_ofGlobals hostNames).locals
    (program.declareAll_ofGlobals hostNames).numbers

/-- Name resolution passes the places of each function, from the scope in which it starts with it to
the one in which it starts with the next declaration. -/
theorem Program.resolve_passes {hostNames : List String} {program : Program} {n : Nat} {d : FnDecl}
    (h : (program.resolve hostNames).program.decls[n]? = some (.fn d)) :
    ∃ last, Passes (program.scopeBefore hostNames n).openFn d.places last ∧
      program.scopeBefore hostNames (n + 1) = last.closeFn := by
  have hdecls : (program.resolve hostNames).program.decls =
      ((program.declareAll hostNames).1.mapM resolveDecl (program.declareAll hostNames).2).1 := rfl
  rw [hdecls, getElem?_mapM_resolve, Option.map_eq_some_iff] at h
  obtain ⟨decl, hdecl, hd⟩ := h
  have hsucc : program.scopeBefore hostNames (n + 1) =
      (resolveDecl decl (program.scopeBefore hostNames n)).2 := mapM_resolve_take_succ hdecl _
  rw [hsucc]
  cases decl with
  | var d' => cases hd
  | fn d' =>
    cases hd
    let s := (program.scopeBefore hostNames n).openFn
    have hparams := resolveParams_passes d'.params s
    have hstmts := resolveStmts_passes d'.body.stmts (d'.params.mapM resolveParam s).2
    exact ⟨_, hparams.append hstmts, rfl⟩

theorem Passes.split {s s' : Scope} {ps qs : List Place} (h : Passes s (ps ++ qs) s') :
    ∃ s₁, Passes s ps s₁ ∧ Passes s₁ qs s' := by
  induction ps generalizing s with
  | nil => exact ⟨s, .nil s, h⟩
  | cons p ps ih =>
    cases h with
    | cons fits rest =>
      obtain ⟨s₁, hps, hqs⟩ := ih rest
      exact ⟨s₁, .cons fits hps, hqs⟩

/-- On its way through a function name resolution comes to each of its places. -/
theorem Program.resolve_reaches {hostNames : List String} {program : Program} {n : Nat} {d : FnDecl}
    (h : (program.resolve hostNames).program.decls[n]? = some (.fn d)) {before after : List Place}
    (heq : d.places = before ++ after) :
    ∃ scope last : Scope, Passes (program.scopeBefore hostNames n).openFn before scope ∧
      Passes scope after last ∧ program.scopeBefore hostNames (n + 1) = last.closeFn ∧
        (program.scopeBefore hostNames n).openFn.Reaches
          ((globalsOf hostNames program).map Prod.fst) before scope := by
  obtain ⟨last, hpasses, hlast⟩ := Program.resolve_passes h
  rw [heq] at hpasses
  obtain ⟨scope, hbefore, hafter⟩ := hpasses.split
  let s := (program.scopeBefore hostNames n).openFn
  have hstart : s.Reaches ((globalsOf hostNames program).map Prod.fst) [] s := .start rfl rfl
  exact ⟨scope, last, hbefore, hafter, hlast,
    hstart.passes (program.scopeBefore_numbers hostNames n) hbefore⟩

/-- The locals that are live in a scope are those that are visible. -/
theorem Scope.Reaches.map_id_locals {names : List String} {before : List Place} {s₀ s : Scope}
    (h : s₀.Reaches names before s) :
    s.locals.reverse.map (fun b => some b.id) = (visible before).map (·.id) := by
  have hids := congrArg (List.map (·.id)) h.live
  rw [List.map_map, List.map_reverse] at hids
  rw [List.map_reverse]
  exact (congrArg List.reverse hids).trans (List.reverse_reverse _)

/-! ## The slots of symbols -/

namespace Program.Resolves

variable {hostNames : List String} {program : Program} {r : Resolution} {table : SymbolTable}

theorem map_fst_slotted (decls : List Decl) :
    (decls.flatMap Decl.slotted).map Prod.fst =
      ((decls.flatMap Decl.places).filterMap Place.declaredId?).filterMap id := by
  induction decls with
  | nil => rfl
  | cons decl decls ih =>
    rw [List.flatMap_cons, List.map_append, ih, Decl.slotted_eq, map_fst_placesSlotted,
      List.flatMap_cons, List.filterMap_append, List.filterMap_append]

theorem nodup_slotted (h : program.Resolves hostNames r) :
    ((r.program.decls.flatMap Decl.slotted).map Prod.fst).Nodup := by
  rw [map_fst_slotted]
  refine h.nodup.filterMap fun i i' id hi hi' => ?_
  exact hi.trans hi'.symm

/-- The table of symbols after code generation. -/
structure Assigned (r : Resolution) (table : SymbolTable) : Prop where
  eq : table = (assignGlobalSlots r.symbols).1.assign (r.program.decls.flatMap Decl.slotted)

theorem Assigned.locals (htable : Assigned r table) (h : program.Resolves hostNames r) {decl : Decl}
    (hdecl : decl ∈ r.program.decls) {i : SymbolId} {slot : Nat}
    (hi : (i, slot) ∈ placesSlotted [] decl.places) : table.place? i = some (.local, slot) := by
  have hmem : (i, slot) ∈ r.program.decls.flatMap Decl.slotted :=
    List.mem_flatMap.2 ⟨decl, hdecl, decl.slotted_eq ▸ hi⟩
  have hfst : i ∈ (placesSlotted [] decl.places).map Prod.fst := List.mem_map.2 ⟨_, hi, rfl⟩
  rw [map_fst_placesSlotted] at hfst
  obtain ⟨id, hid, rfl⟩ := List.mem_filterMap.1 hfst
  obtain ⟨j, hj, hle, hlt⟩ := (h.resolved decl hdecl).ids _ hid
  cases hj
  rw [List.length_map, length_globalsOf] at hle
  have hsymbol := Array.getElem?_eq_getElem hlt
  have hkind : r.symbols[i].kind = .local := by
    cases hk : r.symbols[i].kind with
    | «local» => rfl
    | global => exact absurd ((h.kind hsymbol).1 hk) (Nat.not_lt.2 hle)
  rw [SymbolTable.place?, htable.eq, SymbolTable.getElem?_assign_of_mem h.nodup_slotted hmem,
    getElem?_assignGlobalSlots h.globals_le h.kind, hsymbol, Option.map_some, Option.map_some,
    if_neg (Nat.not_lt.2 hle)]
  simp [hkind]

theorem Assigned.globals (htable : Assigned r table) (h : program.Resolves hostNames r)
    {i : SymbolId} (hi : i < program.globalsWith hostNames) :
    table[i]? = r.symbols[i]?.map fun symbol => { symbol with slot := some i } := by
  have hnot : i ∉ (r.program.decls.flatMap Decl.slotted).map Prod.fst := by
    rw [map_fst_slotted]
    intro hmem
    obtain ⟨id, hid, rfl⟩ := List.mem_filterMap.1 hmem
    obtain ⟨p, hp, hpid⟩ := List.mem_filterMap.1 hid
    obtain ⟨decl, hdecl, hp⟩ := List.mem_flatMap.1 hp
    obtain ⟨j, hj, hle, -⟩ := (h.resolved decl hdecl).ids _ (List.mem_filterMap.2 ⟨p, hp, hpid⟩)
    cases hj
    rw [List.length_map, length_globalsOf] at hle
    exact absurd hi (Nat.not_lt.2 hle)
  rw [htable.eq, SymbolTable.getElem?_assign_of_notMem hnot,
    getElem?_assignGlobalSlots h.globals_le h.kind]
  simp [hi]

/-- The globals have their own numbers as slots: first those of the host, and then those of the
program in the order of their declarations. -/
theorem Assigned.symbol (htable : Assigned r table) (h : program.Resolves hostNames r)
    {i : SymbolId}
    {name : String} {span : Span} (hi : (globalsOf hostNames program)[i]? = some (name, span)) :
    table[i]? = some { name, span, kind := .global, slot := some i } := by
  have hlt : i < program.globalsWith hostNames :=
    length_globalsOf hostNames program ▸ (List.getElem?_eq_some_iff.1 hi).1
  have hsymbol : r.symbols[i]? = some { name, span, kind := .global } := by
    rw [← Array.getElem?_toList, h.symbols, List.getElem?_append_left
      (by rwa [List.length_map, length_globalsOf]), List.getElem?_map, hi]
    rfl
  rw [htable.globals h hlt, hsymbol]
  rfl

/-- The locals that are visible at a place have the slots from zero upwards. -/
theorem Assigned.visible_slots (htable : Assigned r table) (h : program.Resolves hostNames r)
    {decl : Decl} (hdecl : decl ∈ r.program.decls) {before after : List Place}
    (heq : decl.places = before ++ after) :
    ((visible before).map (·.id)).map (·.bind table.place?) =
      (List.range (visible before).length).map fun slot => some (.local, slot) := by
  refine List.ext_getElem (by simp) fun k hk _ => ?_
  rw [List.length_map, List.length_map] at hk
  have hvisible := List.getElem?_eq_getElem hk
  have hdeclared : (visible before)[k].id ∈ decl.places.filterMap Place.declaredId? := by
    rw [heq, List.filterMap_append]
    exact List.mem_append_left _ (mem_declaredIds_of_mem_visible (List.getElem_mem hk))
  obtain ⟨i, hi, -, -⟩ := (h.resolved decl hdecl).ids _ hdeclared
  have hslotted : (i, k) ∈ placesSlotted [] decl.places := by
    rw [heq, placesSlotted_append]
    exact List.mem_append_left _ (slotted_of_visible hvisible hi)
  simp only [List.getElem_map, List.getElem_range, hi, Option.bind_some]
  exact htable.locals h hdecl hslotted

/-- A name that stands for a global has the slot of its symbol everywhere. -/
theorem Assigned.global_agrees (htable : Assigned r table) (h : program.Resolves hostNames r)
    (hroom : program.globalsWith hostNames ≤ maxSlots) {i : SymbolId}
    (hi : i < program.globalsWith hostNames) (count : Nat) (ids : List (Option SymbolId)) :
    Slots.Agrees ⟨program.globalsWith hostNames, count, ids⟩ table (some i) := by
  have hsize : i < r.symbols.size := Nat.lt_of_lt_of_le hi h.globals_le
  have hsymbol := Array.getElem?_eq_getElem hsize
  have hkind : r.symbols[i].kind = .global := (h.kind hsymbol).2 hi
  refine ⟨i, (.global, i), rfl, ?_, ?_⟩
  · rw [Slots.find?, if_pos hi, if_pos (Nat.lt_of_lt_of_le hi hroom)]
  · rw [SymbolTable.place?, htable.globals h hi, hsymbol]
    simp [hkind]

/-- A name that stands for a visible local has the slot of its symbol there. -/
theorem Assigned.local_agrees (htable : Assigned r table) (h : program.Resolves hostNames r)
    (herrors : r.errors = []) {decl : Decl} (hdecl : decl ∈ r.program.decls)
    {before after : List Place} (heq : decl.places = before ++ after) {i : SymbolId}
    (hi : some i ∈ (visible before).map (·.id)) :
    (slotsAt (program.globalsWith hostNames) r.symbols.size before).Agrees table (some i) := by
  obtain ⟨d, hd, hid⟩ := List.mem_map.1 hi
  have hdeclared : some i ∈ decl.places.filterMap Place.declaredId? := by
    rw [heq, List.filterMap_append]
    exact List.mem_append_left _ (hid ▸ mem_declaredIds_of_mem_visible hd)
  obtain ⟨j, hj, hle, hlt⟩ := (h.resolved decl hdecl).ids _ hdeclared
  cases hj
  rw [List.length_map, length_globalsOf] at hle
  obtain ⟨k, hk⟩ : ∃ k, ((visible before).map (·.id)).idxOf? (some i) = some k :=
    Option.ne_none_iff_exists'.1 fun hnone => List.idxOf?_eq_none_iff.1 hnone hi
  obtain ⟨hlength, hat, -⟩ := List.idxOf?_eq_some_iff.1 hk
  rw [List.length_map] at hlength
  rw [List.getElem_map] at hat
  have hroom : k < maxSlots :=
    Nat.lt_of_lt_of_le hlength (length_visible_le (h.errors herrors decl hdecl) heq)
  have hslotted := slotted_of_visible (List.getElem?_eq_getElem hlength) hat
  refine ⟨i, (.local, k), rfl, ?_, htable.locals h hdecl ?_⟩
  · rw [Slots.find?, slotsAt, if_neg (Nat.not_lt.2 hle), if_pos hlt, hk]
    simp [hroom]
  · rw [heq, placesSlotted_append]
    exact List.mem_append_left _ hslotted

/-- Every name that is used has the slot that its symbol has in the end. -/
theorem Assigned.grounded (htable : Assigned r table) (h : program.Resolves hostNames r)
    (herrors : r.errors = []) (hroom : program.globalsWith hostNames ≤ maxSlots) {decl : Decl}
    (hdecl : decl ∈ r.program.decls) :
    Grounded (program.globalsWith hostNames) r.symbols.size table [] decl.places := by
  refine ⟨fun {before name id span after} heq => ?_⟩
  rw [List.nil_append]
  obtain ⟨i, rfl⟩ : ∃ i, id = some i := by
    cases id with
    | some i => exact ⟨i, rfl⟩
    | none =>
      have hnone := h.errors herrors decl hdecl
      rw [placeErrors, heq, errorsFrom_append] at hnone
      cases (List.append_eq_nil_iff.1 hnone).2
  have hsymbol := ((h.resolved decl hdecl).uses heq).symm
  unfold symbolOf? at hsymbol
  split at hsymbol
  · next d hfound =>
    have hmem := List.mem_reverse.1 (List.mem_of_find?_eq_some hfound)
    exact htable.local_agrees h herrors hdecl heq (hsymbol ▸ List.mem_map_of_mem hmem)
  · have hlt := lt_of_globalOf? hsymbol
    rw [List.length_map, length_globalsOf] at hlt
    exact htable.global_agrees h hroom hlt _ _

/-- A declaration's own name has the slot of its symbol. -/
theorem Assigned.decl_agrees (htable : Assigned r table) (h : program.Resolves hostNames r)
    (hroom : program.globalsWith hostNames ≤ maxSlots) {decl : Decl}
    (hdecl : decl ∈ r.program.decls)
    (count : Nat) : Slots.Agrees ⟨program.globalsWith hostNames, count, []⟩ table decl.id := by
  have hmem : decl.id ∈ r.program.decls.map Decl.id := List.mem_map_of_mem hdecl
  rw [h.ids] at hmem
  obtain ⟨j, hj, heq⟩ := List.mem_map.1 hmem
  rw [← heq]
  exact htable.global_agrees h hroom (List.mem_range'_1.1 hj).2 count []

end Program.Resolves

/-! ## Accesses in code -/

/-- The instructions of a function that access variables are those of some accesses, in
the same order, each in the slot that its own symbol has. -/
def Heap.Accesses (heap : Heap κ) (table : SymbolTable) (handle : Handle) (name : String)
    (arity : Nat) (accesses : List Access) : Prop :=
  ∃ (chunk : Chunk) (instructions : List Instruction),
    heap.get handle = .ok (.function ⟨name, arity, chunk⟩) ∧
      chunk.code.toList = instructions.flatMap Instruction.bytes ∧
        (instructions.filterMap Instruction.access?).map some =
          accesses.map (Access.on table.place?)

theorem Listed.Encodes.access?_eq {b : Backing κ} {l : Listed} {i : Instruction} {globals : Nat}
    (h : l.Encodes b i) (hl : l.OperandOk globals) : i.access? = l.access? := by
  obtain ⟨op, first, second⟩ := i
  obtain ⟨op', operand, node, n⟩ := l
  obtain ⟨rfl, hoperand, -, -⟩ := h
  cases op with
  | getLocal | setLocal | getGlobal | setGlobal =>
    cases operand with
    | byte slot =>
      obtain rfl : first.toNat = slot := hoperand
      rfl
    | _ => cases hl
  | _ => rfl

theorem filterMap_access?_eq {b : Backing κ} {L : List Listed} {instructions : List Instruction}
    {globals : Nat} (h : List.Forall₂ (Listed.Encodes b) L instructions)
    (hL : ∀ l ∈ L, l.OperandOk globals) :
    instructions.filterMap Instruction.access? = listedAccesses L := by
  induction h with
  | nil => rfl
  | cons hl _ ih =>
    obtain ⟨hoperand, hrest⟩ := List.forall_mem_cons.1 hL
    rw [listedAccesses, List.filterMap_cons, List.filterMap_cons, hl.access?_eq hoperand, ih hrest,
      listedAccesses]

theorem Heap.Transcribes.accesses {heap : Heap κ} {exact : Prop} {handle : Handle} {name : String}
    {arity globals : Nat} {L : List Listed} (h : heap.Transcribes exact handle name arity L)
    (hL : SelfContained globals arity L) {table : SymbolTable} {accesses : List Access}
    (haccesses : (listedAccesses L).map some = accesses.map (Access.on table.place?)) :
    heap.Accesses table handle name arity accesses := by
  obtain ⟨chunk, hget, hchunk⟩ := h
  obtain ⟨instructions, hlisted, hcode⟩ := hchunk.code.exists_instructions
  have hoperands : ∀ l ∈ L, l.OperandOk globals := by
    intro l hl
    obtain ⟨p, hp⟩ := exists_listedAt? hl
    exact hL.operand hp
  exact ⟨chunk, instructions, hget,
    hcode, by rw [filterMap_access?_eq hlisted hoperands, haccesses]⟩

/-- Where no error has been reported, all expressions have code. -/
theorem Heap.Transcribes.complete {heap : Heap κ} {exact : Prop} {handle : Handle} {name : String}
    {arity : Nat} {L : List Listed} (h : heap.Transcribes exact handle name arity L)
    (hexact : exact) :
    Complete L := by
  obtain ⟨chunk, -, hchunk⟩ := h
  intro l hl hmissing
  obtain ⟨p, hp⟩ := exists_listedAt? hl
  obtain ⟨i, -, -, hencodes, -, -⟩ := hchunk.code.exists_of_listedAt? hp
  have hoperand := hencodes.operand
  rw [hmissing] at hoperand
  exact hoperand hexact

/-- Where no error is reported, nothing is assigned to that cannot be. -/
theorem targetsOk_of_placeErrors {names : List String} {places : List Place}
    (h : placeErrors names places = []) : TargetsOk places := by
  intro span hmem
  obtain ⟨before, after, rfl⟩ := List.append_of_mem hmem
  rw [placeErrors, errorsFrom_append] at h
  cases (List.append_eq_nil_iff.1 h).2

/-! ## Agreement -/

/-- Name resolution and code generation of a program agree about slots. -/
structure Resolution.SlotsAgree (hostNames : List String) (program : Program) (r : Resolution)
    (c : Compilation κ) : Prop where
  /-- At every place of a function that name resolution comes to, the locals that are live have
  the slots from zero upwards, one after the other. -/
  live : ∀ {n d before after}, r.program.decls[n]? = some (.fn d) → d.places = before ++ after →
    ∃ scope last : Scope, Passes (program.scopeBefore hostNames n).openFn before scope ∧
      Passes scope after last ∧
        program.scopeBefore hostNames (n + 1) = last.closeFn ∧
          scope.locals.length ≤ maxSlots ∧
            scope.locals.reverse.map (fun b => c.symbols.place? b.id) =
              (List.range scope.locals.length).map fun slot => some (.local, slot)
  /-- Where a local is declared, its slot is the number of locals that are live there. -/
  declared : ∀ {n d before isParam name id span after}, r.program.decls[n]? = some (.fn d) →
    d.places = before ++ .declared isParam name id span :: after →
      ∃ i scope, id = some i ∧ Passes (program.scopeBefore hostNames n).openFn before scope ∧
        scope.locals.length < maxSlots ∧ c.symbols.place? i = some (.local, scope.locals.length)
  /-- The globals have the first numbers, and these are their slots: first those of the host,
  and then those of the program in the order of their declarations. -/
  globals : ∀ {i : SymbolId} {name : String} {span : Span},
    (globalsOf hostNames program)[i]? = some (name, span) →
    c.symbols[i]? = some { name, span, kind := .global, slot := some i }
  ids : r.program.decls.map Decl.id =
    (List.range' hostNames.length program.decls.length).map some
  /-- In the code of every function and of the script, each access to a variable is one to the
  slot of its own symbol, and no other access is there. -/
  accesses : ∃ fns : List (FnDecl × Handle), fns.map Prod.fst = r.program.fns ∧
    (∀ fn ∈ fns,
      c.heap.Accesses c.symbols fn.2 fn.1.name fn.1.params.length fn.1.accesses) ∧
    c.heap.Accesses c.symbols c.script "script" 0 r.program.accesses
  /-- If all expressions have code, these are accesses to all names that are used. -/
  reads : c.errors = [] → (∀ d, .fn d ∈ r.program.decls → Reads d.accesses d.places) ∧
    ∀ d, .var d ∈ r.program.decls → Reads r.program.accesses (initPlaces d.init)
  /-- There are not too many locals, and nothing is assigned to that cannot be. -/
  faults : ∀ e ∈ c.errors, e.fault ≠ .tooManyLocals ∧ e.fault ≠ .badTarget

/-- Name resolution and code generation agree about the slots of a program without scoping errors,
if it does not have too many globals. -/
theorem Program.resolve_compile_agree {hostNames : List String} {program : Program} {heap : Heap κ}
    (hheap : heap.WF) (herrors : (program.resolve hostNames).errors = [])
    (hroom : (program.resolve hostNames).symbols.globalCount ≤ maxSlots) :
    let r := program.resolve hostNames
    r.SlotsAgree hostNames program (r.program.compile heap r.symbols) := by
  intro r
  let Q : CodeFault → Prop := fun fault => fault ≠ .tooManyLocals ∧ fault ≠ .badTarget
  have hQ : Tolerant Q := fun fault htarget hlocals => ⟨hlocals, htarget⟩
  have hresolves := program.resolve_resolves hostNames
  rw [SymbolTable.globalCount_of_kinds hresolves.globals_le hresolves.kind] at hroom
  obtain ⟨fns, hc⟩ : ∃ fns, r.program.Transcribed (program.globalsWith hostNames)
    r.symbols.size Q heap
      r.symbols (r.program.compile heap r.symbols) fns :=
    Program.compile_transcribed hQ (hresolves.settled (.inr herrors)) hresolves.globals_le
      hresolves.kind hheap
  have htable : Program.Resolves.Assigned r (r.program.compile heap r.symbols).symbols :=
    ⟨hc.symbols⟩
  have hgrounded : ∀ decl ∈ r.program.decls, Grounded (program.globalsWith hostNames) r.symbols.size
      (r.program.compile heap r.symbols).symbols [] decl.places :=
    fun _ hdecl => htable.grounded hresolves herrors hroom hdecl
  have hmem : ∀ fn ∈ fns, .fn fn.1 ∈ r.program.decls := by
    intro fn hfn
    have hfst : fn.1 ∈ fns.map Prod.fst := List.mem_map_of_mem hfn
    rw [hc.decls] at hfst
    exact Program.mem_fns.1 hfst
  refine ⟨fun {n d before after} hn heq => ?_,
    fun {n d before isParam name id span after} hn heq => ?_, htable.symbol hresolves,
      hresolves.ids,
    ⟨fns, hc.decls, fun fn hfn => ?_, ?_⟩, fun hnone => ⟨fun d hd => ?_, fun d hd => ?_⟩,
    fun e he => ?_⟩
  · have hdecl := List.mem_of_getElem? hn
    obtain ⟨scope, last, hbefore, hafter, hlast, hreaches⟩ := Program.resolve_reaches hn heq
    refine ⟨scope, last, hbefore, hafter, hlast, ?_, ?_⟩
    · rw [hreaches.length_locals]
      exact length_visible_le (hresolves.errors herrors _ hdecl) heq
    · have hslots := htable.visible_slots hresolves hdecl heq
      rw [← hreaches.map_id_locals, List.map_map, ← hreaches.length_locals] at hslots
      exact hslots
  · have hdecl := List.mem_of_getElem? hn
    have hplaces : Decl.places (.fn d) = before ++ .declared isParam name id span :: after := heq
    obtain ⟨scope, last, hbefore, -, -, hreaches⟩ := Program.resolve_reaches hn heq
    obtain ⟨i, rfl, -, -⟩ := (hresolves.resolved _ hdecl).ids id
      (by simp [hplaces, Place.declaredId?])
    refine ⟨i, scope, rfl, hbefore, ?_, ?_⟩
    · rw [hreaches.length_locals]
      exact length_visible_lt (hresolves.errors herrors _ hdecl) hplaces
    · rw [hreaches.length_locals]
      exact htable.locals hresolves hdecl (slotted_of_declared hplaces)
  · exact (hc.functions fn hfn).accesses (fn.1.listed_selfContained _ _)
      (fn.1.accesses_grounded (hgrounded _ (hmem fn hfn)))
  · exact hc.script.accesses (Program.listed_selfContained _ _ _ fns) (Program.accesses_grounded
      (fun decl hdecl => htable.decl_agrees hresolves hroom hdecl _) hgrounded hc.decls)
  · have hfst : d ∈ fns.map Prod.fst := hc.decls ▸ Program.mem_fns.2 hd
    obtain ⟨fn, hfn, rfl⟩ := List.mem_map.1 hfst
    exact fn.1.reads_accesses ((hc.functions fn hfn).complete hnone)
      (targetsOk_of_placeErrors (hresolves.errors herrors _ hd))
  · exact Program.reads_accesses (hc.script.complete hnone) hd
      (targetsOk_of_placeErrors (hresolves.errors herrors _ hd))
  · rcases hc.faults e he with hfault | hfault
    · rw [hfault]
      exact ⟨by simp, by simp⟩
    · exact hfault

/-- A program with locals in blocks inside one another, one of which hides another. -/
def shadowing : String :=
  "fn main() { var x = true; if (x) { var y = !x; var x = y; print x; } else { x = not(x); } }\n" ++
    "fn not(b) { return b or !b; }"

/-- The theorem applies: a program is resolved without errors. -/
theorem resolve_compile_agree_demo : ∃ program : Program,
    Program.ofSource "demo" shadowing = .ok program ∧
    let r := program.resolve ["clock"]
    r.errors = [] ∧ r.symbols.globalCount ≤ maxSlots ∧
      r.SlotsAgree ["clock"] program (r.program.compile ({} : Heap Empty) r.symbols) := by
  have hok : (match Program.ofSource "demo" shadowing with
      | .ok program =>
        let r := program.resolve ["clock"]
        r.errors.isEmpty && r.symbols.globalCount ≤ maxSlots
      | .error _ => false) = true := by decide +kernel
  split at hok
  · next program hprogram =>
    obtain ⟨hempty, hcount⟩ := Bool.and_eq_true_iff.1 hok
    have herrors := List.isEmpty_iff.1 hempty
    have hroom := of_decide_eq_true hcount
    exact ⟨program, hprogram, herrors, hroom,
      Program.resolve_compile_agree Heap.WF.empty herrors hroom⟩
  · cases hok

end ScriptMachine
