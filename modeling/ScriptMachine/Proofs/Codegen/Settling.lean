import ScriptMachine.Proofs.Codegen.Transcription
import ScriptMachine.Proofs.Scope.Lexical

/-!
# The names of a resolved program are settled

Name resolution and code generation count the locals of a function apart from each
other. At every place of a function the locals that are visible are just the ones
that have slots, in the same order (`visible_stmts` and its kin), so each name that
is resolved has a slot, and each declaration gets a new one
(`Program.resolve_settled`). Without scoping errors nothing is assigned to that
cannot be, and there is room for every local.
-/

namespace ScriptMachine

variable {Q : CodeFault → Prop} {globals count : Nat}

/-! ## What is visible behind a part of a program -/

/-- A place that changes nothing about what is visible. -/
def Place.Silent (p : Place) : Prop := p.local? = none ∧ ∀ depth, p.nest depth = some depth

mutual

/-- Inside expressions nothing changes about what is visible. -/
theorem Expr.silent : ∀ (e : Expr), ∀ p ∈ e.places, p.Silent
  | .null _ | .bool _ _ | .number _ _ | .string _ _ => nofun
  | .name _ _ _ => List.forall_mem_singleton.2 ⟨rfl, fun _ => rfl⟩
  | .unary _ e _ => e.silent
  | .binary _ left right _ | .logical _ left right _ | .index left right _ =>
    List.forall_mem_append.2 ⟨left.silent, right.silent⟩
  | .list items _ => exprs_silent items
  | .assign _ target value _ => List.forall_mem_cons.2
    ⟨⟨rfl, fun _ => rfl⟩, List.forall_mem_append.2 ⟨target.silent, value.silent⟩⟩
  | .call callee args _ => List.forall_mem_append.2 ⟨callee.silent, exprs_silent args⟩
  | .property object _ _ => object.silent
termination_by structural e => e

theorem exprs_silent : ∀ (es : List Expr), ∀ p ∈ exprsPlaces es, p.Silent
  | [] => nofun
  | e :: es => List.forall_mem_append.2 ⟨e.silent, exprs_silent es⟩
termination_by structural es => es

end

theorem init_silent (value : Option Expr) : ∀ p ∈ initPlaces value, p.Silent := by
  cases value with
  | some e => exact e.silent
  | none => nofun

theorem visible_append_silent (front : List Place) {ps : List Place} (h : ∀ p ∈ ps, p.Silent) :
    visible (front ++ ps) = visible front := by
  induction ps generalizing front with
  | nil => rw [List.append_nil]
  | cons p ps ih =>
    obtain ⟨⟨hlocal, hnest⟩, hps⟩ := List.forall_mem_cons.1 h
    have hbehind : (fun d : Declared => d.behind p) = some := by
      funext d
      rw [Declared.behind, hnest]
      rfl
    rw [← List.singleton_append, ← List.append_assoc, ih _ hps, visible_concat, hlocal, hbehind,
      List.filterMap_some, Option.toList_none, List.append_nil]

/-- The locals that a statement leaves visible. -/
def Stmt.declared : Stmt → List Declared
  | .var d => [⟨d.name, d.id, d.nameSpan, 0⟩]
  | .block _ | .cond _ _ _ _ | .ret _ _ | .print _ _ | .expr _ _ => []

/-- Where a block ends, what was visible before it is visible again. -/
theorem visible_closing {front body : List Place} {inner : List Declared}
    (hinner : ∀ d ∈ inner, d.depth = 0)
    (h : visible (front ++ [.opening] ++ body) = visible (front ++ [.opening]) ++ inner) :
    visible (front ++ .opening :: (body ++ [.closing])) = visible front := by
  have hgone : inner.filterMap (·.behind .closing) = [] := by
    rw [List.filterMap_eq_nil_iff]
    intro d hd
    rw [Declared.behind, hinner d hd]
    rfl
  have hback : ∀ d : Declared, (d.behind .opening).bind (·.behind .closing) = some d := fun _ => rfl
  have hsplit : front ++ .opening :: (body ++ [.closing]) = front ++ [.opening] ++ body ++
    [.closing] := by
    simp
  rw [hsplit, visible_concat, h, visible_concat, List.filterMap_append, hgone]
  simp [Place.local?, List.filterMap_filterMap, hback]

mutual

theorem visible_stmt : ∀ (s : Stmt) (front : List Place),
    visible (front ++ s.places) = visible front ++ s.declared
  | .block body, front => by rw [Stmt.declared, List.append_nil, Stmt.places,
    visible_block body front]
  | .var d, front => by
    rw [Stmt.places, ← List.append_assoc, visible_concat_declared,
      visible_append_silent front (init_silent d.init)]
    rfl
  | .cond test thenBlock none _, front => by
    rw [Stmt.declared, List.append_nil, Stmt.places, ← List.append_assoc, visible_block thenBlock,
      visible_append_silent front test.silent]
  | .cond test thenBlock (some elseBlock) _, front => by
    rw [Stmt.declared, List.append_nil, Stmt.places, ← List.append_assoc, ← List.append_assoc,
      visible_block elseBlock, visible_block thenBlock, visible_append_silent front test.silent]
  | .ret value _, front => by
    rw [Stmt.declared, List.append_nil, Stmt.places,
      visible_append_silent front (init_silent value)]
  | .print value _, front | .expr value _, front => by
    rw [Stmt.declared, List.append_nil, Stmt.places, visible_append_silent front value.silent]
termination_by structural s => s

theorem visible_block : ∀ (body : Block Stmt) (front : List Place),
    visible (front ++ blockPlaces body) = visible front
  | ⟨stmts, _⟩, front => by
    refine visible_closing ?_ (visible_stmts stmts _)
    intro d hd
    obtain ⟨s, -, hs⟩ := List.mem_flatMap.1 hd
    cases s with
    | var d => cases List.mem_singleton.1 hs; rfl
    | _ => cases hs
termination_by structural body => body

theorem visible_stmts : ∀ (ss : List Stmt) (front : List Place),
    visible (front ++ stmtsPlaces ss) = visible front ++ ss.flatMap Stmt.declared
  | [], front => by rw [stmtsPlaces, List.append_nil, List.flatMap_nil, List.append_nil]
  | s :: ss, front => by
    rw [stmtsPlaces, ← List.append_assoc, visible_stmts ss, visible_stmt s front, List.flatMap_cons,
      List.append_assoc]
termination_by structural ss => ss

end

/-! ## Slots at a place -/

/-- The slots that are taken behind some places: those of the locals that are visible
there. -/
def slotsAt (globals count : Nat) (front : List Place) : Slots :=
  ⟨globals, count, (visible front).map (·.id)⟩

/-- The places behind others are settled, each with the slots that are taken there. -/
def settledFrom (globals count : Nat) (Q : CodeFault → Prop) (front : List Place) :
    List Place → Prop
  | [] => True
  | p :: after =>
    p.Settled (slotsAt globals count front) Q ∧ settledFrom globals count Q (front ++ [p]) after

theorem settledFrom_append {front ps qs : List Place} :
    settledFrom globals count Q front (ps ++ qs) ↔
      settledFrom globals count Q front ps ∧ settledFrom globals count Q (front ++ ps) qs := by
  induction ps generalizing front with
  | nil => simp [settledFrom]
  | cons p ps ih => simp [settledFrom, ih, and_assoc]

theorem slotsAt_append_silent (front : List Place) {ps : List Place} (h : ∀ p ∈ ps, p.Silent) :
    slotsAt globals count (front ++ ps) = slotsAt globals count front := by
  rw [slotsAt, visible_append_silent front h, slotsAt]

theorem slotsAt_stmt (s : Stmt) (front : List Place) :
    slotsAt globals count (front ++ s.places) = s.slots (slotsAt globals count front) := by
  rw [slotsAt, visible_stmt]
  cases s <;> simp [Stmt.declared, Stmt.slots, slotsAt, Slots.declare]

theorem slotsAt_block (body : Block Stmt) (front : List Place) :
    slotsAt globals count (front ++ blockPlaces body) = slotsAt globals count front := by
  rw [slotsAt, visible_block, slotsAt]

theorem slotsAt_opening (front : List Place) :
    slotsAt globals count (front ++ [.opening]) = slotsAt globals count front := by
  rw [slotsAt, visible_concat, filterMap_behind_opening]
  simp [Place.local?, slotsAt]

/-- Among places that change nothing about what is visible, each is settled as the
first one is. -/
theorem settled_of_silent {front ps : List Place} (hps : ∀ p ∈ ps, p.Silent)
    (h : settledFrom globals count Q front ps) :
    ∀ p ∈ ps, p.Settled (slotsAt globals count front) Q := by
  induction ps generalizing front with
  | nil => nofun
  | cons p ps ih =>
    obtain ⟨hp, hrest⟩ := List.forall_mem_cons.1 hps
    have hsettled := ih hrest h.2
    rw [slotsAt_append_silent front (List.forall_mem_singleton.2 hp)] at hsettled
    exact List.forall_mem_cons.2 ⟨h.1, hsettled⟩

mutual

theorem Stmt.settled_of_places : ∀ (s : Stmt) {front : List Place},
    settledFrom globals count Q front s.places → s.Settled Q (slotsAt globals count front)
  | .block body, _, h => block_settled_of_places body h
  | .var d, front, h => by
    obtain ⟨hinit, hdeclared, -⟩ := settledFrom_append.1 h
    rw [slotsAt_append_silent front (init_silent d.init)] at hdeclared
    exact ⟨settled_of_silent (init_silent d.init) hinit, hdeclared⟩
  | .cond test thenBlock none _, front, h => by
    obtain ⟨htest, hthen⟩ := settledFrom_append.1 h
    have hthen' := block_settled_of_places thenBlock hthen
    rw [slotsAt_append_silent front test.silent] at hthen'
    exact ⟨settled_of_silent test.silent htest, hthen'⟩
  | .cond test thenBlock (some elseBlock) _, front, h => by
    obtain ⟨htest, hblocks⟩ := settledFrom_append.1 h
    obtain ⟨hthen, helse⟩ := settledFrom_append.1 hblocks
    have hthen' := block_settled_of_places thenBlock hthen
    have helse' := block_settled_of_places elseBlock helse
    rw [slotsAt_append_silent front test.silent] at hthen'
    rw [slotsAt_block, slotsAt_append_silent front test.silent] at helse'
    exact ⟨settled_of_silent test.silent htest, hthen', helse'⟩
  | .ret value _, _, h => settled_of_silent (init_silent value) h
  | .print value _, _, h | .expr value _, _, h => settled_of_silent value.silent h
termination_by structural s => s

theorem block_settled_of_places : ∀ (body : Block Stmt) {front : List Place},
    settledFrom globals count Q front (blockPlaces body) →
      blockSettled Q body (slotsAt globals count front)
  | ⟨stmts, _⟩, front, h => by
    have hstmts := stmts_settled_of_places stmts (settledFrom_append.1 h.2).1
    rwa [slotsAt_opening] at hstmts
termination_by structural body => body

theorem stmts_settled_of_places : ∀ (ss : List Stmt) {front : List Place},
    settledFrom globals count Q front (stmtsPlaces ss) →
      stmtsSettled Q ss (slotsAt globals count front)
  | [], _, _ => trivial
  | s :: ss, front, h => by
    obtain ⟨hs, hss⟩ := settledFrom_append.1 h
    have hrest := stmts_settled_of_places ss hss
    rw [slotsAt_stmt] at hrest
    exact ⟨s.settled_of_places hs, hrest⟩
termination_by structural ss => ss

end

theorem slotsAt_param (p : Param) (front : List Place) :
    slotsAt globals count (front ++ [p.place]) = (slotsAt globals count front).declare p.id := by
  rw [slotsAt, Param.place, visible_concat_declared]
  simp [slotsAt, Slots.declare]

/-- The parameters of a function take the first slots. -/
theorem slotsAt_params (params : List Param) :
    slotsAt globals count (params.map Param.place) = ⟨globals, count, params.map (·.id)⟩ := by
  induction params using List.reverseRecOn with
  | nil => rfl
  | append_singleton params p ih =>
    rw [List.map_append, List.map_cons, List.map_nil, slotsAt_param, ih, List.map_append]
    rfl

theorem params_settled_of_places {params : List Param} {front : List Place}
    (h : settledFrom globals count Q front (params.map Param.place)) :
    paramsSettled Q params (slotsAt globals count front) := by
  induction params generalizing front with
  | nil => trivial
  | cons p ps ih =>
    have hps := ih h.2
    rw [slotsAt_param] at hps
    exact ⟨h.1, hps⟩

theorem Decl.settled_of_places {decl : Decl} (h : settledFrom globals count Q [] decl.places) :
    decl.Settled globals count Q := by
  cases decl with
  | fn d =>
    obtain ⟨hparams, hstmts⟩ := settledFrom_append.1 h
    have hbody := stmts_settled_of_places d.body.stmts hstmts
    rw [List.nil_append, slotsAt_params] at hbody
    exact ⟨params_settled_of_places hparams, hbody⟩
  | var d => exact settled_of_silent (init_silent d.init) h

/-! ## Resolved places -/

theorem declaredIds_cons_declared (isParam : Bool) (name : String) (id : Option SymbolId)
    (span : Span) (places : List Place) :
    (Place.declared isParam name id span :: places).filterMap Place.declaredId? =
      id :: places.filterMap Place.declaredId? := rfl

/-- What is visible has been declared. -/
theorem mem_declaredIds_of_mem_visible {places : List Place} {d : Declared}
    (h : d ∈ visible places) :
    d.id ∈ places.filterMap Place.declaredId? := by
  induction places with
  | nil => cases h
  | cons p places ih =>
    cases p with
    | declared isParam name id span =>
      rw [declaredIds_cons_declared, List.mem_cons]
      rw [visible] at h
      split at h
      · rcases List.mem_cons.1 h with rfl | h
        · exact .inl rfl
        · exact .inr (ih h)
      · exact .inr (ih h)
    | _ => exact ih h

theorem lt_of_globalOf? {names : List String} {name : String} {i : SymbolId}
    (h : globalOf? names name = some i) : i < names.length := by
  obtain ⟨⟨name', j⟩, hfind, rfl⟩ := Option.map_eq_some_iff.1 h
  have hmem := List.mem_reverse.1 (List.mem_of_find?_eq_some hfind)
  exact (List.getElem?_eq_some_iff.1 (List.mem_zipIdx_iff_getElem?.1 hmem)).1

/-- The numbers at places are those of lexical scoping: names stand for what is
visible, and each declaration has a number of its own behind those of the globals. -/
structure PlacesResolved (names : List String) (count : Nat) (places : List Place) : Prop where
  uses : ∀ {front after name id span}, places = front ++ .used name id span :: after →
    id = symbolOf? names front name
  ids : ∀ id ∈ places.filterMap Place.declaredId?, ∃ i, id = some i ∧ names.length ≤ i ∧ i < count
  nodup : (places.filterMap Place.declaredId?).Nodup

/-- Where no error is reported, no more locals are visible than may be. -/
theorem length_visible_le {names : List String} {places front after : List Place}
    (herrors : placeErrors names places = []) (h : places = front ++ after) :
    (visible front).length ≤ maxLocals := by
  have hcount := countP_tooManyLocals names places
  rw [herrors] at hcount
  have hroom : ¬crowded places := by
    intro hcrowded
    rw [if_pos hcrowded] at hcount
    cases hcount
  exact Nat.le_of_not_lt fun hlt => hroom (crowded_iff.2 ⟨front, ⟨after, h.symm⟩, hlt⟩)

theorem length_visible_lt {names : List String} {places front after : List Place}
    (herrors : placeErrors names places = []) {isParam : Bool} {name : String}
    {id : Option SymbolId}
    {span : Span} (h : places = front ++ .declared isParam name id span :: after) :
    (visible front).length < maxLocals := by
  have hlast : places = (front ++ [.declared isParam name id span]) ++ after := by
    rw [h, List.append_assoc, List.singleton_append]
  have hle := length_visible_le herrors hlast
  rwa [visible_concat_declared, List.length_append] at hle

/-- Resolved places are settled, if errors are tolerated or there are none. -/
theorem PlacesResolved.settledFrom {names : List String} {places : List Place}
    (h : PlacesResolved names count places)
    (hQ : Q .badTarget ∧ Q .tooManyLocals ∨ placeErrors names places = [])
    {front after : List Place}
    (heq : places = front ++ after) : settledFrom names.length count Q front after := by
  induction after generalizing front with
  | nil => trivial
  | cons p after ih =>
    refine ⟨?_, ih (by simp [heq])⟩
    cases p with
    | opening => trivial
    | closing => trivial
    | used name id span =>
      intro i hid _
      have hsymbol := (h.uses heq).symm.trans hid
      unfold symbolOf? at hsymbol
      split at hsymbol
      · next d hfound =>
        have hmem := List.mem_reverse.1 (List.mem_of_find?_eq_some hfound)
        exact .inr (hsymbol ▸ List.mem_map_of_mem hmem)
      · exact .inl (lt_of_globalOf? hsymbol)
    | assigned assignable span =>
      cases assignable with
      | true => trivial
      | false =>
        refine hQ.elim (·.1) fun herrors => ?_
        rw [placeErrors, heq, errorsFrom_append] at herrors
        cases (List.append_eq_nil_iff.1 herrors).2
    | declared isParam name id span =>
      have hids := h.nodup
      rw [heq, List.filterMap_append, declaredIds_cons_declared, List.nodup_append'] at hids
      refine ⟨fun i hid hlt => ⟨?_, fun hmem => ?_⟩, fun hfull => hQ.elim (·.2) fun herrors => ?_⟩
      · obtain ⟨j, hj, hle, -⟩ := h.ids id (by simp [heq, Place.declaredId?])
        cases hid.symm.trans hj
        exact hle
      · obtain ⟨d, hd, hdid⟩ := List.mem_map.1 hmem
        have hbefore := mem_declaredIds_of_mem_visible hd
        rw [hdid, ← hid] at hbefore
        exact hids.2.2 hbefore List.mem_cons_self
      · have hlt := length_visible_lt herrors heq
        have hheight : (visible front).length = maxSlots := by
          rw [← hfull]
          exact (List.length_map _).symm
        rw [hheight] at hlt
        exact absurd hlt (Nat.lt_irrefl _)

/-! ## Resolved programs -/

/-- What the resolution of a program has to do with its globals and its places. -/
structure Program.Resolves (hostNames : List String) (program : Program) (r : Resolution) :
    Prop where
  ids : r.program.decls.map Decl.id =
    (List.range' hostNames.length program.decls.length).map some
  symbols : r.symbols.toList =
    (globalsOf hostNames program).map (fun g => { name := g.1, span := g.2, kind := .global }) ++
      r.program.places.filterMap Place.symbol?
  resolved : ∀ decl ∈ r.program.decls,
    PlacesResolved ((globalsOf hostNames program).map Prod.fst) r.symbols.size decl.places
  nodup : (r.program.places.filterMap Place.declaredId?).Nodup
  errors : r.errors = [] → ∀ decl ∈ r.program.decls,
    placeErrors ((globalsOf hostNames program).map Prod.fst) decl.places = []

theorem Program.resolve_resolves (hostNames : List String) (program : Program) :
    program.Resolves hostNames (program.resolve hostNames) := by
  obtain ⟨decls, s, hglobals, -, hids, hresolve⟩ := program.exists_resolve_eq hostNames
  let s' : Scope := (decls.mapM resolveDecl s).2
  let places : List Place := (decls.mapM resolveDecl s).1.flatMap Decl.places
  have hdecls := resolveDecls_behind decls hglobals.locals hglobals.numbers
  have hnames : ((globalsOf hostNames program).map Prod.fst).length = s.symbols.size := by
    rw [List.length_map]
    exact hglobals.size_symbols.symm
  have hsize : s'.symbols.size = s.symbols.size + (places.filterMap Place.symbol?).length := by
    rw [← Array.length_toList, hdecls.symbols, List.length_append, Array.length_toList]
  have hnodup : (places.filterMap Place.declaredId?).Nodup := by
    rw [hdecls.ids]
    exact (List.nodup_range' 1).map (Option.some_injective _)
  rw [hresolve]
  refine ⟨?_, ?_, fun decl hdecl => ?_, hnodup, fun herrors decl hdecl => ?_⟩
  · dsimp only
    rw [map_id_resolveDecls, hids]
  · dsimp only
    rw [hdecls.symbols, hglobals.symbols]
    rfl
  · -- The numbers in one declaration are among those of all.
    have hsub : (decl.places.filterMap Place.declaredId?).Sublist
      (places.filterMap Place.declaredId?) := by
      refine List.Sublist.filterMap _ ?_
      dsimp only [places]
      rw [List.flatMap_def]
      exact List.sublist_flatten_of_mem (List.mem_map_of_mem hdecl)
    refine ⟨hdecls.uses decl hdecl, fun id hid => ?_, hsub.nodup hnodup⟩
    have hmem := hsub.subset hid
    rw [hdecls.ids] at hmem
    obtain ⟨i, hi, rfl⟩ := List.mem_map.1 hmem
    have hbounds := List.mem_range'_1.1 hi
    refine ⟨i, rfl, ?_, ?_⟩
    · rw [hnames]
      exact hbounds.1
    · rw [hsize]
      exact hbounds.2
  · dsimp only at herrors
    rw [hdecls.errors, List.append_eq_nil_iff] at herrors
    exact List.flatMap_eq_nil_iff.1 herrors.2 decl hdecl

/-- How many globals there are for a program: those of the host and its own. -/
def Program.globalsWith (hostNames : List String) (program : Program) : Nat :=
  hostNames.length + program.decls.length

theorem length_globalsOf (hostNames : List String) (program : Program) :
    (globalsOf hostNames program).length = program.globalsWith hostNames := by
  simp [globalsOf, Program.globalsWith]

namespace Program.Resolves

variable {hostNames : List String} {program : Program} {r : Resolution}

theorem globals_le (h : program.Resolves hostNames r) :
    program.globalsWith hostNames ≤ r.symbols.size := by
  have hlength := congrArg List.length h.symbols
  rw [Array.length_toList, List.length_append, List.length_map, length_globalsOf] at hlength
  omega

/-- The globals are the first symbols. -/
theorem kind (h : program.Resolves hostNames r) {id : SymbolId} {symbol : Symbol}
    (hsymbol : r.symbols[id]? = some symbol) :
    symbol.kind = .global ↔ id < program.globalsWith hostNames := by
  rw [← Array.getElem?_toList, h.symbols, List.getElem?_append, List.length_map,
    length_globalsOf] at hsymbol
  split at hsymbol
  · next hlt =>
    obtain ⟨g, -, rfl⟩ := List.mem_map.1 (List.mem_of_getElem? hsymbol)
    exact iff_of_true rfl hlt
  · next hge =>
    obtain ⟨p, -, hp⟩ := List.mem_filterMap.1 (List.mem_of_getElem? hsymbol)
    cases p with
    | declared isParam name id span =>
      cases hp
      exact iff_of_false nofun hge
    | _ => cases hp

theorem settled (h : program.Resolves hostNames r)
    (hQ : Q .badTarget ∧ Q .tooManyLocals ∨ r.errors = []) :
    r.program.Settled (program.globalsWith hostNames) r.symbols.size Q := by
  have hnames : ((globalsOf hostNames program).map Prod.fst).length =
    program.globalsWith hostNames := by
    rw [List.length_map, length_globalsOf]
  refine ⟨fun decl hdecl i hid _ => .inl ?_, fun decl hdecl => Decl.settled_of_places ?_⟩
  · have hmem : decl.id ∈ r.program.decls.map Decl.id := List.mem_map_of_mem hdecl
    rw [h.ids, hid] at hmem
    obtain ⟨j, hj, heq⟩ := List.mem_map.1 hmem
    cases heq
    exact (List.mem_range'_1.1 hj).2
  · rw [← hnames]
    exact (h.resolved decl hdecl).settledFrom
      (hQ.imp_right fun herrors => h.errors herrors decl hdecl)
      rfl

end Program.Resolves

end ScriptMachine
