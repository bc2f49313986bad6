import ScriptMachine.Proofs.Scope.Places
import ScriptMachine.Proofs.Scope.Resolution

/-!
# Name resolution is lexical scoping

Name resolution passes the places of a program in order (`Passes`), and keeps one
stack of locals with the depths of their blocks. Depths only grow towards the top of
that stack (`Scope.Nested`), so the locals of the innermost block are the uppermost ones,
and behind any places the stack holds what is visible there (`Scope.Reaches`), one step
of the walk after the other (`Scope.Reaches.pass`). So whole programs are resolved as
lexical scoping says (`Program.resolve_lexical`).
-/

namespace ScriptMachine

variable {α β : Type}

/-! ## Passing places -/

/-- The scope behind a place. -/
def Scope.pass (s : Scope) : Place → Scope
  | .opening => s.openBlock
  | .closing => s.closeBlock
  | .declared true name _ span => (s.declareParam name span).2
  | .declared false name _ span => (s.declareLocal name span).2
  | .used name _ span => (resolveName name span s).2
  | .assigned true _ => s
  | .assigned false span => s.report .badTarget span

/-- The number written at a place is the one that the scope gives. -/
def Place.Fits (s : Scope) : Place → Prop
  | .declared _ _ id _ => id = some s.symbols.size
  | .used name id _ => id = s.lookup? name
  | _ => True

/-- The walk passes places one after the other, writing a number at each. -/
inductive Passes : Scope → List Place → Scope → Prop
  | nil (s : Scope) : Passes s [] s
  | cons {s : Scope} {p : Place} {ps : List Place} {s' : Scope} (fits : p.Fits s)
    (rest : Passes (s.pass p) ps s') : Passes s (p :: ps) s'

namespace Passes

variable {s s' s'' : Scope} {ps qs : List Place} {p : Place}

theorem append (h : Passes s ps s') (h' : Passes s' qs s'') : Passes s (ps ++ qs) s'' := by
  induction h with
  | nil => exact h'
  | cons fits _ ih => exact .cons fits (ih h')

theorem single (fits : p.Fits s) : Passes s [p] (s.pass p) := .cons fits (.nil _)

end Passes

theorem resolveName_fst (name : String) (span : Span) (s : Scope) :
    (resolveName name span s).1 = s.lookup? name := by
  unfold resolveName
  cases s.lookup? name <;> rfl

theorem pushLocal_fst (s : Scope) (name : String) (span : Span) :
    (s.pushLocal name span).1 = s.symbols.size := by
  unfold Scope.pushLocal
  dsimp only
  split <;> rfl

/-- Some errors more. -/
def Scope.withErrors (s : Scope) (errors : List ScopeError) : Scope :=
  { s with errors := s.errors ++ errors.toArray }

theorem Scope.mem_locals_withLocal {s : Scope} {name : String} {span : Span} {b : Binding} :
    b ∈ (s.withLocal name span).locals ↔
      b = .declare name s.symbols.size s.depth ∨ b ∈ s.locals := List.mem_cons

theorem Scope.withErrors_nil (s : Scope) : s.withErrors [] = s := by
  simp [Scope.withErrors]

theorem Scope.report_eq (s : Scope) (fault : ScopeFault) (span : Span) :
    s.report fault span = s.withErrors [⟨fault, span⟩] := by
  simp [Scope.report, Scope.withErrors]

/-- Adding a local; the first beyond the limit is reported. -/
theorem pushLocal_snd (s : Scope) (name : String) (span : Span) :
    (s.pushLocal name span).2 = { (s.withLocal name span).withErrors
        (if maxLocals ≤ s.locals.length ∧ !s.overflowReported then [⟨.tooManyLocals, span⟩] else [])
      with overflowReported := s.overflowReported || decide (maxLocals ≤ s.locals.length) } := by
  unfold Scope.pushLocal Scope.withLocal Scope.withErrors
  by_cases hle : maxLocals ≤ s.locals.length <;> cases hreported : s.overflowReported <;>
    simp [hle, hreported, Scope.report]

theorem declareLocal_fst (s : Scope) (name : String) (span : Span) :
    (s.declareLocal name span).1 = s.symbols.size := by
  unfold Scope.declareLocal
  dsimp only
  split <;> exact pushLocal_fst _ name span

theorem declareParam_fst (s : Scope) (name : String) (span : Span) :
    (s.declareParam name span).1 = s.symbols.size := by
  unfold Scope.declareParam
  dsimp only
  split <;> exact pushLocal_fst _ name span

/-- A target that cannot be assigned to is reported before it is resolved. -/
theorem resolveExpr_assign (op : AssignOp) (target value : Expr) (span : Span) (s : Scope) :
    resolveExpr (.assign op target value span) s =
      (let s₁ := s.pass (.assigned target.isAssignable target.span)
      (.assign op (resolveExpr target s₁).1 (resolveExpr value (resolveExpr target s₁).2).1 span,
        (resolveExpr value (resolveExpr target s₁).2).2)) := by
  rw [resolveExpr]
  cases h : target.isAssignable <;> rfl

/-- Resolving an expression keeps whether it can be assigned to. -/
theorem resolveExpr_isAssignable (e : Expr) (s : Scope) :
    (resolveExpr e s).1.isAssignable = e.isAssignable := by
  cases e with
  | assign => rw [resolveExpr_assign]; rfl
  | _ => rfl

theorem resolveExpr_span (e : Expr) (s : Scope) : (resolveExpr e s).1.span = e.span := by
  cases e with
  | assign => rw [resolveExpr_assign]; rfl
  | _ => rfl

mutual

theorem resolveExpr_passes : ∀ (e : Expr) (s : Scope),
    Passes s (resolveExpr e s).1.places (resolveExpr e s).2
  | .null _, s | .bool _ _, s | .number _ _, s | .string _ _, s => .nil s
  | .name n _ span, s => .single (resolveName_fst n span s)
  | .unary _ e _, s => resolveExpr_passes e s
  | .binary _ left right _, s | .logical _ left right _, s | .index left right _, s =>
    (resolveExpr_passes left s).append (resolveExpr_passes right _)
  | .list items _, s => resolveExprs_passes items s
  | .assign op target value span, s => by
    rw [resolveExpr_assign, Expr.places, resolveExpr_isAssignable, resolveExpr_span]
    exact .cons trivial ((resolveExpr_passes target _).append (resolveExpr_passes value _))
  | .call callee args _, s => (resolveExpr_passes callee s).append (resolveExprs_passes args _)
  | .property object _ _, s => resolveExpr_passes object s

theorem resolveExprs_passes : ∀ (es : List Expr) (s : Scope),
    Passes s (exprsPlaces (resolveExprs es s).1) (resolveExprs es s).2
  | [], s => .nil s
  | e :: es, s => (resolveExpr_passes e s).append (resolveExprs_passes es _)

end

theorem resolveExpr?_passes (value : Option Expr) (s : Scope) :
    Passes s (initPlaces (resolveExpr? value s).1) (resolveExpr? value s).2 := by
  cases value with
  | none => exact .nil s
  | some e => exact resolveExpr_passes e s

mutual

theorem resolveStmt_passes : ∀ (stmt : Stmt) (s : Scope),
    Passes s (resolveStmt stmt s).1.places (resolveStmt stmt s).2
  | .block body, s => resolveBlock_passes body s
  | .var d, s => by
    have hdeclared := declareLocal_fst (resolveExpr? d.init s).2 d.name d.nameSpan
    exact (resolveExpr?_passes d.init s).append (.single (congrArg some hdeclared))
  | .cond test thenBlock none _, s =>
    (resolveExpr_passes test s).append (resolveBlock_passes thenBlock _)
  | .cond test thenBlock (some elseBlock) _, s =>
    (resolveExpr_passes test s).append
      ((resolveBlock_passes thenBlock _).append (resolveBlock_passes elseBlock _))
  | .ret value _, s => resolveExpr?_passes value s
  | .print value _, s | .expr value _, s => resolveExpr_passes value s

theorem resolveBlock_passes : ∀ (body : Block Stmt) (s : Scope),
    Passes s (blockPlaces (resolveBlock body s).1) (resolveBlock body s).2
  | ⟨stmts, _⟩, _ => .cons trivial ((resolveStmts_passes stmts _).append (.single trivial))

theorem resolveStmts_passes : ∀ (stmts : List Stmt) (s : Scope),
    Passes s (stmtsPlaces (resolveStmts stmts s).1) (resolveStmts stmts s).2
  | [], s => .nil s
  | stmt :: stmts, s => (resolveStmt_passes stmt s).append (resolveStmts_passes stmts _)

end

theorem resolveParams_passes : ∀ (params : List Param) (s : Scope),
    Passes s ((params.mapM resolveParam s).1.map Param.place) (params.mapM resolveParam s).2
  | [], s => .nil s
  | p :: params, s => by
    rw [List.mapM_cons]
    exact .cons (congrArg some (declareParam_fst s p.name p.span)) (resolveParams_passes params _)

/-! ## Nothing else is changed -/

mutual

theorem withoutIds_resolveExpr : ∀ (e : Expr) (s : Scope),
    (resolveExpr e s).1.withoutIds = e.withoutIds
  | .null _, _ | .bool _ _, _ | .number _ _, _ | .string _ _, _ | .name _ _ _, _ => rfl
  | .unary op e span, s => congrArg (Expr.unary op · span) (withoutIds_resolveExpr e s)
  | .binary op left right span, s =>
    congrArg₂ (Expr.binary op · · span) (withoutIds_resolveExpr left s)
      (withoutIds_resolveExpr right _)
  | .logical op left right span, s =>
    congrArg₂ (Expr.logical op · · span) (withoutIds_resolveExpr left s)
      (withoutIds_resolveExpr right _)
  | .list items span, s => congrArg (Expr.list · span) (withoutIds_resolveExprs items s)
  | .index base index span, s =>
    congrArg₂ (Expr.index · · span) (withoutIds_resolveExpr base s) (withoutIds_resolveExpr index _)
  | .assign op target value span, s => by
    rw [resolveExpr_assign]
    exact congrArg₂ (Expr.assign op · · span) (withoutIds_resolveExpr target _)
      (withoutIds_resolveExpr value _)
  | .call callee args span, s =>
    congrArg₂ (Expr.call · · span) (withoutIds_resolveExpr callee s)
      (withoutIds_resolveExprs args _)
  | .property object name span, s =>
    congrArg (Expr.property · name span) (withoutIds_resolveExpr object s)

theorem withoutIds_resolveExprs : ∀ (es : List Expr) (s : Scope),
    exprsWithoutIds (resolveExprs es s).1 = exprsWithoutIds es
  | [], _ => rfl
  | e :: es, s =>
    congrArg₂ List.cons (withoutIds_resolveExpr e s) (withoutIds_resolveExprs es _)

end

theorem withoutIds_resolveExpr? (value : Option Expr) (s : Scope) :
    initWithoutIds (resolveExpr? value s).1 = initWithoutIds value := by
  cases value with
  | none => rfl
  | some e => exact congrArg some (withoutIds_resolveExpr e s)

mutual

theorem withoutIds_resolveStmt : ∀ (stmt : Stmt) (s : Scope),
    (resolveStmt stmt s).1.withoutIds = stmt.withoutIds
  | .block body, s => congrArg Stmt.block (withoutIds_resolveBlock body s)
  | .var d, s =>
    congrArg (fun init => Stmt.var { d with id := none, init }) (withoutIds_resolveExpr? d.init s)
  | .cond test thenBlock none span, s =>
    congrArg₂ (Stmt.cond · · none span) (withoutIds_resolveExpr test s)
      (withoutIds_resolveBlock thenBlock _)
  | .cond test thenBlock (some elseBlock) span, s => by
    have htest := withoutIds_resolveExpr test s
    have hthen := withoutIds_resolveBlock thenBlock (resolveExpr test s).2
    have helse := withoutIds_resolveBlock elseBlock
      (resolveBlock thenBlock (resolveExpr test s).2).2
    rw [Stmt.withoutIds, ← htest, ← hthen, ← helse]
    rfl
  | .ret value span, s => congrArg (Stmt.ret · span) (withoutIds_resolveExpr? value s)
  | .print value span, s => congrArg (Stmt.print · span) (withoutIds_resolveExpr value s)
  | .expr value span, s => congrArg (Stmt.expr · span) (withoutIds_resolveExpr value s)

theorem withoutIds_resolveBlock : ∀ (body : Block Stmt) (s : Scope),
    blockWithoutIds (resolveBlock body s).1 = blockWithoutIds body
  | ⟨stmts, span⟩, _ => congrArg (Block.mk · span) (withoutIds_resolveStmts stmts _)

theorem withoutIds_resolveStmts : ∀ (stmts : List Stmt) (s : Scope),
    stmtsWithoutIds (resolveStmts stmts s).1 = stmtsWithoutIds stmts
  | [], _ => rfl
  | stmt :: stmts, s =>
    congrArg₂ List.cons (withoutIds_resolveStmt stmt s) (withoutIds_resolveStmts stmts _)

end

/-- Going through a list resolves its members one after the other. -/
theorem mapM_resolve_cons {f : α → Resolve β} (a : α) (as : List α) (s : Scope) :
    (a :: as).mapM f s = ((f a s).1 :: (as.mapM f (f a s).2).1, (as.mapM f (f a s).2).2) := by
  rw [List.mapM_cons]
  rfl

theorem withoutIds_resolveParams (params : List Param) (s : Scope) :
    (params.mapM resolveParam s).1.map (fun p => { p with id := none }) =
      params.map fun p => { p with id := none } := by
  induction params generalizing s with
  | nil => rfl
  | cons p params ih =>
    rw [mapM_resolve_cons, List.map_cons, List.map_cons, ih]
    rfl

theorem withoutIds_resolveDecl (decl : Decl) (s : Scope) :
    (resolveDecl decl s).1.withoutIds = decl.withoutIds := by
  cases decl with
  | fn d =>
    have hparams := withoutIds_resolveParams d.params s.openFn
    have hstmts := withoutIds_resolveStmts d.body.stmts (d.params.mapM resolveParam s.openFn).2
    rw [Decl.withoutIds, ← hparams, ← hstmts]
    rfl
  | var d =>
    exact congrArg (fun init => Decl.var { d with id := none, init })
      (withoutIds_resolveExpr? d.init s)

theorem withoutIds_declareDecl (decl : Decl) (s : Scope) :
    (declareDecl decl s).1.withoutIds = decl.withoutIds := by
  cases decl <;> rfl

/-- What every member keeps, the list keeps. -/
theorem map_mapM_resolve {f : α → Resolve α} {view : α → β}
    (h : ∀ a s, view (f a s).1 = view a) (as : List α) (s : Scope) :
    (as.mapM f s).1.map view = as.map view := by
  induction as generalizing s with
  | nil => rfl
  | cons a as ih => rw [mapM_resolve_cons, List.map_cons, List.map_cons, h, ih]

/-! ## What is visible behind one place more -/

/-- A visible local, behind one place more. -/
def Declared.behind (d : Declared) (p : Place) : Option Declared :=
  (p.nest d.depth).map fun depth => { d with depth }

/-- Where a block begins, all locals have one block more inside. -/
theorem filterMap_behind_opening (places : List Declared) :
    places.filterMap (·.behind .opening) = places.map fun d => { d with depth := d.depth + 1 } := by
  rw [← List.filterMap_eq_map]
  rfl

/-- The local that is declared at a place. -/
def Place.local? : Place → Option Declared
  | .declared _ name id span => some ⟨name, id, span, 0⟩
  | _ => none

theorem depthAfter_concat (places : List Place) (p : Place) :
    depthAfter (places ++ [p]) = (depthAfter places).bind p.nest := by
  simp [depthAfter, List.foldlM_append]

theorem visible_concat (places : List Place) (p : Place) :
    visible (places ++ [p]) = (visible places).filterMap (·.behind p) ++ p.local?.toList := by
  induction places with
  | nil => cases p <;> rfl
  | cons q places ih =>
    cases q with
    | declared isParam name id span =>
      rw [List.cons_append, visible, visible, depthAfter_concat, ih]
      cases depthAfter places with
      | none => rfl
      | some depth =>
        dsimp only [Option.bind_some]
        rw [List.filterMap_cons, Declared.behind]
        cases p.nest depth <;> rfl
    | _ => exact ih

/-- Where no local is declared none is visible. -/
theorem visible_eq_nil {places : List Place} (h : ∀ p ∈ places, p.local? = none) :
    visible places = [] := by
  induction places with
  | nil => rfl
  | cons p places ih =>
    obtain ⟨hp, hplaces⟩ := List.forall_mem_cons.1 h
    cases p with
    | declared => cases hp
    | _ => exact ih hplaces

theorem crowded_iff {places : List Place} :
    crowded places = true ↔ ∃ before, before <+: places ∧ maxLocals < (visible before).length := by
  simp [crowded]

theorem crowded_concat {places : List Place} {p : Place} :
    crowded (places ++ [p]) = true ↔
      maxLocals < (visible (places ++ [p])).length ∨ crowded places = true := by
  rw [crowded_iff, crowded_iff]
  constructor
  · rintro ⟨before, hbefore, hlt⟩
    rcases List.prefix_concat_iff.1 hbefore with rfl | hbefore
    · exact .inl hlt
    · exact .inr ⟨before, hbefore, hlt⟩
  · rintro (hlt | ⟨before, hbefore, hlt⟩)
    · exact ⟨_, List.prefix_refl _, hlt⟩
    · exact ⟨before, hbefore.trans (List.prefix_append _ _), hlt⟩

/-- Only where a local is declared may more be live than before. -/
theorem crowded_concat_of_local?_eq_none {p : Place} (h : p.local? = none) (places : List Place) :
    crowded (places ++ [p]) = crowded places := by
  have hle : (visible (places ++ [p])).length ≤ (visible places).length := by
    rw [visible_concat, h, Option.toList_none, List.append_nil]
    exact List.length_filterMap_le _ _
  rw [Bool.eq_iff_iff, crowded_concat, or_iff_right_iff_imp]
  exact fun hlt => crowded_iff.2 ⟨places, List.prefix_refl _, Nat.lt_of_lt_of_le hlt hle⟩

theorem filterMap_symbol?_concat {p : Place} (h : p.local? = none) (places : List Place) :
    (places ++ [p]).filterMap Place.symbol? = places.filterMap Place.symbol? := by
  cases p with
  | declared => cases h
  | _ => simp [Place.symbol?]

theorem filterMap_declaredId?_concat {p : Place} (h : p.local? = none) (places : List Place) :
    (places ++ [p]).filterMap Place.declaredId? = places.filterMap Place.declaredId? := by
  cases p with
  | declared => cases h
  | _ => simp [Place.declaredId?]

theorem visible_concat_declared (places : List Place) (isParam : Bool) (name : String)
    (id : Option SymbolId) (span : Span) :
    visible (places ++ [.declared isParam name id span]) =
      visible places ++ [⟨name, id, span, 0⟩] := by
  rw [visible_concat]
  have hbehind : (fun d : Declared => d.behind (.declared isParam name id span)) = some := rfl
  rw [hbehind, List.filterMap_some]
  rfl

theorem crowded_concat_declared (places : List Place) (isParam : Bool) (name : String)
    (id : Option SymbolId) (span : Span) :
    crowded (places ++ [.declared isParam name id span]) =
      (crowded places || decide (maxLocals ≤ (visible places).length)) := by
  rw [Bool.eq_iff_iff, crowded_concat, visible_concat_declared, List.length_append,
    List.length_singleton, Nat.lt_succ_iff]
  simp [or_comm]

theorem errorsFrom_append (globals : List String) (before ps qs : List Place) :
    errorsFrom globals before (ps ++ qs) =
      errorsFrom globals before ps ++ errorsFrom globals (before ++ ps) qs := by
  induction ps generalizing before with
  | nil => simp [errorsFrom]
  | cons p ps ih => simp [errorsFrom, ih]

theorem placeErrors_concat (globals : List String) (places : List Place) (p : Place) :
    placeErrors globals (places ++ [p]) =
      placeErrors globals places ++ errorsAt globals places p := by
  simp [placeErrors, errorsFrom_append, errorsFrom]

/-- At most one place is reported for too many locals: the first where more are live than may
be. -/
theorem countP_tooManyLocals (globals : List String) (places : List Place) :
    (placeErrors globals places).countP (·.fault = .tooManyLocals) =
      if crowded places then 1 else 0 := by
  induction places using List.reverseRecOn with
  | nil => rfl
  | append_singleton places p ih =>
    rw [placeErrors_concat, List.countP_append, ih]
    cases p with
    | declared isParam name id span =>
      rw [crowded_concat_declared, errorsAt, List.countP_append]
      have hrepeated :
          (repeatErrors places isParam name span).countP (·.fault = .tooManyLocals) = 0 := by
        unfold repeatErrors
        cases sameBlock? places name <;> cases isParam <;> rfl
      rw [hrepeated]
      by_cases hle : maxLocals ≤ (visible places).length <;>
        cases crowded places <;> simp [hle]
    | used name id span =>
      rw [crowded_concat_of_local?_eq_none rfl]
      cases id <;> simp [errorsAt]
    | assigned assignable span =>
      rw [crowded_concat_of_local?_eq_none rfl]
      cases assignable <;> simp [errorsAt]
    | opening =>
      rw [crowded_concat_of_local?_eq_none rfl]
      rfl
    | closing =>
      rw [crowded_concat_of_local?_eq_none rfl]
      rfl

/-! ## The stack of locals holds what is visible -/

/-- A local of the stack as it is seen from the innermost block. -/
def Scope.seen (s : Scope) (b : Binding) : Declared :=
  ⟨b.name, some b.id, s.declaredAt b.id, s.depth - b.depth⟩

/-- The blocks of the locals on the stack lie inside one another: none is deeper inside than
the innermost block, and none lies below one that is less deep inside. -/
structure Scope.Nested (s : Scope) : Prop where
  depth_le : ∀ b ∈ s.locals, b.depth ≤ s.depth
  sorted : s.locals.Pairwise fun b below => below.depth ≤ b.depth

/-- Of a stack that is sorted by depth, the locals of the greatest depth are the uppermost. -/
theorem uppermost_eq_filter {bs : List Binding} {depth : Nat} (hle : ∀ b ∈ bs, b.depth ≤ depth)
    (hsorted : bs.Pairwise fun b below => below.depth ≤ b.depth) :
    bs.takeWhile (·.depth = depth) = bs.filter (·.depth = depth) ∧
      bs.dropWhile (·.depth = depth) = bs.filter (·.depth < depth) := by
  induction bs with
  | nil => exact ⟨rfl, rfl⟩
  | cons b bs ih =>
    obtain ⟨hb, hbs⟩ := List.forall_mem_cons.1 hle
    obtain ⟨hbelow, hsorted⟩ := List.pairwise_cons.1 hsorted
    by_cases hdepth : b.depth = depth
    · obtain ⟨htake, hdrop⟩ := ih hbs hsorted
      simp [hdepth, htake, hdrop]
    · have hlt : ∀ c ∈ bs, c.depth < depth := by
        intro c hc
        have hc := hbelow c hc
        omega
      have hnone : bs.filter (·.depth = depth) = [] :=
        List.filter_eq_nil_iff.2 fun c hc => by simp [Nat.ne_of_lt (hlt c hc)]
      have hall : bs.filter (·.depth < depth) = bs :=
        List.filter_eq_self.2 fun c hc => by simp [hlt c hc]
      simp [hdepth, hnone, hall, Nat.lt_of_le_of_ne hb hdepth]

namespace Scope.Nested

variable {s : Scope} {name : String}

theorem innermost_eq (h : s.Nested) :
    s.locals.takeWhile (·.depth = s.depth) = s.locals.filter (·.depth = s.depth) :=
  (uppermost_eq_filter h.depth_le h.sorted).1

theorem locals_closeBlock (h : s.Nested) :
    s.closeBlock.locals = s.locals.filter (·.depth < s.depth) :=
  (uppermost_eq_filter h.depth_le h.sorted).2

theorem openBlock (h : s.Nested) : s.openBlock.Nested :=
  ⟨fun b hb => Nat.le_succ_of_le (h.depth_le b hb), h.sorted⟩

theorem closeBlock (h : s.Nested) : s.closeBlock.Nested := by
  refine ⟨fun b hb => ?_, ?_⟩
  · rw [h.locals_closeBlock, List.mem_filter] at hb
    exact Nat.le_sub_one_of_lt (of_decide_eq_true hb.2)
  · rw [h.locals_closeBlock]
    exact h.sorted.filter _

theorem withErrors (h : s.Nested) (errors : List ScopeError) : (s.withErrors errors).Nested :=
  ⟨h.depth_le, h.sorted⟩

theorem withLocal (h : s.Nested) (name : String) (span : Span) : (s.withLocal name span).Nested :=
  ⟨List.forall_mem_cons.2 ⟨Nat.le_refl _, h.depth_le⟩, List.pairwise_cons.2 ⟨h.depth_le, h.sorted⟩⟩

/-- The innermost block holds the locals with no block inside their own. -/
theorem find?_innermost (h : s.Nested) :
    (s.locals.map s.seen).find? (fun d => d.depth = 0 ∧ d.name = name) =
      ((s.locals.takeWhile (·.depth = s.depth)).find? (·.name = name)).map s.seen := by
  rw [h.innermost_eq, List.find?_filter, List.find?_map, ← List.head?_filter, ← List.head?_filter]
  refine congrArg (fun bs => Option.map s.seen (List.head? bs)) (List.filter_congr fun b hb => ?_)
  have hle := h.depth_le b hb
  have hzero : s.depth - b.depth = 0 ↔ b.depth = s.depth := by omega
  rw [Function.comp_apply, Scope.seen, decide_eq_decide, decide_eq_true_eq, decide_eq_true_eq]
  exact and_congr_left' hzero

theorem map_seen_openBlock (h : s.Nested) :
    s.openBlock.locals.map s.openBlock.seen =
      (s.locals.map s.seen).filterMap (·.behind .opening) := by
  rw [filterMap_behind_opening, List.map_map]
  refine List.map_congr_left fun b hb => ?_
  have hsub : s.openBlock.depth - b.depth = s.depth - b.depth + 1 :=
    Nat.succ_sub (h.depth_le b hb)
  rw [Function.comp_apply, Scope.seen, hsub]
  rfl

/-- Where a block ends, those in it are gone and the others have one block less inside. -/
theorem map_seen_closeBlock (h : s.Nested) :
    s.closeBlock.locals.map s.closeBlock.seen =
      (s.locals.map s.seen).filterMap (·.behind .closing) := by
  rw [h.locals_closeBlock, List.filterMap_map, ← List.filterMap_eq_map, List.filterMap_filter]
  refine List.filterMap_congr fun b hb => ?_
  have hle := h.depth_le b hb
  rw [Function.comp_apply, Function.comp_apply, Declared.behind, Place.nest, Scope.seen, Scope.seen]
  by_cases hlt : b.depth < s.depth
  · have hsub : s.closeBlock.depth - b.depth = s.depth - b.depth - 1 := Nat.sub_right_comm ..
    have hne : s.depth - b.depth ≠ 0 := by omega
    rw [if_pos (decide_eq_true hlt), hsub, if_neg hne]
    rfl
  · have hzero : s.depth - b.depth = 0 := by omega
    rw [if_neg (by simpa using hlt), if_pos hzero]
    rfl

end Scope.Nested

/-! ## The scope behind some places -/

/-- The globals of a scope are those of some names, in order. -/
def Scope.Numbers (globals : List String) (s : Scope) : Prop :=
  s.globals.toList.map (fun b => (b.name, b.id)) = globals.zipIdx

theorem Scope.Numbers.globalOf?_eq {globals : List String} {s : Scope} (h : s.Numbers globals)
    (name : String) : globalOf? globals name = (s.globals.findRev? (·.name = name)).map (·.id) := by
  rw [globalOf?, ← h, ← List.map_reverse, List.find?_map, Option.map_map,
    Array.findRev?_eq_find?_reverse, ← Array.find?_toList, Array.toList_reverse]
  rfl

theorem Scope.Numbers.names_eq {globals : List String} {s : Scope} (h : s.Numbers globals) :
    s.globals.toList.map (·.name) = globals := by
  have hfst := congrArg (List.map Prod.fst) h
  simpa [Function.comp_def, List.zipIdx_map_fst] using hfst

/-- The stack of the scope `s`, reached from `s₀` behind some places, holds what is
visible there. The symbols and errors that it has more are those of the places, and
each name there stands for what lexical scoping says. -/
structure Scope.Reaches (names : List String) (before : List Place) (s₀ s : Scope) : Prop where
  live : s.locals.map s.seen = (visible before).reverse
  nested : s.Nested
  id_lt : ∀ b ∈ s.locals, b.id < s.symbols.size
  symbols : s.symbols.toList = s₀.symbols.toList ++ before.filterMap Place.symbol?
  ids : before.filterMap Place.declaredId? =
    (List.range' s₀.symbols.size (before.filterMap Place.symbol?).length).map some
  errors : s.errors.toList = s₀.errors.toList ++ placeErrors names before
  globals : s.globals = s₀.globals
  overflow : s.overflowReported = crowded before
  uses : ∀ {front after name id span}, before = front ++ .used name id span :: after →
    id = symbolOf? names front name

namespace Scope.Reaches

variable {names : List String} {s₀ s : Scope} {before : List Place}

theorem start (hlocals : s.locals = []) (hoverflow : s.overflowReported = false) :
    s.Reaches names [] s where
  live := by rw [hlocals]; rfl
  nested := ⟨by simp [hlocals], by simp [hlocals]⟩
  id_lt := by simp [hlocals]
  symbols := (List.append_nil _).symm
  ids := rfl
  errors := (List.append_nil _).symm
  globals := rfl
  overflow := hoverflow
  uses h := by simp at h

theorem length_locals (h : s₀.Reaches names before s) :
    s.locals.length = (visible before).length := by
  rw [← List.length_map s.seen, h.live, List.length_reverse]

theorem size_symbols (h : s₀.Reaches names before s) :
    s.symbols.size = s₀.symbols.size + (before.filterMap Place.symbol?).length := by
  rw [← Array.length_toList, h.symbols, List.length_append, Array.length_toList]

theorem lookup?_eq (h : s₀.Reaches names before s) (hs₀ : s₀.Numbers names) (name : String) :
    s.lookup? name = symbolOf? names before name := by
  rw [symbolOf?, hs₀.globalOf?_eq, ← h.globals, ← h.live, List.find?_map, s.lookup?_eq]
  have hseen : (fun d : Declared => decide (d.name = name)) ∘ s.seen =
      fun b : Binding => decide (b.name = name) := rfl
  rw [hseen]
  cases s.locals.find? (·.name = name) <;> rfl

theorem visibleNames_eq (h : s₀.Reaches names before s) (hs₀ : s₀.Numbers names) :
    s.visibleNames = (visible before).reverse.map (·.name) ++ names := by
  rw [Scope.visibleNames, h.globals, hs₀.names_eq, ← h.live, List.map_map]
  rfl

theorem sameBlock?_eq (h : s₀.Reaches names before s) (name : String) :
    sameBlock? before name =
      ((s.locals.takeWhile (·.depth = s.depth)).find? (·.name = name)).map s.seen := by
  rw [sameBlock?, ← h.live, h.nested.find?_innermost]

/-! ### Declarations -/

theorem declareLocal_eq (h : s₀.Reaches names before s) (name : String) (span : Span) :
    s.declareLocal name span =
      (s.withErrors (repeatErrors before false name span)).pushLocal name span := by
  rw [repeatErrors, h.sameBlock?_eq, Scope.declareLocal, Scope.lookupInner?_eq]
  cases (s.locals.takeWhile (·.depth = s.depth)).find? (·.name = name) with
  | none => exact congrArg (Scope.pushLocal · name span) s.withErrors_nil.symm
  | some b => exact congrArg (Scope.pushLocal · name span) (s.report_eq _ span)

theorem declareParam_eq (h : s₀.Reaches names before s) (name : String) (span : Span) :
    s.declareParam name span =
      (s.withErrors (repeatErrors before true name span)).pushLocal name span := by
  rw [repeatErrors, h.sameBlock?_eq, Scope.declareParam, Scope.lookupInner?_eq]
  cases (s.locals.takeWhile (·.depth = s.depth)).find? (·.name = name) with
  | none => exact congrArg (Scope.pushLocal · name span) s.withErrors_nil.symm
  | some b => exact congrArg (Scope.pushLocal · name span) (s.report_eq _ span)

theorem pass_declared (h : s₀.Reaches names before s) (isParam : Bool) (name : String)
    (id : Option SymbolId) (span : Span) :
    s.pass (.declared isParam name id span) =
      { (s.withLocal name span).withErrors (errorsAt names before (.declared isParam name id span))
        with overflowReported := crowded (before ++ [.declared isParam name id span]) } := by
  have hpush : s.pass (.declared isParam name id span) =
      ((s.withErrors (repeatErrors before isParam name span)).pushLocal name span).2 := by
    cases isParam with
    | false => exact congrArg Prod.snd (h.declareLocal_eq name span)
    | true => exact congrArg Prod.snd (h.declareParam_eq name span)
  have hlocals : (s.withErrors (repeatErrors before isParam name span)).locals = s.locals := rfl
  rw [hpush, pushLocal_snd, crowded_concat_declared, errorsAt, hlocals, ← h.length_locals,
    ← h.overflow]
  simp [Scope.withErrors, Scope.withLocal]

theorem declaredAt_withLocal (s : Scope) (name : String) (span : Span) (id : SymbolId) :
    (s.withLocal name span).declaredAt id =
      if id = s.symbols.size then span else s.declaredAt id := by
  unfold Scope.declaredAt Scope.withLocal
  rw [Array.getElem?_push]
  by_cases hid : id = s.symbols.size <;> simp [hid]

/-- A new local lies on top of those there were, and no block has begun since. -/
theorem map_seen_withLocal (h : s₀.Reaches names before s) (name : String) (span : Span) :
    (s.withLocal name span).locals.map (s.withLocal name span).seen =
      ⟨name, some s.symbols.size, span, 0⟩ :: s.locals.map s.seen := by
  have hold : ∀ b ∈ s.locals, (s.withLocal name span).seen b = s.seen b := by
    intro b hb
    rw [Scope.seen, declaredAt_withLocal, if_neg (Nat.ne_of_lt (h.id_lt b hb))]
    rfl
  have hnew : (s.withLocal name span).seen (.declare name s.symbols.size s.depth) =
      ⟨name, some s.symbols.size, span, 0⟩ := by
    rw [Scope.seen, Binding.id_declare, declaredAt_withLocal, if_pos rfl]
    exact congrArg (Declared.mk name (some s.symbols.size) span) (Nat.sub_self s.depth)
  rw [← hnew, ← List.map_congr_left hold]
  rfl

/-! ### One place more -/

/-- The names used at places and at one more stand for what they should, if the one more does. -/
theorem uses_concat (h : s₀.Reaches names before s) {p : Place}
    (hp : ∀ {name id span}, p = .used name id span → id = symbolOf? names before name)
    {front after : List Place} {name : String} {id : Option SymbolId} {span : Span}
    (heq : before ++ [p] = front ++ .used name id span :: after) :
    id = symbolOf? names front name := by
  rcases List.eq_nil_or_concat' after with rfl | ⟨after, q, rfl⟩
  · obtain ⟨rfl, hused⟩ := List.append_inj' heq rfl
    exact hp (List.singleton_inj.1 hused)
  · rw [← List.cons_append, ← List.append_assoc] at heq
    exact h.uses (List.append_inj' heq rfl).1

/-- A place that declares nothing, behind which the same symbols are known. -/
theorem passed (h : s₀.Reaches names before s) {p : Place} {s' : Scope} (hlocal : p.local? = none)
    (hp : ∀ {name id span}, p = .used name id span → id = symbolOf? names before name)
    (herrors : s'.errors.toList = s.errors.toList ++ errorsAt names before p)
    (hlive : s'.locals.map s'.seen = (s.locals.map s.seen).filterMap (·.behind p))
    (hnested : s'.Nested) (hlocals : s'.locals ⊆ s.locals) (hsymbols : s'.symbols = s.symbols)
    (hglobals : s'.globals = s.globals) (hoverflow : s'.overflowReported = s.overflowReported) :
    s₀.Reaches names (before ++ [p]) s' where
  live := by
    rw [hlive, h.live, visible_concat, hlocal, Option.toList_none, List.append_nil,
      List.filterMap_reverse]
  nested := hnested
  id_lt b hb := by
    rw [hsymbols]
    exact h.id_lt b (hlocals hb)
  symbols := by
    rw [hsymbols, h.symbols, filterMap_symbol?_concat hlocal]
  ids := by
    rw [filterMap_symbol?_concat hlocal, filterMap_declaredId?_concat hlocal, h.ids]
  errors := by rw [herrors, h.errors, placeErrors_concat, List.append_assoc]
  globals := hglobals.trans h.globals
  overflow := by rw [hoverflow, h.overflow, crowded_concat_of_local?_eq_none hlocal]
  uses := h.uses_concat hp

theorem pass (h : s₀.Reaches names before s) (hs₀ : s₀.Numbers names) {p : Place}
    (fits : p.Fits s) : s₀.Reaches names (before ++ [p]) (s.pass p) := by
  cases p with
  | opening =>
    exact h.passed rfl nofun (List.append_nil _).symm h.nested.map_seen_openBlock
      h.nested.openBlock (List.Subset.refl _) rfl rfl rfl
  | closing =>
    exact h.passed rfl nofun (List.append_nil _).symm h.nested.map_seen_closeBlock
      h.nested.closeBlock (List.dropWhile_subset _) rfl rfl rfl
  | used name id span =>
    have hid : id = symbolOf? names before name := fits.trans (h.lookup?_eq hs₀ name)
    have hpass : s.pass (.used name id span) =
        s.withErrors (errorsAt names before (.used name id span)) := by
      rw [fits, Scope.pass, resolveName]
      cases s.lookup? name with
      | some id => exact s.withErrors_nil.symm
      | none => rw [errorsAt, ← h.visibleNames_eq hs₀, ← s.report_eq]
    rw [hpass]
    refine h.passed rfl ?_ (by simp [Scope.withErrors]) List.filterMap_some.symm
      (h.nested.withErrors _) (List.Subset.refl _) rfl rfl rfl
    rintro _ _ _ ⟨⟩
    exact hid
  | assigned assignable span =>
    have hpass : s.pass (.assigned assignable span) =
        s.withErrors (errorsAt names before (.assigned assignable span)) := by
      cases assignable with
      | true => exact s.withErrors_nil.symm
      | false => exact s.report_eq _ span
    rw [hpass]
    exact h.passed rfl nofun (by simp [Scope.withErrors]) List.filterMap_some.symm
      (h.nested.withErrors _) (List.Subset.refl _) rfl rfl rfl
  | declared isParam name id span =>
    cases fits
    rw [h.pass_declared]
    refine ⟨?_, ⟨(h.nested.withLocal name span).depth_le, (h.nested.withLocal name span).sorted⟩,
      ?_, ?_, ?_, ?_, h.globals, rfl, h.uses_concat (by rintro _ _ _ ⟨⟩)⟩
    · rw [visible_concat_declared, List.reverse_concat, ← h.live]
      exact h.map_seen_withLocal name span
    · intro b hb
      have hlocals : b ∈ (s.withLocal name span).locals := hb
      have hsize : (s.withLocal name span).symbols.size = s.symbols.size + 1 := Array.size_push ..
      rw [Scope.mem_locals_withLocal] at hlocals
      refine Nat.lt_of_lt_of_eq ?_ hsize.symm
      rcases hlocals with rfl | hlocals
      · exact Nat.lt_succ_self _
      · exact Nat.lt_succ_of_lt (h.id_lt b hlocals)
    · simp [Scope.withErrors, Scope.withLocal, h.symbols, Place.symbol?]
    · rw [List.filterMap_append, List.filterMap_append, h.ids, List.length_append, h.size_symbols]
      simp [Place.symbol?, Place.declaredId?, List.range'_concat]
    · rw [placeErrors_concat, ← List.append_assoc, ← h.errors]
      simp [Scope.withErrors, Scope.withLocal]

theorem passes (h : s₀.Reaches names before s) (hs₀ : s₀.Numbers names) {ps : List Place}
    {s' : Scope} (hps : Passes s ps s') : s₀.Reaches names (before ++ ps) s' := by
  induction hps generalizing before with
  | nil => simpa using h
  | cons fits _ ih => simpa using ih (h.pass hs₀ fits)

end Scope.Reaches

/-! ## Declarations and programs -/

mutual

/-- Expressions declare no locals. -/
theorem Expr.local?_of_mem_places : ∀ (e : Expr), ∀ p ∈ e.places, p.local? = none
  | .null _ | .bool _ _ | .number _ _ | .string _ _ => nofun
  | .name _ _ _ => List.forall_mem_singleton.2 rfl
  | .unary _ e _ => e.local?_of_mem_places
  | .binary _ left right _ | .logical _ left right _ | .index left right _ =>
    List.forall_mem_append.2 ⟨left.local?_of_mem_places, right.local?_of_mem_places⟩
  | .list items _ => local?_of_mem_exprsPlaces items
  | .assign _ target value _ =>
    List.forall_mem_cons.2 ⟨rfl,
      List.forall_mem_append.2 ⟨target.local?_of_mem_places, value.local?_of_mem_places⟩⟩
  | .call callee args _ =>
    List.forall_mem_append.2 ⟨callee.local?_of_mem_places, local?_of_mem_exprsPlaces args⟩
  | .property object _ _ => object.local?_of_mem_places

theorem local?_of_mem_exprsPlaces : ∀ (es : List Expr), ∀ p ∈ exprsPlaces es, p.local? = none
  | [] => nofun
  | e :: es => List.forall_mem_append.2 ⟨e.local?_of_mem_places, local?_of_mem_exprsPlaces es⟩

end

/-- Whether a function has been reported only matters where locals are declared. -/
theorem Passes.withOverflow {s s' : Scope} {ps : List Place} (h : Passes s ps s')
    (hps : ∀ p ∈ ps, p.local? = none) (reported : Bool) :
    Passes { s with overflowReported := reported } ps { s' with overflowReported := reported } := by
  induction h with
  | nil => exact .nil _
  | @cons s p ps s' fits _ ih =>
    obtain ⟨hp, hps⟩ := List.forall_mem_cons.1 hps
    have hpass : { s.pass p with overflowReported := reported } =
        Scope.pass { s with overflowReported := reported } p := by
      cases p with
      | declared => cases hp
      | used name id span =>
        have hlookup : Scope.lookup? { s with overflowReported := reported } name =
          s.lookup? name :=
          rfl
        rw [Scope.pass, Scope.pass, resolveName, resolveName, hlookup]
        cases s.lookup? name <;> rfl
      | assigned assignable span => cases assignable <;> rfl
      | _ => rfl
    have hfits : p.Fits { s with overflowReported := reported } := by
      cases p with
      | declared => cases hp
      | used name id span => exact fits
      | _ => trivial
    exact .cons hfits (hpass ▸ ih hps)

/-- The scope behind a top-level declaration whose names are resolved. -/
structure Decl.Behind (names : List String) (s : Scope) (decl : Decl) (s' : Scope) : Prop where
  locals : s'.locals = []
  globals : s'.globals = s.globals
  symbols : s'.symbols.toList = s.symbols.toList ++ decl.places.filterMap Place.symbol?
  ids : decl.places.filterMap Place.declaredId? =
    (List.range' s.symbols.size (decl.places.filterMap Place.symbol?).length).map some
  errors : s'.errors.toList = s.errors.toList ++ placeErrors names decl.places
  uses : ∀ {front after name id span}, decl.places = front ++ .used name id span :: after →
    id = symbolOf? names front name

theorem resolveDecl_behind {names : List String} {s : Scope} (hlocals : s.locals = [])
    (hs : s.Numbers names) (decl : Decl) :
    (resolveDecl decl s).1.Behind names s (resolveDecl decl s).2 := by
  cases decl with
  | fn d =>
    have hparams := resolveParams_passes d.params s.openFn
    have hstmts := resolveStmts_passes d.body.stmts (d.params.mapM resolveParam s.openFn).2
    have hstart : s.openFn.Reaches names [] s.openFn := .start rfl rfl
    have h := hstart.passes hs (hparams.append hstmts)
    exact ⟨rfl, h.globals, h.symbols, h.ids, h.errors, h.uses⟩
  | var d =>
    let s₁ : Scope := { s with overflowReported := false }
    have hlocal : ∀ p ∈ initPlaces (resolveExpr? d.init s).1, p.local? = none := by
      cases d.init with
      | none => nofun
      | some e => exact Expr.local?_of_mem_places _
    have hstart : s₁.Reaches names [] s₁ := .start hlocals rfl
    have h := hstart.passes hs ((resolveExpr?_passes d.init s).withOverflow hlocal false)
    have hlength := h.length_locals
    rw [List.nil_append, visible_eq_nil hlocal] at hlength
    exact ⟨List.eq_nil_of_length_eq_zero hlength, h.globals, h.symbols, h.ids, h.errors, h.uses⟩

/-- The scope behind the declarations of a program, one after the other. -/
structure DeclsBehind (names : List String) (s : Scope) (decls : List Decl) (s' : Scope) :
    Prop where
  symbols : s'.symbols.toList =
    s.symbols.toList ++ (decls.flatMap Decl.places).filterMap Place.symbol?
  ids : (decls.flatMap Decl.places).filterMap Place.declaredId? =
    (List.range' s.symbols.size ((decls.flatMap Decl.places).filterMap Place.symbol?).length).map
      some
  errors : s'.errors.toList =
    s.errors.toList ++ decls.flatMap fun decl => placeErrors names decl.places
  uses : ∀ decl ∈ decls, ∀ {front after name id span},
    decl.places = front ++ .used name id span :: after → id = symbolOf? names front name

theorem resolveDecls_behind {names : List String} (decls : List Decl) {s : Scope}
    (hlocals : s.locals = []) (hs : s.Numbers names) :
    DeclsBehind names s (decls.mapM resolveDecl s).1 (decls.mapM resolveDecl s).2 := by
  induction decls generalizing s with
  | nil => exact ⟨(List.append_nil _).symm, rfl, (List.append_nil _).symm, nofun⟩
  | cons decl decls ih =>
    have hdecl := resolveDecl_behind hlocals hs decl
    have hdecls := ih hdecl.locals (by rw [Scope.Numbers, hdecl.globals]; exact hs)
    have hsize : (resolveDecl decl s).2.symbols.size = s.symbols.size +
        ((resolveDecl decl s).1.places.filterMap Place.symbol?).length := by
      rw [← Array.length_toList, hdecl.symbols, List.length_append, Array.length_toList]
    rw [mapM_resolve_cons]
    refine ⟨?_, ?_, ?_, List.forall_mem_cons.2 ⟨hdecl.uses, hdecls.uses⟩⟩
    · rw [hdecls.symbols, hdecl.symbols, List.flatMap_cons, List.filterMap_append,
        List.append_assoc]
    · rw [List.flatMap_cons, List.filterMap_append, List.filterMap_append, hdecl.ids, hdecls.ids,
        hsize, ← List.map_append, List.range'_append_1, List.length_append]
    · rw [hdecls.errors, hdecl.errors, List.flatMap_cons, List.append_assoc]

theorem map_id_resolveDecls (decls : List Decl) (s : Scope) :
    (decls.mapM resolveDecl s).1.map Decl.id = decls.map Decl.id :=
  map_mapM_resolve (fun decl _ => by cases decl <;> rfl) decls s

/-! ### Globals -/

theorem globalErrors_append (before gs gs' : List (String × Span)) :
    globalErrors before (gs ++ gs') = globalErrors before gs ++ globalErrors
      (before ++ gs) gs' := by
  induction gs generalizing before with
  | nil => simp [globalErrors]
  | cons g gs ih => simp [globalErrors, ih]

/-- The scope behind the declarations of some globals. -/
structure Scope.OfGlobals (gs : List (String × Span)) (s : Scope) : Prop where
  locals : s.locals = []
  globals : s.globals.toList = gs.zipIdx.map fun g => .declare g.1.1 g.2 0
  symbols : s.symbols.toList = gs.map fun g => { name := g.1, span := g.2, kind := .global }
  errors : s.errors.toList = globalErrors [] gs

namespace Scope.OfGlobals

variable {gs : List (String × Span)} {s : Scope}

theorem numbers (h : s.OfGlobals gs) : s.Numbers (gs.map Prod.fst) := by
  rw [Scope.Numbers, h.globals, List.map_map, List.zipIdx_map]
  rfl

theorem size_symbols (h : s.OfGlobals gs) : s.symbols.size = gs.length := by
  rw [← Array.length_toList, h.symbols, List.length_map]

/-- The first global of a name, and where it is declared. -/
theorem find?_eq (h : s.OfGlobals gs) (name : String) :
    (s.globals.find? (·.name = name)).map (fun b => s.declaredAt b.id) =
      (gs.find? (·.1 = name)).map Prod.snd := by
  have hspan : ∀ g ∈ gs.zipIdx, s.declaredAt g.2 = g.1.2 := by
    rintro ⟨g, i⟩ hg
    have hsymbol : s.symbols[i]? = some { name := g.1, span := g.2, kind := .global } := by
      rw [← Array.getElem?_toList, h.symbols, List.getElem?_map, List.mem_zipIdx_iff_getElem?.1 hg]
      rfl
    rw [Scope.declaredAt, hsymbol]
  have hfst : gs.find? (·.1 = name) = (gs.zipIdx.find? (·.1.1 = name)).map Prod.fst := by
    conv_lhs => rw [← List.zipIdx_map_fst 0 gs]
    rw [List.find?_map]
    rfl
  rw [← Array.find?_toList, h.globals, List.find?_map, hfst, Option.map_map, Option.map_map]
  refine Option.map_congr fun g hg => ?_
  exact hspan g (List.mem_of_find?_eq_some hg)

theorem declareGlobal_fst (s : Scope) (name : String) (span : Span) :
    (s.declareGlobal name span).1 = s.symbols.size := by
  unfold Scope.declareGlobal
  dsimp only
  split <;> rfl

theorem declareGlobal (h : s.OfGlobals gs) (name : String) (span : Span) :
    (s.declareGlobal name span).2.OfGlobals (gs ++ [(name, span)]) := by
  have hfind := h.find?_eq name
  have heq : (s.declareGlobal name span).2 = { s with
      errors := s.errors ++ ((gs.find? (·.1 = name)).map fun first =>
        (⟨.redeclared name first.2, span⟩ : ScopeError)).toList.toArray
      symbols := s.symbols.push { name, span, kind := .global }
      globals := s.globals.push (.declare name s.symbols.size 0) } := by
    unfold Scope.declareGlobal
    cases hold : s.globals.find? (·.name = name) with
    | none =>
      rw [hold] at hfind
      rw [Option.map_eq_none_iff.1 hfind.symm]
      simp
    | some b =>
      rw [hold] at hfind
      obtain ⟨g, hg, hspan⟩ := Option.map_eq_some_iff.1 hfind.symm
      rw [hg]
      simp [Scope.report, hspan]
  rw [heq]
  refine ⟨h.locals, ?_, ?_, ?_⟩
  · simp [h.globals, h.size_symbols, List.zipIdx_append]
  · simp [h.symbols]
  · simp [h.errors, globalErrors_append, globalErrors]

/-- Declaring globals of a program, whose numbers are those of their symbols. -/
theorem declareDecls (decls : List Decl) (h : s.OfGlobals gs) :
    (decls.mapM declareDecl s).2.OfGlobals
        (gs ++ decls.map fun decl => (decl.name, decl.nameSpan)) ∧
      (decls.mapM declareDecl s).1.map Decl.id =
        (List.range' gs.length decls.length).map some := by
  induction decls generalizing s gs with
  | nil => exact ⟨(List.append_nil gs).symm ▸ h, rfl⟩
  | cons decl decls ih =>
    have hdecl : (declareDecl decl s).1.id = some gs.length ∧
        (declareDecl decl s).2.OfGlobals (gs ++ [(decl.name, decl.nameSpan)]) := by
      cases decl with
      | fn d =>
        exact ⟨congrArg some ((declareGlobal_fst s d.name d.nameSpan).trans h.size_symbols),
          h.declareGlobal d.name d.nameSpan⟩
      | var d =>
        exact ⟨congrArg some ((declareGlobal_fst s d.name d.nameSpan).trans h.size_symbols),
          h.declareGlobal d.name d.nameSpan⟩
    obtain ⟨hdecls, hids⟩ := ih hdecl.2
    rw [mapM_resolve_cons]
    refine ⟨by simpa using hdecls, ?_⟩
    rw [List.map_cons, hdecl.1, hids]
    simp [List.range'_succ]

theorem declareHosts (names : List String) (h : s.OfGlobals gs) :
    (names.foldl (fun s name => (s.declareGlobal name .nowhere).2) s).OfGlobals
      (gs ++ names.map (·, .nowhere)) := by
  induction names generalizing s gs with
  | nil => simpa using h
  | cons name names ih => simpa using ih (h.declareGlobal name .nowhere)

end Scope.OfGlobals

/-- Resolving a program declares all globals, which gives each declaration its number, and then
resolves the declarations one after the other. -/
theorem Program.exists_resolve_eq (hostNames : List String) (program : Program) :
    ∃ (decls : List Decl) (s : Scope), s.OfGlobals (globalsOf hostNames program) ∧
      decls.map Decl.withoutIds = program.decls.map Decl.withoutIds ∧
      decls.map Decl.id = (List.range' hostNames.length program.decls.length).map some ∧
      program.resolve hostNames = ⟨⟨(decls.mapM resolveDecl s).1⟩,
        (decls.mapM resolveDecl s).2.symbols, (decls.mapM resolveDecl s).2.errors.toList⟩ := by
  let s₁ : Scope := hostNames.foldl (fun s name => (s.declareGlobal name .nowhere).2) {}
  have hstart : ({} : Scope).OfGlobals [] := ⟨rfl, rfl, rfl, rfl⟩
  have hhosts : s₁.OfGlobals (hostNames.map (·, .nowhere)) := hstart.declareHosts hostNames
  obtain ⟨hglobals, hids⟩ := hhosts.declareDecls program.decls
  rw [List.length_map] at hids
  exact ⟨_, _, hglobals, map_mapM_resolve withoutIds_declareDecl _ _, hids, rfl⟩

/-- Name resolution only writes numbers. -/
theorem Program.withoutIds_resolve (hostNames : List String) (program : Program) :
    (program.resolve hostNames).program.withoutIds = program.withoutIds := by
  obtain ⟨decls, s, -, hsame, -, hresolve⟩ := program.exists_resolve_eq hostNames
  rw [hresolve]
  refine congrArg Program.mk ?_
  rw [map_mapM_resolve withoutIds_resolveDecl, hsame]

/-- Name resolution is lexical scoping: it writes at each name the number of the innermost
declaration that is visible there, gives each declaration its symbol, and reports exactly the errors
of scoping, in the order of the walk. -/
theorem Program.resolve_lexical (hostNames : List String) (program : Program) :
    (program.resolve hostNames).Lexical hostNames program := by
  obtain ⟨decls, s, hglobals, -, hids, hresolve⟩ := program.exists_resolve_eq hostNames
  have hdecls := resolveDecls_behind decls hglobals.locals hglobals.numbers
  have hunchanged := program.withoutIds_resolve hostNames
  rw [hresolve] at hunchanged ⊢
  refine ⟨hunchanged, ?_, ?_, hdecls.uses, ?_, fun _ _ => countP_tooManyLocals _ _⟩
  · dsimp only
    rw [hdecls.symbols, hglobals.symbols]
    rfl
  · have hsize := congrArg List.length hdecls.symbols
    rw [Array.length_toList, List.length_append, Array.length_toList,
      hglobals.size_symbols] at hsize
    have hlength : (globalsOf hostNames program).length =
        hostNames.length + program.decls.length := by
      simp [globalsOf]
    rw [Program.declaredIds, Program.places, hdecls.ids, hglobals.size_symbols, hsize, hlength,
      map_id_resolveDecls, hids, ← List.map_append, List.range'_append_1]
    congr 2
    omega
  · dsimp only
    rw [hdecls.errors, hglobals.errors]

end ScriptMachine
