import ScriptMachine.Proofs.Program.Nodes
import ScriptMachine.Proofs.Scope.Lexical

/-!
# What scoping errors are about

Every scoping error is about a node of the program (`ScopeError.About`): a name that is used
or declared, or what is assigned to. It has the span of that node. The errors of a walk are
errors at its places, and each place belongs to a node (`Stmt.places_explained`), so that
the errors of a resolution are about nodes of the program (`Program.explains_of_resolve`).
The host's names cause no errors when they are distinct.
-/

namespace ScriptMachine

/-! ## Errors and nodes -/

/-- What a scoping error is about. It shows at the second of the nodes, the offence, because
of the first one, which is the same or right above it. -/
inductive ScopeError.About : ScopeError → TreeNode → TreeNode → Prop
  | unknownName {name : String} {id : Option SymbolId} {candidates : List String} {s : Span} :
    About ⟨.unknownName name candidates, s⟩ (.expr (.name name id s)) (.expr (.name name id s))
  | redeclared {name : String} {previous s : Span} {node : TreeNode}
      (h : .name name s ∈ node.children) :
    About ⟨.redeclared name previous, s⟩ node (.name name s)
  | repeatedParam {name : String} {s : Span} {node : TreeNode} (h : .name name s ∈ node.children) :
    About ⟨.repeatedParam name, s⟩ node (.name name s)
  | tooManyLocals {name : String} {s : Span} {node : TreeNode} (h : .name name s ∈ node.children) :
    About ⟨.tooManyLocals, s⟩ node (.name name s)
  | badTarget {op : AssignOp} {target value : Expr} {s : Span} (h : target.isAssignable = false) :
    About ⟨.badTarget, target.span⟩ (.expr (.assign op target value s)) (.expr target)

namespace ScopeError.About

variable {e : ScopeError} {node offence : TreeNode}

theorem span_eq (h : e.About node offence) : e.span = offence.span := by
  cases h <;> rfl

theorem offence_mem (h : e.About node offence) : offence = node ∨ offence ∈ node.children := by
  cases h with
  | unknownName => exact .inl rfl
  | redeclared h | repeatedParam h | tooManyLocals h => exact .inr h
  | badTarget _ => exact .inr List.mem_cons_self

theorem withoutIds (h : e.About node offence) : e.About node.withoutIds offence.withoutIds := by
  have hname {name : String} {s : Span} {node : TreeNode} (h : .name name s ∈ node.children) :
      .name name s ∈ node.withoutIds.children := by
    rw [TreeNode.children_withoutIds]
    exact List.mem_map_of_mem h
  cases h with
  | unknownName => exact .unknownName
  | redeclared h => exact .redeclared (hname h)
  | repeatedParam h => exact .repeatedParam (hname h)
  | tooManyLocals h => exact .tooManyLocals (hname h)
  | @badTarget op target _ _ h =>
    rw [← Expr.span_withoutIds]
    exact .badTarget ((Expr.isAssignable_withoutIds target).trans h)

end ScopeError.About

/-! ## Places and nodes -/

/-- Whatever can be reported at the place is about a node of the tree. -/
def Place.Explained (root : TreeNode) (p : Place) : Prop :=
  ∀ globals before, ∀ e ∈ errorsAt globals before p, root.Explains e.About

namespace Place.Explained

variable {root child : TreeNode} {p : Place}

theorem below (h : p.Explained child) (hchild : child ∈ root.children) : p.Explained root :=
  fun globals before e he => (h globals before e he).below hchild

theorem opening : Place.opening.Explained root := nofun

theorem closing : Place.closing.Explained root := nofun

theorem used (name : String) (id : Option SymbolId) (s : Span) :
    (Place.used name id s).Explained (.expr (.name name id s)) := by
  intro globals before e he
  cases id with
  | none =>
    rw [List.mem_singleton.1 he]
    exact .self .unknownName
  | some id => cases he

theorem assigned (op : AssignOp) (target value : Expr) (s : Span) :
    (Place.assigned target.isAssignable target.span).Explained
      (.expr (.assign op target value s)) := by
  intro globals before e he
  cases htarget : target.isAssignable with
  | true =>
    rw [htarget] at he
    cases he
  | false =>
    rw [htarget] at he
    rw [List.mem_singleton.1 he]
    exact .self (.badTarget htarget)

theorem declared (isParam : Bool) {name : String} (id : Option SymbolId) {s : Span}
    (h : .name name s ∈ root.children) : (Place.declared isParam name id s).Explained root := by
  intro globals before e he
  rcases List.mem_append.1 he with he | he
  · obtain ⟨d, -, rfl⟩ := Option.map_eq_some_iff.1 (Option.mem_toList.1 he)
    cases isParam with
    | true => exact .self (.repeatedParam h)
    | false => exact .self (.redeclared h)
  · split at he
    · rw [List.mem_singleton.1 he]
      exact .self (.tooManyLocals h)
    · cases he

end Place.Explained

section Places

open Place.Explained

mutual

theorem Expr.places_explained : ∀ (e : Expr), ∀ p ∈ e.places, p.Explained (.expr e)
  | .null _ | .bool _ _ | .number _ _ | .string _ _ => nofun
  | .name n id s => List.forall_mem_singleton.2 (used n id s)
  | .unary _ e _ => fun p hp => (e.places_explained p hp).below (mem_operands (.head _))
  | .binary _ left right _ | .logical _ left right _ | .index left right _ =>
    List.forall_mem_append.2 ⟨fun p hp => (left.places_explained p hp).below
      (mem_operands (.head _)),
      fun p hp => (right.places_explained p hp).below (mem_operands (.tail _ (.head _)))⟩
  | .list items _ => fun p hp => by
    obtain ⟨e, he, hexplained⟩ := exprsPlaces_explained items p hp
    exact hexplained.below (mem_operands he)
  | .assign op target value s =>
    List.forall_mem_cons.2 ⟨assigned op target value s, List.forall_mem_append.2
      ⟨fun p hp => (target.places_explained p hp).below (mem_operands (.head _)),
        fun p hp => (value.places_explained p hp).below (mem_operands (.tail _ (.head _)))⟩⟩
  | .call callee args _ =>
    List.forall_mem_append.2
      ⟨fun p hp => (callee.places_explained p hp).below (mem_operands (.head _)), fun p hp => by
        obtain ⟨e, he, hexplained⟩ := exprsPlaces_explained args p hp
        exact hexplained.below (mem_operands (.tail _ he))⟩
  | .property object _ _ =>
    fun p hp => (object.places_explained p hp).below (mem_operands (.head _))

theorem exprsPlaces_explained : ∀ (es : List Expr), ∀ p ∈ exprsPlaces es,
    ∃ e ∈ es, p.Explained (.expr e)
  | [], _, hp => nomatch hp
  | e :: es, p, hp => by
    rcases List.mem_append.1 hp with hp | hp
    · exact ⟨e, .head _, e.places_explained p hp⟩
    · obtain ⟨e', he', hexplained⟩ := exprsPlaces_explained es p hp
      exact ⟨e', .tail _ he', hexplained⟩

end

theorem initPlaces_explained {root : TreeNode} {value : Option Expr}
    (hvalue : ∀ e ∈ value, .expr e ∈ root.children) : ∀ p ∈ initPlaces value, p.Explained root := by
  cases value with
  | none => nofun
  | some e => exact fun p hp => (e.places_explained p hp).below (hvalue e rfl)

mutual

theorem Stmt.places_explained : ∀ (s : Stmt), ∀ p ∈ s.places, p.Explained (.stmt s)
  | .block body => fun p hp => (blockPlaces_explained body p hp).below (.head _)
  | .var d => List.forall_mem_append.2
      ⟨initPlaces_explained fun _ he => d.expr_mem_nodes he,
        List.forall_mem_singleton.2 (declared false _ (.head _))⟩
  | .cond test thenBlock none _ => List.forall_mem_append.2
      ⟨fun p hp => (test.places_explained p hp).below (.head _),
        fun p hp => (blockPlaces_explained thenBlock p hp).below (.tail _ (.head _))⟩
  | .cond test thenBlock (some elseBlock) _ => List.forall_mem_append.2
      ⟨fun p hp => (test.places_explained p hp).below (.head _), List.forall_mem_append.2
        ⟨fun p hp => (blockPlaces_explained thenBlock p hp).below (.tail _ (.head _)),
          fun p hp => (blockPlaces_explained elseBlock p hp).below (.tail _ (.tail _ (.head _)))⟩⟩
  | .ret _ _ => initPlaces_explained fun _ he => Stmt.returned_mem_children he
  | .print value _ | .expr value _ => fun p hp => (value.places_explained p hp).below (.head _)

theorem blockPlaces_explained : ∀ (b : Block Stmt), ∀ p ∈ blockPlaces b, p.Explained (.block b)
  | ⟨stmts, _⟩ => List.forall_mem_cons.2 ⟨opening, List.forall_mem_append.2
      ⟨fun p hp => by
        obtain ⟨s, hs, hexplained⟩ := stmtsPlaces_explained stmts p hp
        exact hexplained.below (List.mem_map_of_mem hs),
      List.forall_mem_singleton.2 closing⟩⟩

theorem stmtsPlaces_explained : ∀ (ss : List Stmt), ∀ p ∈ stmtsPlaces ss,
    ∃ s ∈ ss, p.Explained (.stmt s)
  | [], _, hp => nomatch hp
  | s :: ss, p, hp => by
    rcases List.mem_append.1 hp with hp | hp
    · exact ⟨s, .head _, s.places_explained p hp⟩
    · obtain ⟨s', hs', hexplained⟩ := stmtsPlaces_explained ss p hp
      exact ⟨s', .tail _ hs', hexplained⟩

end

theorem Decl.places_explained (decl : Decl) : ∀ p ∈ decl.places, p.Explained (.decl decl) := by
  cases decl with
  | var d => exact initPlaces_explained fun _ he => d.expr_mem_nodes he
  | fn d =>
    refine List.forall_mem_append.2 ⟨fun p hp => ?_, fun p hp => ?_⟩
    · obtain ⟨param, hparam, rfl⟩ := List.mem_map.1 hp
      exact declared true _ (d.param_mem_children hparam)
    · obtain ⟨s, hs, hexplained⟩ := stmtsPlaces_explained d.body.stmts p hp
      have hbody : p.Explained (.block d.body) := hexplained.below (List.mem_map_of_mem hs)
      exact hbody.below d.body_mem_children

end Places

/-! ## Errors of a resolution -/

theorem exists_place_of_mem_errorsFrom {globals : List String} {e : ScopeError}
    {before places : List Place} (h : e ∈ errorsFrom globals before places) :
    ∃ p ∈ places, ∃ front, e ∈ errorsAt globals front p := by
  induction places generalizing before with
  | nil => cases h
  | cons p places ih =>
    rcases List.mem_append.1 h with h | h
    · exact ⟨p, .head _, before, h⟩
    · obtain ⟨p', hp', hfront⟩ := ih h
      exact ⟨p', .tail _ hp', hfront⟩

theorem exists_global_of_mem_globalErrors {e : ScopeError} {before gs : List (String × Span)}
    (h : e ∈ globalErrors before gs) :
    ∃ g ∈ gs, ∃ previous, e = ⟨.redeclared g.1 previous, g.2⟩ := by
  induction gs generalizing before with
  | nil => cases h
  | cons g gs ih =>
    rcases List.mem_append.1 h with h | h
    · obtain ⟨first, -, rfl⟩ := Option.map_eq_some_iff.1 (Option.mem_toList.1 h)
      exact ⟨g, .head _, first.2, rfl⟩
    · obtain ⟨g', hg', heq⟩ := ih h
      exact ⟨g', .tail _ hg', heq⟩

theorem globalErrors_eq_nil {before gs : List (String × Span)}
    (h : ((before ++ gs).map Prod.fst).Nodup) : globalErrors before gs = [] := by
  induction gs generalizing before with
  | nil => rfl
  | cons g gs ih =>
    have hfresh : before.find? (·.1 = g.1) = none := by
      refine List.find?_eq_none.2 fun b hb heq => ?_
      rw [List.map_append, List.nodup_append] at h
      exact h.2.2 b.1 (List.mem_map_of_mem hb) g.1 (.head _) (of_decide_eq_true heq)
    rw [globalErrors, hfresh, ih (by simpa using h)]
    rfl

/-- Every scoping error is about a node of the program, whatever numbers are written there. -/
theorem Program.explains_of_resolve {hostNames : List String} (hnames : hostNames.Nodup)
    (program : Program) :
    ∀ e ∈ (program.resolve hostNames).errors, program.withoutIds.Explains e.About := by
  obtain ⟨decls, s, hglobals, -, -, hresolve⟩ := program.exists_resolve_eq hostNames
  have hdecls := resolveDecls_behind decls hglobals.locals hglobals.numbers
  have hunchanged := program.withoutIds_resolve hostNames
  rw [hresolve] at hunchanged ⊢
  intro e he
  dsimp only at he
  rw [hdecls.errors, hglobals.errors, globalsOf, globalErrors_append, List.nil_append] at he
  rcases List.mem_append.1 he with he | he
  · have hhosts : globalErrors [] (hostNames.map (·, .nowhere)) = [] :=
      globalErrors_eq_nil (by simpa [Function.comp_def] using hnames)
    rw [hhosts, List.nil_append] at he
    obtain ⟨g, hg, previous, rfl⟩ := exists_global_of_mem_globalErrors he
    obtain ⟨d, hd, rfl⟩ := List.mem_map.1 hg
    exact Explains.withoutIds ⟨d, hd, .self (.redeclared d.name_mem_children)⟩
      fun _ _ => ScopeError.About.withoutIds
  · obtain ⟨d, hd, he⟩ := List.mem_flatMap.1 he
    obtain ⟨p, hp, front, hfront⟩ := exists_place_of_mem_errorsFrom he
    rw [← hunchanged]
    exact Explains.withoutIds ⟨d, hd, d.places_explained p hp _ _ e hfront⟩
      fun _ _ => ScopeError.About.withoutIds

end ScriptMachine
