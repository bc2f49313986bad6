import ScriptMachine.Proofs.Codegen.Compiled
import ScriptMachine.Proofs.Codegen.Settling
import ScriptMachine.Proofs.Scope.Reports

/-!
# What errors of code generation are about

Every error of code generation is about a node of the program (`CodeError.About`), and has
its span: an operator or a conditional whose jump leads too far, a constant for which there
is no room, a local too many. Code generation is put together from parts that report
nothing and parts that report what they are told to (`Gen.Reports`), and so the errors of
a part of the program are about nodes of it (`genExpr_reports`, `genStmt_reports`). The
first global too many is one that the program declares, as long as the host leaves room
for it (`Program.explains_of_compile`).
-/

namespace ScriptMachine

variable {κ α δ : Type}

/-! ## Errors and nodes -/

/-- What an error of code generation is about. It shows at the second of the nodes, the
offence, because of the first one, which is the same or right above it. -/
inductive CodeError.About : CodeError → TreeNode → TreeNode → Prop
  | farOperator {op : LogicalOp} {left right : Expr} {s : Span} :
    About ⟨.jumpTooFar, s⟩ (.expr (.logical op left right s)) (.expr (.logical op left right s))
  | farConditional {test : Expr} {thenBlock : Block Stmt} {elseBlock : Option (Block Stmt)}
      {s : Span} :
    About ⟨.jumpTooFar, s⟩ (.stmt (.cond test thenBlock elseBlock s))
      (.stmt (.cond test thenBlock elseBlock s))
  | number {function : String} {value : Float} {s : Span} :
    About ⟨.tooManyConstants function, s⟩ (.expr (.number value s)) (.expr (.number value s))
  | method {function name : String} {object : Expr} {args : List Expr} {t s : Span} :
    About ⟨.tooManyConstants function, t⟩ (.expr (.call (.property object name t) args s))
      (.expr (.property object name t))
  | function {function : String} {d : FnDecl} :
    About ⟨.tooManyConstants function, d.span⟩ (.decl (.fn d)) (.decl (.fn d))
  | stringLiteral {text : String} {s : Span} :
    About ⟨.stringLiteral, s⟩ (.expr (.string text s)) (.expr (.string text s))
  | propertyAccess {object : Expr} {name : String} {s : Span} :
    About ⟨.propertyAccess, s⟩ (.expr (.property object name s)) (.expr (.property object name s))
  | badTarget {op : AssignOp} {target value : Expr} {s : Span} (h : target.isAssignable = false) :
    About ⟨.badTarget, target.span⟩ (.expr (.assign op target value s)) (.expr target)
  | tooManyGlobals {d : Decl} :
    About ⟨.tooManyGlobals, d.nameSpan⟩ (.decl d) (.name d.name d.nameSpan)
  | tooManyLocals {name : String} {s : Span} {node : TreeNode} (h : .name name s ∈ node.children) :
    About ⟨.tooManyLocals, s⟩ node (.name name s)
  | tooManyParams {d : FnDecl} :
    About ⟨.tooManyParams d.name, d.nameSpan⟩ (.decl (.fn d)) (.name d.name d.nameSpan)
  | elements {items : List Expr} {s : Span} :
    About ⟨.tooMany .elements items.length, s⟩ (.expr (.list items s)) (.expr (.list items s))
  | arguments {callee : Expr} {args : List Expr} {s : Span} :
    About ⟨.tooMany .arguments args.length, s⟩ (.expr (.call callee args s))
      (.expr (.call callee args s))

namespace CodeError.About

variable {e : CodeError} {node offence : TreeNode}

theorem span_eq (h : e.About node offence) : e.span = offence.span := by
  cases h <;> rfl

theorem offence_mem (h : e.About node offence) : offence = node ∨ offence ∈ node.children := by
  cases h with
  | method | badTarget _ => exact .inr List.mem_cons_self
  | tooManyGlobals => exact .inr (Decl.name_mem_children _)
  | tooManyLocals h => exact .inr h
  | tooManyParams => exact .inr List.mem_cons_self
  | _ => exact .inl rfl

theorem withoutIds (h : e.About node offence) : e.About node.withoutIds offence.withoutIds := by
  cases h with
  | farOperator => exact .farOperator
  | @farConditional _ _ elseBlock => cases elseBlock <;> exact .farConditional
  | number => exact .number
  | method => exact .method
  | @function _ d =>
    rw [TreeNode.withoutIds, Decl.withoutIds_fn]
    exact .function (d := d.withoutIds)
  | stringLiteral => exact .stringLiteral
  | propertyAccess => exact .propertyAccess
  | @badTarget op target _ _ h =>
    rw [← Expr.span_withoutIds]
    exact .badTarget ((Expr.isAssignable_withoutIds target).trans h)
  | @tooManyGlobals d =>
    have hname : d.withoutIds.name = d.name := by cases d <;> rfl
    have hspan : d.withoutIds.nameSpan = d.nameSpan := by cases d <;> rfl
    rw [TreeNode.withoutIds, TreeNode.withoutIds, ← hname, ← hspan]
    exact .tooManyGlobals
  | tooManyLocals h =>
    refine .tooManyLocals ?_
    rw [TreeNode.children_withoutIds]
    exact List.mem_map_of_mem h
  | @tooManyParams d =>
    rw [TreeNode.withoutIds, Decl.withoutIds_fn]
    exact .tooManyParams (d := d.withoutIds)
  | @elements items _ =>
    have hlength : (exprsWithoutIds items).length = items.length := by
      rw [exprsWithoutIds_eq_map, List.length_map]
    rw [← hlength]
    exact .elements
  | @arguments _ args _ =>
    have hlength : (exprsWithoutIds args).length = args.length := by
      rw [exprsWithoutIds_eq_map, List.length_map]
    rw [← hlength]
    exact .arguments

end CodeError.About

/-- The error is about a node of the tree. -/
abbrev TreeNode.Accounts (root : TreeNode) (e : CodeError) : Prop := root.Explains e.About

/-! ## What is reported -/

/-- All errors that the walk adds are of one kind. -/
def Gen.Reports (P : CodeError → Prop) (x : Gen κ α) : Prop :=
  ∀ d : Draft κ, ∀ e ∈ (x d).2.errors, e ∈ d.errors ∨ P e

namespace Gen.Reports

variable {P Q : CodeError → Prop} {root child : TreeNode}

theorem mono {x : Gen κ α} (h : Reports P x) (hPQ : ∀ e, P e → Q e) : Reports Q x :=
  fun d e he => (h d e he).imp_right (hPQ e)

theorem below {x : Gen κ α} (h : Reports child.Accounts x) (hchild : child ∈ root.children) :
    Reports root.Accounts x :=
  h.mono fun _ he => he.below hchild

theorem silent {x : Gen κ α} (h : ∀ d, (x d).2.errors = d.errors) : Reports P x :=
  fun d _ he => .inl (h d ▸ he)

theorem bind {x : Gen κ α} {k : α → Gen κ δ} (hx : Reports P x) (hk : ∀ a, Reports P (k a)) :
    Reports P (x >>= k) := by
  intro d e he
  rcases hk (x d).1 (x d).2 e he with he | he
  · exact hx d e he
  · exact .inr he

theorem pure (a : α) : Reports P (Pure.pure a : Gen κ α) := silent fun _ => rfl

theorem get : Reports P (MonadState.get : Gen κ (Draft κ)) := silent fun _ => rfl

theorem forM {xs : List δ} {f : δ → Gen κ Unit} (h : ∀ x ∈ xs, Reports P (f x)) :
    Reports P (xs.forM f) := by
  induction xs with
  | nil => exact pure ()
  | cons x xs ih =>
    obtain ⟨hx, hxs⟩ := List.forall_mem_cons.1 h
    exact hx.bind fun _ => ih hxs

theorem reportCode {fault : CodeFault} {s : Span} (h : P ⟨fault, s⟩) :
    Reports P (reportCode fault s : Gen κ Unit) := by
  intro d e he
  rcases Array.mem_push.1 he with he | rfl
  · exact .inl he
  · exact .inr h

theorem emit (op : Opcode) (line : Nat) : Reports P (emit op line : Gen κ Unit) :=
  silent fun _ => rfl

theorem emitWith (op : Opcode) (operand : UInt8) (line : Nat) :
    Reports P (emitWith op operand line : Gen κ Unit) :=
  silent fun _ => rfl

theorem emitJump (op : Opcode) (line : Nat) : Reports P (emitJump op line : Gen κ Nat) :=
  silent fun _ => rfl

theorem emitLoad (id : SymbolId) (line : Nat) : Reports P (emitLoad id line : Gen κ Unit) := by
  refine get.bind fun d => ?_
  split
  · exact emitWith _ _ _
  · exact emitWith _ _ _
  · exact emit _ _

theorem emitStore? (id : Option SymbolId) (line : Nat) :
    Reports P (emitStore? id line : Gen κ Unit) := by
  cases id with
  | none => exact pure ()
  | some id =>
    refine get.bind fun d => ?_
    split
    · exact emitWith _ _ _
    · exact emitWith _ _ _
    · exact pure ()

theorem emitPopMany (count line : Nat) : Reports P (emitPopMany count line : Gen κ Unit) := by
  fun_induction ScriptMachine.emitPopMany (κ := κ) count line with
  | case1 count _ ih => exact (emitWith _ _ _).bind fun _ => ih
  | case2 count => exact pure ()

theorem emitPops (count line : Nat) : Reports P (emitPops count line : Gen κ Unit) := by
  unfold ScriptMachine.emitPops
  split
  · exact emit _ _
  · exact emitPopMany _ _

theorem addConstant (value : Value) {s : Span} (h : ∀ function, P ⟨.tooManyConstants function, s⟩) :
    Reports P (addConstant value s : Gen κ UInt8) := by
  intro d e he
  rw [addConstant_apply] at he
  split at he
  · exact .inl he
  · rcases Array.mem_push.1 he with he | rfl
    · exact .inl he
    · exact .inr (h d.name)

theorem emitConstant (value : Value) {s : Span}
    (h : ∀ function, P ⟨.tooManyConstants function, s⟩) :
    Reports P (emitConstant value s : Gen κ Unit) :=
  (addConstant value h).bind fun _ => emitWith _ _ _

theorem methodConstant (name : String) {s : Span}
    (h : ∀ function, P ⟨.tooManyConstants function, s⟩) :
    Reports P (methodConstant name s : Gen κ UInt8) := by
  refine get.bind fun d => ?_
  split
  · exact pure _
  · have halloc (f : Draft κ → Handle × Draft κ) (hf : ∀ d, (f d).2.errors = d.errors) :
        Reports P (modifyGet f : Gen κ Handle) := silent hf
    exact (halloc _ fun _ => rfl).bind fun _ => addConstant _ h

theorem landJump (offset : Nat) {s : Span} (h : P ⟨.jumpTooFar, s⟩) :
    Reports P (landJump offset s : Gen κ Unit) := by
  refine get.bind fun d => ?_
  dsimp only
  split
  · exact silent fun _ => rfl
  · exact reportCode h

theorem declareSlot (id : Option SymbolId) {s : Span} (h : P ⟨.tooManyLocals, s⟩) :
    Reports P (declareSlot id s : Gen κ Unit) := by
  cases id with
  | none => exact silent fun _ => rfl
  | some id =>
    refine get.bind fun d => ?_
    dsimp only
    split
    · exact (reportCode h).bind fun _ => silent fun _ => rfl
    · exact silent fun _ => rfl

theorem countOperand (role : CountRole) (count : Nat) {s : Span} (h : P ⟨.tooMany role count, s⟩) :
    Reports P (countOperand role count s : Gen κ UInt8) := by
  unfold ScriptMachine.countOperand
  split
  · exact pure _
  · exact (reportCode h).bind fun _ => pure _

theorem genAssigned (op : AssignOp) {old new : Gen κ Unit} (hold : Reports P old)
    (hnew : Reports P new) (line : Nat) : Reports P (genAssigned op old new line) := by
  unfold ScriptMachine.genAssigned
  split
  · exact hold.bind fun _ => hnew.bind fun _ => emit _ _
  · exact hnew

theorem genInBlock {body : Gen κ Unit} (h : Reports P body) (endLine : Nat) :
    Reports P (genInBlock body endLine) :=
  get.bind fun _ => h.bind fun _ => get.bind fun _ => (emitPops _ _).bind fun _ =>
    silent fun _ => rfl

theorem genCond {test thenCode elseCode : Gen κ Unit} (htest : Reports P test)
    (hthen : Reports P thenCode) (helse : Reports P elseCode) {s : Span} (h : P ⟨.jumpTooFar, s⟩) :
    Reports P (genCond test thenCode elseCode s) :=
  htest.bind fun _ => (emitJump _ _).bind fun _ => (emit _ _).bind fun _ => hthen.bind fun _ =>
    (emitJump _ _).bind fun _ => (landJump _ h).bind fun _ => (emit _ _).bind fun _ =>
      helse.bind fun _ => landJump _ h

/-! ## Expressions and statements -/

/-- What is reported about an operand is reported about the expression. -/
theorem operand {e e' : Expr} {x : Gen κ α} (h : Reports (TreeNode.expr e').Accounts x)
    (hmem : e' ∈ e.operands) : Reports (TreeNode.expr e).Accounts x :=
  h.below (mem_operands hmem)

mutual

theorem genExpr : ∀ e : Expr, Reports (κ := κ) (TreeNode.expr e).Accounts (genExpr e)
  | .null _ => emit _ _
  | .bool true _ => emit _ _
  | .bool false _ => emit _ _
  | .number _ _ => emitConstant _ fun _ => .self .number
  | .string _ _ => bind (reportCode (.self .stringLiteral)) fun _ => emit _ _
  | .name _ (some id) _ => emitLoad id _
  | .name _ none _ => emit _ _
  | .unary _ e _ => bind ((genExpr e).operand (.head _)) fun _ => emit _ _
  | .binary _ left right _ =>
    bind ((genExpr left).operand (.head _)) fun _ =>
      bind ((genExpr right).operand (.tail _ (.head _))) fun _ => emit _ _
  | .logical _ left right _ =>
    bind ((genExpr left).operand (.head _)) fun _ => bind (emitJump _ _) fun _ =>
      bind (emit _ _) fun _ => bind ((genExpr right).operand (.tail _ (.head _))) fun _ =>
        landJump _ (.self .farOperator)
  | .list items _ =>
    bind (countOperand _ _ (.self .elements)) fun _ =>
      bind (genExprs items fun _ he => mem_operands he) fun _ => emitWith _ _ _
  | .index base index _ =>
    bind ((genExpr base).operand (.head _)) fun _ =>
      bind ((genExpr index).operand (.tail _ (.head _))) fun _ => emit _ _
  | .assign op target value s => by
    have htarget : Reports (κ := κ) (TreeNode.expr (.assign op target value s)).Accounts
        (ScriptMachine.genExpr target) := (genExpr target).operand (.head _)
    have hvalue : Reports (κ := κ) (TreeNode.expr (.assign op target value s)).Accounts
        (ScriptMachine.genExpr value) := (genExpr value).operand (.tail _ (.head _))
    cases target with
    | name name id t => exact bind (genAssigned op htarget hvalue _) fun _ => emitStore? _ _
    | index base index t =>
      have hbase : Reports (κ := κ) (TreeNode.expr (.index base index t)).Accounts
          (ScriptMachine.genExpr base) := (genExpr base).operand (.head _)
      have hindex : Reports (κ := κ) (TreeNode.expr (.index base index t)).Accounts
          (ScriptMachine.genExpr index) := (genExpr index).operand (.tail _ (.head _))
      exact bind (hbase.operand (.head _)) fun _ => bind (hindex.operand (.head _)) fun _ =>
        bind (genAssigned op htarget hvalue _) fun _ => emit _ _
    | _ =>
      exact bind (reportCode (.self (.badTarget rfl))) fun _ => genAssigned op htarget hvalue _
  | .call callee args s => by
    have hcallee : Reports (κ := κ) (TreeNode.expr (.call callee args s)).Accounts
        (ScriptMachine.genExpr callee) := (genExpr callee).operand (.head _)
    have hargs : Reports (κ := κ) (TreeNode.expr (.call callee args s)).Accounts
        (ScriptMachine.genExprs args) := genExprs args fun _ he => mem_operands (.tail _ he)
    cases callee with
    | property object name t =>
      have hobject : Reports (κ := κ) (TreeNode.expr (.property object name t)).Accounts
          (ScriptMachine.genExpr object) := (genExpr object).operand (.head _)
      exact bind (countOperand _ _ (.self .arguments)) fun _ =>
        bind (hobject.operand (.head _)) fun _ => bind hargs fun _ =>
          bind (methodConstant name fun _ => .self .method) fun _ =>
            bind (emitWith _ _ _) fun _ => silent fun _ => rfl
    | _ =>
      exact bind (countOperand _ _ (.self .arguments)) fun _ => bind hcallee fun _ =>
        bind hargs fun _ => emitWith _ _ _
  | .property _ _ _ => bind (reportCode (.self .propertyAccess)) fun _ => emit _ _

theorem genExprs {root : TreeNode} : ∀ es : List Expr, (∀ e ∈ es, .expr e ∈ root.children) →
    Reports (κ := κ) root.Accounts (genExprs es)
  | [], _ => pure ()
  | e :: es, h => by
    obtain ⟨he, hes⟩ := List.forall_mem_cons.1 h
    exact bind ((genExpr e).below he) fun _ => genExprs es hes

end

theorem genExpr? (root : TreeNode) {value : Option Expr}
    (hvalue : ∀ e ∈ value, .expr e ∈ root.children) (line : Nat) :
    Reports (κ := κ) root.Accounts (genExpr? value line) := by
  cases value with
  | none => exact emit _ _
  | some e => exact (genExpr e).below (hvalue e rfl)

mutual

theorem genStmt : ∀ s : Stmt, Reports (κ := κ) (TreeNode.stmt s).Accounts (genStmt s)
  | .block body => (genBlock body).below (.head _)
  | .var d =>
    bind (genExpr? (.stmt (.var d)) (fun _ he => d.expr_mem_nodes he) _) fun _ =>
      declareSlot _ (.self (.tooManyLocals (.head _)))
  | .cond test thenBlock none _ =>
    genCond ((genExpr test).below (.head _)) ((genBlock thenBlock).below (.tail _ (.head _)))
      (pure ()) (.self .farConditional)
  | .cond test thenBlock (some elseBlock) _ =>
    genCond ((genExpr test).below (.head _)) ((genBlock thenBlock).below (.tail _ (.head _)))
      ((genBlock elseBlock).below (.tail _ (.tail _ (.head _)))) (.self .farConditional)
  | .ret _ _ => bind (genExpr? _ (fun _ he => Stmt.returned_mem_children he) _) fun _ => emit _ _
  | .print value _ | .expr value _ => bind ((genExpr value).below (.head _)) fun _ => emit _ _

theorem genBlock : ∀ b : Block Stmt, Reports (κ := κ) (TreeNode.block b).Accounts (genBlock b)
  | ⟨stmts, _⟩ => genInBlock (genStmts stmts fun _ hs => List.mem_map_of_mem hs) _

theorem genStmts {root : TreeNode} : ∀ ss : List Stmt, (∀ s ∈ ss, .stmt s ∈ root.children) →
    Reports (κ := κ) root.Accounts (genStmts ss)
  | [], _ => pure ()
  | s :: ss, h => by
    obtain ⟨hs, hss⟩ := List.forall_mem_cons.1 h
    exact bind ((genStmt s).below hs) fun _ => genStmts ss hss

end

theorem genFnBody (d : FnDecl) :
    Reports (κ := κ) (TreeNode.decl (.fn d)).Accounts (genFnBody d) := by
  have hparams : Reports (κ := κ) (TreeNode.decl (.fn d)).Accounts
      (d.params.forM fun p => ScriptMachine.declareSlot p.id p.span) :=
    forM fun p hp => declareSlot p.id (.self (.tooManyLocals (d.param_mem_children hp)))
  have hbody : Reports (κ := κ) (TreeNode.block d.body).Accounts
      (ScriptMachine.genStmts d.body.stmts) :=
    genStmts _ fun _ hs => List.mem_map_of_mem hs
  unfold ScriptMachine.genFnBody
  split
  · exact bind (reportCode (.self .tooManyParams)) fun _ => bind hparams fun _ =>
      bind (hbody.below d.body_mem_children) fun _ => bind (emit _ _) fun _ => emit _ _
  · exact bind hparams fun _ =>
      bind (hbody.below d.body_mem_children) fun _ => bind (emit _ _) fun _ => emit _ _

theorem genFnStore (d : FnDecl) (handle : Handle) :
    Reports (κ := κ) (TreeNode.decl (.fn d)).Accounts (genFnStore d handle) :=
  bind (emitConstant _ fun _ => .self .function) fun _ => bind (emitStore? _ _) fun _ => emit _ _

theorem genVarInit (d : Decl) : Reports (κ := κ) (TreeNode.decl d).Accounts (genVarInit d) := by
  cases d with
  | fn d => exact pure ()
  | var d =>
    exact bind (genExpr? (.decl (.var d)) (fun _ he => d.expr_mem_nodes he) _) fun _ =>
      bind (emitStore? _ _) fun _ => emit _ _

theorem genScript {program : Program} {fns : List (FnDecl × Handle)}
    (hfns : ∀ fn ∈ fns, .fn fn.1 ∈ program.decls) :
    Reports (κ := κ) (fun e => program.Explains e.About) (genScript program fns) := by
  refine bind (forM fun fn hfn => ?_) fun _ => bind (forM fun d hd => ?_) fun _ => ?_
  · exact (genFnStore fn.1 fn.2).mono fun _ he => ⟨_, hfns fn hfn, he⟩
  · exact (genVarInit d).mono fun _ he => ⟨d, hd, he⟩
  · cases program.main? with
    | some _ =>
      exact bind (emitLoad _ _) fun _ => bind (emitWith _ _ _) fun _ => bind (emit _ _) fun _ =>
        bind (emit _ _) fun _ => emit _ _
    | none => exact bind (emit _ _) fun _ => emit _ _

end Gen.Reports

/-! ## Programs -/

section Programs

variable {program : Program}

theorem genFns_reports {decls : List Decl} (hdecls : ∀ d ∈ decls, d ∈ program.decls)
    (a : Assembly κ) : (∀ fn ∈ (genFns decls a).1, .fn fn.1 ∈ program.decls) ∧
      ∀ e ∈ (genFns decls a).2.errors, e ∈ a.errors ∨ program.Explains e.About := by
  induction decls generalizing a with
  | nil => exact ⟨nofun, fun _ he => .inl he⟩
  | cons d decls ih =>
    obtain ⟨hd, hrest⟩ := List.forall_mem_cons.1 hdecls
    cases d with
    | var d => exact ih hrest a
    | fn d =>
      obtain ⟨hfns, herrors⟩ :=
        ih hrest (a.addFunction d.name d.params.length (genFnBody d)).2
      refine ⟨List.forall_mem_cons.2 ⟨hd, hfns⟩, fun e he => ?_⟩
      rcases herrors e he with he | he
      · exact (Gen.Reports.genFnBody d _ e he).imp_right fun he => ⟨_, hd, he⟩
      · exact .inr he

/-- The first global beyond the last slot is reported. -/
theorem exists_symbol_of_mem_assignGlobalSlots {globals : Nat} {table : SymbolTable} {e : CodeError}
    (hle : globals ≤ table.size)
    (hkind : ∀ {id : SymbolId} {symbol}, table[id]? = some symbol →
      (symbol.kind = .global ↔ id < globals)) (he : e ∈ (assignGlobalSlots table).2) :
    ∃ symbol, maxSlots < globals ∧ table[maxSlots]? = some symbol ∧
      e = ⟨.tooManyGlobals, symbol.span⟩ := by
  unfold assignGlobalSlots at he
  dsimp only at he
  split at he
  · next symbol hfirst =>
    have hfirst : (List.range globals)[maxSlots]?.bind (table[·]?) = some symbol := by
      rw [← globalIds_eq hle hkind]
      exact hfirst
    obtain ⟨i, hi, hsymbol⟩ := Option.bind_eq_some_iff.1 hfirst
    obtain ⟨hlt, rfl⟩ := List.getElem?_eq_some_iff.1 hi
    rw [List.getElem_range] at hsymbol
    rw [List.length_range] at hlt
    exact ⟨symbol, hlt, hsymbol, Array.mem_singleton.1 he⟩
  · cases Array.not_mem_empty _ he

/-- If there is room for the host's globals, the first one without is one of the program. -/
theorem explains_of_assignGlobalSlots {hostNames : List String}
    (hcount : hostNames.length ≤ maxSlots) {r : Resolution} (h : program.Resolves hostNames r) :
    ∀ e ∈ (assignGlobalSlots r.symbols).2, program.Explains e.About := by
  intro e he
  obtain ⟨symbol, hlt, hsymbol, rfl⟩ :=
    exists_symbol_of_mem_assignGlobalSlots h.globals_le h.kind he
  have hglobal : maxSlots < ((globalsOf hostNames program).map fun g =>
      ({ name := g.1, span := g.2, kind := .global } : Symbol)).length := by
    rwa [List.length_map, length_globalsOf]
  have hhosts : (hostNames.map (·, Span.nowhere)).length ≤ maxSlots := by rwa [List.length_map]
  rw [← Array.getElem?_toList, h.symbols, List.getElem?_append_left hglobal, List.getElem?_map,
    globalsOf, List.getElem?_append_right hhosts, List.getElem?_map, Option.map_map] at hsymbol
  obtain ⟨d, hd, rfl⟩ := Option.map_eq_some_iff.1 hsymbol
  exact ⟨d, List.mem_of_getElem? hd, .self .tooManyGlobals⟩

/-- Every error of code generation is about a node of the program, whatever numbers are written
there. -/
theorem Program.explains_of_compile {hostNames : List String} (hcount : hostNames.length ≤ maxSlots)
    (program : Program) (heap : Heap κ) :
    ∀ e ∈ ((program.resolve hostNames).program.compile heap
        (program.resolve hostNames).symbols).errors,
      program.withoutIds.Explains e.About := by
  intro e he
  let r : Resolution := program.resolve hostNames
  let a : Assembly κ := ⟨heap, (assignGlobalSlots r.symbols).1, (assignGlobalSlots r.symbols).2⟩
  obtain ⟨hfns, herrors⟩ := genFns_reports (κ := κ) (fun _ (hd : _ ∈ r.program.decls) => hd) a
  have hresolved (h : r.program.Explains e.About) : program.withoutIds.Explains e.About := by
    rw [← program.withoutIds_resolve hostNames]
    exact h.withoutIds fun _ _ => CodeError.About.withoutIds
  rcases Gen.Reports.genScript hfns _ e (Array.mem_toList_iff.1 he) with he | he
  · rcases herrors e he with he | he
    · exact (explains_of_assignGlobalSlots hcount (program.resolve_resolves hostNames) e
        he).withoutIds
        fun _ _ => CodeError.About.withoutIds
    · exact hresolved he
  · exact hresolved he

end Programs

end ScriptMachine
