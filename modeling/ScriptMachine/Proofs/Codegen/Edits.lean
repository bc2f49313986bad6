import Mathlib.Logic.Relation
import ScriptMachine.Codegen.Script
import ScriptMachine.Proofs.Heap.Slab

/-!
# How a draft changes

Generating code changes a draft in a few ways only (`Draft.Edit`): an error is
reported, a byte is written, a constant or a name is added, the distance of a
jump is filled in, a local is declared. Every part of code generation is a
sequence of such edits (`Walks`), and it fills in only jumps that it has emitted
itself. What code generation keeps is then a matter of single edits. All that it
does to the heap is to allocate (`Program.compile_allocs`).
-/

namespace ScriptMachine

variable {κ α δ : Type}

/-! ## Edits -/

/-- One change of a draft. Jumps are filled in behind `start`; the handles among
the constants are `known` before or those of new names. -/
inductive Draft.Edit (known : Handle → Prop) (start : Nat) : Draft κ → Draft κ → Prop
  | report (d : Draft κ) (error : CodeError) :
      Edit known start d { d with errors := d.errors.push error }
  | write (d : Draft κ) (byte : UInt8) (line : Nat) :
      Edit known start d { d with chunk := d.chunk.write byte line }
  | constant (d : Draft κ) (value : Value)
      (h : ∀ handle, value.handle? = some handle → known handle) :
      Edit known start d
        { d with chunk := { d.chunk with constants := d.chunk.constants.push value } }
  | text (d : Draft κ) (name : String) :
      Edit known start d { d with heap := (d.heap.alloc (.string name)).2 }
  | name (d : Draft κ) (name : String) :
      Edit known start d
        { d with
          heap := (d.heap.alloc (.string name)).2
          chunk := { d.chunk with
            constants := d.chunk.constants.push (.object (d.heap.alloc (.string name)).1) } }
  | patch (d : Draft κ) (offset distance : Nat) (h : start ≤ offset) :
      Edit known start d { d with chunk := d.chunk.patchJump offset distance }
  | declare (d : Draft κ) (symbols : SymbolTable) (height : Nat)
      (hkinds : symbols.map Symbol.kind = d.symbols.map Symbol.kind) :
      Edit known start d { d with symbols, height }

/-- Any number of edits. -/
abbrev Draft.Edits (known : Handle → Prop) (start : Nat) : Draft κ → Draft κ → Prop :=
  Relation.ReflTransGen (Draft.Edit known start)

variable {known : Handle → Prop} {start : Nat} {d d' : Draft κ}

theorem Chunk.size_write (chunk : Chunk) (byte : UInt8) (line : Nat) :
    (chunk.write byte line).code.size = chunk.code.size + 1 := by
  simp [Chunk.write]

theorem Chunk.size_patchJump (chunk : Chunk) (offset distance : Nat) :
    (chunk.patchJump offset distance).code.size = chunk.code.size := by
  simp [Chunk.patchJump]

theorem Draft.Edit.size_le (h : Draft.Edit known start d d') :
    d.chunk.code.size ≤ d'.chunk.code.size := by
  cases h with
  | write byte line => exact Chunk.size_write .. ▸ Nat.le_succ _
  | patch offset distance => exact Chunk.size_patchJump .. ▸ Nat.le_refl _
  | _ => exact Nat.le_refl _

theorem Draft.Edits.size_le (h : Draft.Edits known start d d') :
    d.chunk.code.size ≤ d'.chunk.code.size := by
  induction h with
  | refl => exact Nat.le_refl _
  | tail _ hedit ih => exact Nat.le_trans ih hedit.size_le

/-- Symbols stay globals or locals. -/
theorem Draft.Edits.kinds_eq (h : Draft.Edits known start d d') :
    d'.symbols.map Symbol.kind = d.symbols.map Symbol.kind := by
  induction h with
  | refl => rfl
  | tail _ hedit ih =>
    cases hedit with
    | declare _ _ hkinds => exact hkinds.trans ih
    | _ => exact ih

theorem SymbolTable.kinds_setSlot (table : SymbolTable) (id : SymbolId) (slot : Nat) :
    (table.setSlot id slot).map Symbol.kind = table.map Symbol.kind := by
  refine Array.ext_getElem? fun i => ?_
  simp only [setSlot, Array.getElem?_map, Array.getElem?_modify]
  split <;> cases table[i]? <;> rfl

/-! ## Parts of code generation as functions on drafts -/

theorem gen_bind (x : Gen κ α) (k : α → Gen κ δ) (d : Draft κ) :
    (x >>= k) d = k (x d).1 (x d).2 := rfl

theorem gen_pure (a : α) (d : Draft κ) : (pure a : Gen κ α) d = (a, d) := rfl

theorem gen_get (d : Draft κ) : (get : Gen κ (Draft κ)) d = (d, d) := rfl

theorem gen_modifyGet (f : Draft κ → α × Draft κ) (d : Draft κ) :
    (modifyGet f : Gen κ α) d = f d := rfl

theorem addConstant_apply (value : Value) (span : Span) (d : Draft κ) :
    addConstant value span d =
      if d.chunk.constants.size < maxConstants then
        (d.chunk.constants.size.toUInt8,
          { d with chunk := { d.chunk with constants := d.chunk.constants.push value } })
      else (0, { d with errors := d.errors.push ⟨.tooManyConstants d.name, span⟩ }) := by
  by_cases hroom : d.chunk.constants.size < maxConstants
  · have hroom' : ¬maxConstants ≤ d.chunk.constants.size := by omega
    simp only [addConstant, Chunk.addConstant, gen_bind, gen_modifyGet, hroom, hroom', if_false,
      if_true, gen_pure]
  · have hroom' : maxConstants ≤ d.chunk.constants.size := by omega
    simp only [addConstant, Chunk.addConstant, gen_bind, gen_modifyGet, hroom, hroom', if_false,
      if_true]
    rfl

theorem methodConstant_apply (name : String) (span : Span) (d : Draft κ) :
    methodConstant name span d =
      match d.textConstant? name with
      | some index => (index.toUInt8, d)
      | none =>
        addConstant (.object (d.heap.alloc (.string name)).1) span
          { d with heap := (d.heap.alloc (.string name)).2 } := by
  simp only [methodConstant, gen_bind, gen_get]
  cases d.textConstant? name <;> rfl

/-! ## Walks -/

/-- A walk that edits the draft, with results of the given kind. -/
def Walks (known : Handle → Prop) (start : Nat) (P : α → Prop) (x : Gen κ α) : Prop :=
  ∀ d : Draft κ, start ≤ d.chunk.code.size → Draft.Edits known start d (x d).2 ∧ P (x d).1

/-- No condition on results. -/
abbrev AnyResult : α → Prop := fun _ => True

namespace Walks

variable {P : α → Prop} {Q : δ → Prop}

theorem pure {a : α} (h : P a) : Walks (κ := κ) known start P (Pure.pure a) :=
  fun _ _ => ⟨.refl, h⟩

theorem bind {x : Gen κ α} {k : α → Gen κ δ} (hx : Walks known start P x)
    (hk : ∀ a, P a → Walks known start Q (k a)) : Walks known start Q (x >>= k) := by
  intro d hd
  obtain ⟨hedits, ha⟩ := hx d hd
  obtain ⟨hedits', hb⟩ := hk _ ha (x d).2 (Nat.le_trans hd hedits.size_le)
  exact ⟨hedits.trans hedits', hb⟩

theorem get : Walks (κ := κ) known start AnyResult get := fun _ _ => ⟨.refl, trivial⟩

theorem modify {f : Draft κ → Draft κ} (h : ∀ d, Draft.Edit known start d (f d)) :
    Walks known start AnyResult (modify f) := fun d _ => ⟨.single (h d), trivial⟩

theorem reportCode (fault : CodeFault) (span : Span) :
    Walks (κ := κ) known start AnyResult (reportCode fault span) :=
  modify fun d => .report d _

theorem emitByte (byte : UInt8) (line : Nat) :
    Walks (κ := κ) known start AnyResult (emitByte byte line) :=
  modify fun d => .write d byte line

theorem emit (op : Opcode) (line : Nat) : Walks (κ := κ) known start AnyResult (emit op line) :=
  emitByte _ _

theorem emitWith (op : Opcode) (operand : UInt8) (line : Nat) :
    Walks (κ := κ) known start AnyResult (emitWith op operand line) :=
  (emit _ _).bind fun _ _ => emitByte _ _

theorem addConstant {value : Value} (h : ∀ handle, value.handle? = some handle → known handle)
    (span : Span) : Walks (κ := κ) known start AnyResult (addConstant value span) := by
  intro d hd
  refine ⟨?_, trivial⟩
  rw [addConstant_apply]
  split
  · exact .single (.constant d value h)
  · exact .single (.report d _)

theorem emitConstant {value : Value} (h : ∀ handle, value.handle? = some handle → known handle)
    (span : Span) : Walks (κ := κ) known start AnyResult (emitConstant value span) :=
  (addConstant h span).bind fun _ _ => emitWith _ _ _

theorem methodConstant (name : String) (span : Span) :
    Walks (κ := κ) known start AnyResult (methodConstant name span) := by
  intro d hd
  refine ⟨?_, trivial⟩
  rw [methodConstant_apply]
  split
  · exact .refl
  · rw [addConstant_apply]
    split
    · exact .single (.name d name)
    · exact .tail (.single (.text d name)) (.report _ _)

theorem emitJump (op : Opcode) (line : Nat) :
    Walks (κ := κ) known start (start ≤ ·) (emitJump op line) := by
  intro d hd
  refine ⟨?_, hd⟩
  exact .tail (.tail (.single (.write d _ line)) (.write _ _ line)) (.write _ _ line)

theorem landJump {offset : Nat} (h : start ≤ offset) (span : Span) :
    Walks (κ := κ) known start AnyResult (landJump offset span) := by
  refine get.bind fun d _ => ?_
  dsimp only
  split
  · exact modify fun d => .patch d offset _ h
  · exact reportCode _ _

theorem emitLoad (id : SymbolId) (line : Nat) :
    Walks (κ := κ) known start AnyResult (emitLoad id line) := by
  refine get.bind fun d _ => ?_
  split
  · exact emitWith _ _ _
  · exact emitWith _ _ _
  · exact emit _ _

theorem emitStore (id : SymbolId) (line : Nat) :
    Walks (κ := κ) known start AnyResult (emitStore id line) := by
  refine get.bind fun d _ => ?_
  split
  · exact emitWith _ _ _
  · exact emitWith _ _ _
  · exact pure trivial

theorem emitStore? (id : Option SymbolId) (line : Nat) :
    Walks (κ := κ) known start AnyResult (emitStore? id line) := by
  cases id with
  | some id => exact emitStore id line
  | none => exact pure trivial

theorem declareSlot (id : Option SymbolId) (span : Span) :
    Walks (κ := κ) known start AnyResult (declareSlot id span) := by
  cases id with
  | none => exact modify fun d => .declare d _ _ rfl
  | some id =>
    refine get.bind fun d _ => ?_
    dsimp only
    split
    · exact (reportCode _ _).bind fun _ _ =>
        modify fun d => .declare d _ _ (d.symbols.kinds_setSlot _ _)
    · exact modify fun d => .declare d _ _ (d.symbols.kinds_setSlot _ _)

theorem emitPopMany (count line : Nat) :
    Walks (κ := κ) known start AnyResult (emitPopMany count line) := by
  fun_induction ScriptMachine.emitPopMany (κ := κ) count line with
  | case1 count _ ih => exact (emitWith _ _ _).bind fun _ _ => ih
  | case2 count => exact pure trivial

theorem emitPops (count line : Nat) :
    Walks (κ := κ) known start AnyResult (emitPops count line) := by
  unfold ScriptMachine.emitPops
  split
  · exact emit _ _
  · exact emitPopMany _ _

theorem countOperand (role : CountRole) (count : Nat) (span : Span) :
    Walks (κ := κ) known start AnyResult (countOperand role count span) := by
  unfold ScriptMachine.countOperand
  split
  · exact pure trivial
  · exact (reportCode _ _).bind fun _ _ => pure trivial

theorem genAssigned (op : AssignOp) {old new : Gen κ Unit} (hold : Walks known start AnyResult old)
    (hnew : Walks known start AnyResult new) (line : Nat) :
    Walks known start AnyResult (genAssigned op old new line) := by
  unfold ScriptMachine.genAssigned
  split
  · exact hold.bind fun _ _ => hnew.bind fun _ _ => emit _ _
  · exact hnew

mutual

theorem genExpr : ∀ e : Expr, Walks (κ := κ) known start AnyResult (genExpr e)
  | .null _ => emit _ _
  | .bool true _ => emit _ _
  | .bool false _ => emit _ _
  | .number _ _ => emitConstant (fun _ h => nomatch h) _
  | .string _ _ => (reportCode _ _).bind fun _ _ => emit _ _
  | .name _ (some id) _ => emitLoad id _
  | .name _ none _ => emit _ _
  | .unary _ operand _ => (genExpr operand).bind fun _ _ => emit _ _
  | .binary _ left right _ =>
    (genExpr left).bind fun _ _ => (genExpr right).bind fun _ _ => emit _ _
  | .logical _ left right _ =>
    (genExpr left).bind fun _ _ => (emitJump _ _).bind fun _ hjump => (emit _ _).bind fun _ _ =>
      (genExpr right).bind fun _ _ => landJump hjump _
  | .list items _ =>
    (countOperand _ _ _).bind fun _ _ => (genExprs items).bind fun _ _ => emitWith _ _ _
  | .index base index _ =>
    (genExpr base).bind fun _ _ => (genExpr index).bind fun _ _ => emit _ _
  | .assign op target value _ => by
    cases target with
    | name name id t =>
      exact (genAssigned op (genExpr (.name name id t)) (genExpr value) _).bind fun _ _ =>
        emitStore? _ _
    | index base index t =>
      exact (genExpr base).bind fun _ _ => (genExpr index).bind fun _ _ =>
        (genAssigned op (genExpr (.index base index t)) (genExpr value) _).bind fun _ _ => emit _ _
    | _ => exact (reportCode _ _).bind fun _ _ => genAssigned op (genExpr _) (genExpr value) _
  | .call callee args _ => by
    cases callee with
    | property object name t =>
      exact (countOperand _ _ _).bind fun _ _ => (genExpr object).bind fun _ _ =>
        (genExprs args).bind fun _ _ => (methodConstant _ _).bind fun _ _ =>
          (emitWith _ _ _).bind fun _ _ => emitByte _ _
    | _ =>
      exact (countOperand _ _ _).bind fun _ _ => (genExpr _).bind fun _ _ =>
        (genExprs args).bind fun _ _ => emitWith _ _ _
  | .property _ _ _ => (reportCode _ _).bind fun _ _ => emit _ _

theorem genExprs : ∀ es : List Expr, Walks (κ := κ) known start AnyResult (genExprs es)
  | [] => pure trivial
  | e :: es => (genExpr e).bind fun _ _ => genExprs es

end

theorem genExpr? (value : Option Expr) (line : Nat) :
    Walks (κ := κ) known start AnyResult (genExpr? value line) := by
  cases value with
  | some e => exact genExpr e
  | none => exact emit _ _

theorem genInBlock {body : Gen κ Unit} (h : Walks known start AnyResult body) (endLine : Nat) :
    Walks known start AnyResult (genInBlock body endLine) :=
  get.bind fun _ _ => h.bind fun _ _ => get.bind fun _ _ => (emitPops _ _).bind fun _ _ =>
    modify fun d => .declare d _ _ rfl

theorem genCond {test thenCode elseCode : Gen κ Unit} (htest : Walks known start AnyResult test)
    (hthen : Walks known start AnyResult thenCode) (helse : Walks known start AnyResult elseCode)
    (span : Span) : Walks known start AnyResult (genCond test thenCode elseCode span) :=
  htest.bind fun _ _ => (emitJump _ _).bind fun _ hjump => (emit _ _).bind fun _ _ =>
    hthen.bind fun _ _ => (emitJump _ _).bind fun _ hjump' => (landJump hjump _).bind fun _ _ =>
      (emit _ _).bind fun _ _ => helse.bind fun _ _ => landJump hjump' _

mutual

theorem genStmt : ∀ s : Stmt, Walks (κ := κ) known start AnyResult (genStmt s)
  | .block body => genBlock body
  | .var _ => (genExpr? _ _).bind fun _ _ => declareSlot _ _
  | .cond test thenBlock none s => genCond (genExpr test) (genBlock thenBlock) (pure trivial) s
  | .cond test thenBlock (some elseBlock) s =>
    genCond (genExpr test) (genBlock thenBlock) (genBlock elseBlock) s
  | .ret _ _ => (genExpr? _ _).bind fun _ _ => emit _ _
  | .print value _ => (genExpr value).bind fun _ _ => emit _ _
  | .expr value _ => (genExpr value).bind fun _ _ => emit _ _

theorem genBlock : ∀ b : Block Stmt, Walks (κ := κ) known start AnyResult (genBlock b)
  | ⟨stmts, s⟩ => genInBlock (genStmts stmts) s.stop.line

theorem genStmts : ∀ ss : List Stmt, Walks (κ := κ) known start AnyResult (genStmts ss)
  | [] => pure trivial
  | s :: ss => (genStmt s).bind fun _ _ => genStmts ss

end

theorem forM {f : α → Gen κ Unit} : ∀ {xs : List α},
    (∀ x ∈ xs, Walks known start AnyResult (f x)) → Walks known start AnyResult (xs.forM f)
  | [], _ => pure trivial
  | x :: xs, h =>
    (h x (by simp)).bind fun _ _ => forM fun y hy => h y (by simp [hy])

theorem genFnBody (d : FnDecl) : Walks (κ := κ) known start AnyResult (genFnBody d) := by
  have hparams : Walks (κ := κ) known start AnyResult
      (d.params.forM fun p => ScriptMachine.declareSlot p.id p.span) :=
    forM fun p _ => declareSlot p.id p.span
  have hrest : Walks (κ := κ) known start AnyResult (do
      d.params.forM fun p => ScriptMachine.declareSlot p.id p.span
      ScriptMachine.genStmts d.body.stmts
      ScriptMachine.emit .loadNull d.body.span.stop.line
      ScriptMachine.emit .ret d.body.span.stop.line) :=
    hparams.bind fun _ _ => (genStmts _).bind fun _ _ => (emit _ _).bind fun _ _ => emit _ _
  unfold ScriptMachine.genFnBody
  dsimp only
  split
  · exact (reportCode _ _).bind fun _ _ => hrest
  · exact hrest

theorem genFnStore (d : FnDecl) {handle : Handle} (h : known handle) :
    Walks (κ := κ) known start AnyResult (genFnStore d handle) := by
  refine (emitConstant ?_ _).bind fun _ _ => (emitStore? _ _).bind fun _ _ => emit _ _
  rintro _ ⟨⟩
  exact h

theorem genVarInit (d : Decl) : Walks (κ := κ) known start AnyResult (genVarInit d) := by
  cases d with
  | fn d => exact pure trivial
  | var d => exact (genExpr? _ _).bind fun _ _ => (emitStore? _ _).bind fun _ _ => emit _ _

theorem genScript (program : Program) {fns : List (FnDecl × Handle)}
    (h : ∀ fn ∈ fns, known fn.2) :
    Walks (κ := κ) known start AnyResult (genScript program fns) := by
  refine (forM fun fn hfn => genFnStore fn.1 (h fn hfn)).bind fun _ _ => ?_
  refine (forM fun d _ => genVarInit d).bind fun _ _ => ?_
  dsimp only
  split
  · exact (emitLoad _ _).bind fun _ _ => (emitWith _ _ _).bind fun _ _ => (emit _ _).bind fun _ _ =>
      (emit _ _).bind fun _ _ => emit _ _
  · exact (emit _ _).bind fun _ _ => emit _ _

end Walks

/-! ## Allocations -/

/-- Edits change the heap by allocating names. -/
theorem Draft.Edits.allocs (h : Draft.Edits known start d d') : d.heap.Allocs d'.heap := by
  induction h with
  | refl => exact .refl
  | tail _ hedit ih =>
    cases hedit with
    | text name => exact ih.alloc _
    | name name => exact ih.alloc _
    | _ => exact ih

theorem allocs_addFunction {a : Assembly κ} (name : String) (arity : Nat) {body : Gen κ Unit}
    (hbody : Walks known 0 AnyResult body) :
    a.heap.Allocs (a.addFunction name arity body).2.heap :=
  (hbody { a with name } (Nat.zero_le _)).1.allocs.alloc _

theorem allocs_genFns (decls : List Decl) (a : Assembly κ) :
    a.heap.Allocs (genFns decls a).2.heap := by
  induction decls generalizing a with
  | nil => exact .refl
  | cons decl decls ih =>
    cases decl with
    | var d => exact ih a
    | fn d =>
      have hbody : Walks (κ := κ) (fun _ => False) 0 AnyResult (genFnBody d) := .genFnBody d
      exact (allocs_addFunction d.name d.params.length hbody).trans (ih _)

/-- Compiling changes the heap by allocations only, also when errors are reported. -/
theorem Program.compile_allocs (program : Program) (heap : Heap κ) (symbols : SymbolTable) :
    heap.Allocs (program.compile heap symbols).heap := by
  let start : Assembly κ := ⟨heap, (assignGlobalSlots symbols).1, (assignGlobalSlots symbols).2⟩
  have hscript : ∀ fns, Walks (fun _ => True) 0 AnyResult (genScript program fns : Gen κ Unit) :=
    fun _ => .genScript program fun _ _ => trivial
  have hfns : heap.Allocs (genFns program.decls start).2.heap := allocs_genFns program.decls start
  exact hfns.trans (allocs_addFunction "script" 0 (hscript _))

end ScriptMachine
