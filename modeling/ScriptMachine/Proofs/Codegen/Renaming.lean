import ScriptMachine.Codegen.Script
import ScriptMachine.Proofs.Codegen.Edits
import ScriptMachine.Proofs.Machine.Renaming

/-!
# Code generation up to handles

Code generation looks at the heap only for the names of methods among the constants
of the function at hand. On two heaps that agree up to handles it therefore does the
same (`Program.compile_matches`): the same errors, the same slots, and functions with
the same code, whose constants stand for each other. The renaming grows by what is
allocated on the way.
-/

namespace ScriptMachine

variable {κ α δ : Type} {β γ : Renaming}

/-- Drafts that agree up to handles. -/
structure Draft.Matches (β : Renaming) (left right : Draft κ) : Prop where
  heap : Heap.Matches Function.Matches β left.heap right.heap
  symbols : left.symbols = right.symbols
  errors : left.errors = right.errors
  name : left.name = right.name
  code : left.chunk.code = right.chunk.code
  lines : left.chunk.lines = right.chunk.lines
  constants : Pointwise (Value.Matches β) left.chunk.constants right.chunk.constants
  height : left.height = right.height

/-! ## What walks look at -/

theorem Pointwise.findIdx?_eq {R : Value → Value → Prop} {xs ys : Array Value}
    (h : Pointwise R xs ys) {p q : Value → Bool} (hpq : ∀ {v w}, R v w → p v = q w) :
    xs.findIdx? p = ys.findIdx? q := by
  have hlist := h.forall₂
  obtain ⟨vs⟩ := xs
  obtain ⟨ws⟩ := ys
  rw [List.findIdx?_toArray, List.findIdx?_toArray]
  dsimp only at hlist
  clear h
  induction hlist with
  | nil => rfl
  | cons hvw _ ih => simp only [List.findIdx?_cons, hpq hvw, ih]

section Draft

variable {d d' : Draft κ}

theorem Draft.Matches.slot?_eq (h : Draft.Matches β d d') (id : SymbolId) :
    d.slot? id = d'.slot? id := by
  unfold Draft.slot?
  rw [h.symbols]

theorem Draft.Matches.textConstant?_eq (h : Draft.Matches β d d') (text : String) :
    d.textConstant? text = d'.textConstant? text := by
  refine h.constants.findIdx?_eq fun {v w} hvw => ?_
  cases hvw with
  | null => rfl
  | bool _ => rfl
  | number _ => rfl
  | @object a b hab =>
    have hstring := h.heap.string hab
    dsimp only
    generalize d.heap.string a = found at hstring
    generalize d'.heap.string b = found' at hstring
    cases hstring with
    | ok heq => rw [heq]
    | error _ => rfl

end Draft

/-! ## Walks side by side -/

/-- Two walks that do the same up to handles, under every renaming that extends `β`. -/
def Gen.Matches (β : Renaming) (x y : Gen κ α) : Prop :=
  ∀ (γ : Renaming) (d d' : Draft κ), β ≤ γ → Draft.Matches γ d d' →
    ∃ δ, γ ≤ δ ∧ Draft.Matches δ (x d).2 (y d').2 ∧ (x d).1 = (y d').1

namespace Gen.Matches

variable {x y : Gen κ α}

theorem mono (hle : β ≤ γ) (h : Gen.Matches β x y) : Gen.Matches γ x y :=
  fun _ _ _ hle' hd => h _ _ _ (le_trans hle hle') hd

theorem pure (a : α) : Gen.Matches (κ := κ) β (Pure.pure a) (Pure.pure a) :=
  fun _ _ _ _ hd => ⟨_, le_refl _, hd, rfl⟩

theorem bind {k l : α → Gen κ δ} (hxy : Gen.Matches β x y) (hkl : ∀ a, Gen.Matches β (k a) (l a)) :
    Gen.Matches β (x >>= k) (y >>= l) := by
  intro γ d d' hle hd
  obtain ⟨γ₁, hle₁, hd₁, heq⟩ := hxy γ d d' hle hd
  obtain ⟨γ₂, hle₂, hd₂, heq₂⟩ := hkl (y d').1 _ _ _ (le_trans hle hle₁) hd₁
  rw [gen_bind, gen_bind, heq]
  exact ⟨γ₂, le_trans hle₁ hle₂, hd₂, heq₂⟩

/-- Looking at the draft. -/
theorem get {k l : Draft κ → Gen κ δ}
    (h : ∀ {γ d d'}, β ≤ γ → Draft.Matches γ d d' → Gen.Matches γ (k d) (l d')) :
    Gen.Matches β (get >>= k) (get >>= l) :=
  fun γ d d' hle hd => h hle hd γ d d' (le_refl γ) hd

theorem modify {f g : Draft κ → Draft κ}
    (h : ∀ {γ d d'}, β ≤ γ → Draft.Matches γ d d' → Draft.Matches γ (f d) (g d')) :
    Gen.Matches β (modify f) (modify g) :=
  fun _ _ _ hle hd => ⟨_, le_refl _, h hle hd, rfl⟩

theorem reportCode (fault : CodeFault) (span : Span) :
    Gen.Matches (κ := κ) β (reportCode fault span) (reportCode fault span) :=
  modify fun _ hd => { hd with errors := congrArg (·.push (⟨fault, span⟩ : CodeError)) hd.errors }

theorem emitByte (byte : UInt8) (line : Nat) :
    Gen.Matches (κ := κ) β (emitByte byte line) (emitByte byte line) :=
  modify fun _ hd => { hd with
    code := congrArg (·.push byte) hd.code
    lines := by simp only [Chunk.write, hd.lines] }

theorem emit (op : Opcode) (line : Nat) : Gen.Matches (κ := κ) β (emit op line) (emit op line) :=
  emitByte _ _

theorem emitWith (op : Opcode) (operand : UInt8) (line : Nat) :
    Gen.Matches (κ := κ) β (emitWith op operand line) (emitWith op operand line) :=
  (emit _ _).bind fun _ => emitByte _ _

theorem addConstant {v w : Value} (h : Value.Matches β v w) (span : Span) :
    Gen.Matches (κ := κ) β (addConstant v span) (addConstant w span) := by
  intro γ d d' hle hd
  rw [addConstant_apply, addConstant_apply, hd.constants.size_eq]
  split
  · exact ⟨γ, le_refl γ, { hd with constants := hd.constants.push (h.mono hle) }, rfl⟩
  · exact ⟨γ, le_refl γ, { hd with errors := by rw [hd.errors, hd.name] }, rfl⟩

theorem emitConstant {v w : Value} (h : Value.Matches β v w) (span : Span) :
    Gen.Matches (κ := κ) β (emitConstant v span) (emitConstant w span) :=
  (addConstant h span).bind fun _ => emitWith _ _ _

theorem methodConstant (name : String) (span : Span) :
    Gen.Matches (κ := κ) β (methodConstant name span) (methodConstant name span) := by
  intro γ d d' _ hd
  rw [methodConstant_apply, methodConstant_apply, hd.textConstant?_eq]
  cases d'.textConstant? name with
  | some index => exact ⟨γ, le_refl γ, hd, rfl⟩
  | none =>
    have hheap := hd.heap.alloc (.string name)
    have hle := γ.le_extend (d.heap.alloc (.string name)).1 (d'.heap.alloc (.string name)).1
    have hd' : Draft.Matches _ { d with heap := (d.heap.alloc (.string name)).2 }
        { d' with heap := (d'.heap.alloc (.string name)).2 } :=
      { hd with heap := hheap, constants := hd.constants.mono (Value.Matches.mono hle) }
    obtain ⟨γ', hle', hmatches⟩ :=
      addConstant (.object (.inr ⟨rfl, rfl⟩)) span _ _ _ (le_refl _) hd'
    exact ⟨γ', le_trans hle hle', hmatches⟩

theorem emitJump (op : Opcode) (line : Nat) :
    Gen.Matches (κ := κ) β (emitJump op line) (emitJump op line) := by
  refine get fun {_ d d'} _ hd => ?_
  dsimp only
  rw [hd.code]
  exact (emit _ _).bind fun _ => (emitByte _ _).bind fun _ => (emitByte _ _).bind fun _ => pure _

theorem landJump (offset : Nat) (span : Span) :
    Gen.Matches (κ := κ) β (landJump offset span) (landJump offset span) := by
  refine get fun {_ d d'} _ hd => ?_
  dsimp only
  rw [hd.code]
  split
  · refine modify fun _ hd => { hd with code := ?_ }
    simp only [Chunk.patchJump, hd.code]
  · exact reportCode _ _

theorem emitLoad (id : SymbolId) (line : Nat) :
    Gen.Matches (κ := κ) β (emitLoad id line) (emitLoad id line) := by
  refine get fun {_ d d'} _ hd => ?_
  rw [hd.slot?_eq]
  split
  · exact emitWith _ _ _
  · exact emitWith _ _ _
  · exact emit _ _

theorem emitStore (id : SymbolId) (line : Nat) :
    Gen.Matches (κ := κ) β (emitStore id line) (emitStore id line) := by
  refine get fun {_ d d'} _ hd => ?_
  rw [hd.slot?_eq]
  split
  · exact emitWith _ _ _
  · exact emitWith _ _ _
  · exact pure _

theorem emitStore? (id : Option SymbolId) (line : Nat) :
    Gen.Matches (κ := κ) β (emitStore? id line) (emitStore? id line) := by
  cases id with
  | some id => exact emitStore id line
  | none => exact pure _

theorem declareSlot (id : Option SymbolId) (span : Span) :
    Gen.Matches (κ := κ) β (declareSlot id span) (declareSlot id span) := by
  cases id with
  | none => exact modify fun _ hd => { hd with height := congrArg (· + 1) hd.height }
  | some id =>
    refine get fun {_ d d'} _ hd => ?_
    dsimp only
    rw [hd.height]
    have hsymbols : ∀ {γ'} {e e' : Draft κ}, Draft.Matches γ' e e' →
        e.symbols.setSlot id d'.height = e'.symbols.setSlot id d'.height :=
      fun he => congrArg (·.setSlot id d'.height) he.symbols
    split
    · exact (reportCode _ _).bind fun _ =>
        modify fun _ he => { he with symbols := hsymbols he, height := rfl }
    · exact modify fun _ he => { he with symbols := hsymbols he, height := rfl }

theorem emitPopMany (count line : Nat) :
    Gen.Matches (κ := κ) β (emitPopMany count line) (emitPopMany count line) := by
  fun_induction ScriptMachine.emitPopMany (κ := κ) count line with
  | case1 count _ ih => exact (emitWith _ _ _).bind fun _ => ih
  | case2 count => exact pure _

theorem emitPops (count line : Nat) :
    Gen.Matches (κ := κ) β (emitPops count line) (emitPops count line) := by
  unfold ScriptMachine.emitPops
  split
  · exact emit _ _
  · exact emitPopMany _ _

theorem countOperand (role : CountRole) (count : Nat) (span : Span) :
    Gen.Matches (κ := κ) β (countOperand role count span) (countOperand role count span) := by
  unfold ScriptMachine.countOperand
  split
  · exact pure _
  · exact (reportCode _ _).bind fun _ => pure _

/-! ## Expressions and statements -/

theorem genAssigned (op : AssignOp) {old new : Gen κ Unit} (hold : Gen.Matches β old old)
    (hnew : Gen.Matches β new new) (line : Nat) :
    Gen.Matches β (genAssigned op old new line) (genAssigned op old new line) := by
  unfold ScriptMachine.genAssigned
  split
  · exact hold.bind fun _ => hnew.bind fun _ => emit _ _
  · exact hnew

mutual

theorem genExpr : ∀ e : Expr, Gen.Matches (κ := κ) β (genExpr e) (genExpr e)
  | .null _ => emit _ _
  | .bool true _ => emit _ _
  | .bool false _ => emit _ _
  | .number value _ => emitConstant (.number value) _
  | .string _ _ => (reportCode _ _).bind fun _ => emit _ _
  | .name _ (some id) _ => emitLoad id _
  | .name _ none _ => emit _ _
  | .unary _ operand _ => (genExpr operand).bind fun _ => emit _ _
  | .binary _ left right _ => (genExpr left).bind fun _ => (genExpr right).bind fun _ => emit _ _
  | .logical _ left right _ =>
    (genExpr left).bind fun _ => (emitJump _ _).bind fun _ => (emit _ _).bind fun _ =>
      (genExpr right).bind fun _ => landJump _ _
  | .list items _ =>
    (countOperand _ _ _).bind fun _ => (genExprs items).bind fun _ => emitWith _ _ _
  | .index base index _ =>
    (genExpr base).bind fun _ => (genExpr index).bind fun _ => emit _ _
  | .assign op target value _ => by
    cases target with
    | name name id t =>
      exact (genAssigned op (genExpr (.name name id t)) (genExpr value) _).bind fun _ =>
        emitStore? _ _
    | index base index t =>
      exact (genExpr base).bind fun _ => (genExpr index).bind fun _ =>
        (genAssigned op (genExpr (.index base index t)) (genExpr value) _).bind fun _ => emit _ _
    | _ => exact (reportCode _ _).bind fun _ => genAssigned op (genExpr _) (genExpr value) _
  | .call callee args _ => by
    cases callee with
    | property object name t =>
      exact (countOperand _ _ _).bind fun _ => (genExpr object).bind fun _ =>
        (genExprs args).bind fun _ => (methodConstant _ _).bind fun _ =>
          (emitWith _ _ _).bind fun _ => emitByte _ _
    | _ =>
      exact (countOperand _ _ _).bind fun _ => (genExpr _).bind fun _ =>
        (genExprs args).bind fun _ => emitWith _ _ _
  | .property _ _ _ => (reportCode _ _).bind fun _ => emit _ _

theorem genExprs : ∀ es : List Expr, Gen.Matches (κ := κ) β (genExprs es) (genExprs es)
  | [] => pure _
  | e :: es => (genExpr e).bind fun _ => genExprs es

end

theorem genExpr? (value : Option Expr) (line : Nat) :
    Gen.Matches (κ := κ) β (genExpr? value line) (genExpr? value line) := by
  cases value with
  | some e => exact genExpr e
  | none => exact emit _ _

theorem genInBlock {body : Gen κ Unit} (h : Gen.Matches β body body) (endLine : Nat) :
    Gen.Matches β (genInBlock body endLine) (genInBlock body endLine) := by
  refine get fun {_ d d'} hle hd => (h.mono hle).bind fun _ => ?_
  refine get fun {_ e e'} _ he => ?_
  rw [hd.height, he.height]
  exact (emitPops _ _).bind fun _ => modify fun _ he => { he with height := rfl }

theorem genCond {test thenCode elseCode : Gen κ Unit} (htest : Gen.Matches β test test)
    (hthen : Gen.Matches β thenCode thenCode) (helse : Gen.Matches β elseCode elseCode)
    (span : Span) :
    Gen.Matches β (genCond test thenCode elseCode span) (genCond test thenCode elseCode span) :=
  htest.bind fun _ => (emitJump _ _).bind fun _ => (emit _ _).bind fun _ =>
    hthen.bind fun _ => (emitJump _ _).bind fun _ => (landJump _ _).bind fun _ =>
      (emit _ _).bind fun _ => helse.bind fun _ => landJump _ _

mutual

theorem genStmt : ∀ s : Stmt, Gen.Matches (κ := κ) β (genStmt s) (genStmt s)
  | .block body => genBlock body
  | .var _ => (genExpr? _ _).bind fun _ => declareSlot _ _
  | .cond test thenBlock none s => genCond (genExpr test) (genBlock thenBlock) (pure _) s
  | .cond test thenBlock (some elseBlock) s =>
    genCond (genExpr test) (genBlock thenBlock) (genBlock elseBlock) s
  | .ret _ _ => (genExpr? _ _).bind fun _ => emit _ _
  | .print value _ => (genExpr value).bind fun _ => emit _ _
  | .expr value _ => (genExpr value).bind fun _ => emit _ _

theorem genBlock : ∀ b : Block Stmt, Gen.Matches (κ := κ) β (genBlock b) (genBlock b)
  | ⟨stmts, s⟩ => genInBlock (genStmts stmts) s.stop.line

theorem genStmts : ∀ ss : List Stmt, Gen.Matches (κ := κ) β (genStmts ss) (genStmts ss)
  | [] => pure _
  | s :: ss => (genStmt s).bind fun _ => genStmts ss

end

/-! ## Functions and scripts -/

theorem forM {τ : Type} {R : τ → τ → Prop} {f g : τ → Gen κ Unit} {xs ys : List τ}
    (h : List.Forall₂ R xs ys) (hfg : ∀ {a b}, R a b → Gen.Matches β (f a) (g b)) :
    Gen.Matches β (xs.forM f) (ys.forM g) := by
  induction h with
  | nil => exact pure _
  | cons hab _ ih => exact (hfg hab).bind fun _ => ih

theorem genFnBody (d : FnDecl) : Gen.Matches (κ := κ) β (genFnBody d) (genFnBody d) := by
  have hparams : Gen.Matches (κ := κ) β
      (d.params.forM fun p => ScriptMachine.declareSlot p.id p.span)
      (d.params.forM fun p => ScriptMachine.declareSlot p.id p.span) :=
    forM (List.forall₂_same.2 fun _ _ => rfl) fun {p _} hpq => hpq ▸ declareSlot p.id p.span
  unfold ScriptMachine.genFnBody
  dsimp only
  split
  · exact (reportCode _ _).bind fun _ => hparams.bind fun _ => (genStmts _).bind fun _ =>
      (emit _ _).bind fun _ => emit _ _
  · exact hparams.bind fun _ => (genStmts _).bind fun _ => (emit _ _).bind fun _ => emit _ _

theorem genFnStore (d : FnDecl) {a b : Handle} (hab : β a b) :
    Gen.Matches (κ := κ) β (genFnStore d a) (genFnStore d b) :=
  (emitConstant (.object hab) _).bind fun _ => (emitStore? _ _).bind fun _ => emit _ _

theorem genVarInit (d : Decl) : Gen.Matches (κ := κ) β (genVarInit d) (genVarInit d) := by
  cases d with
  | fn d => exact pure _
  | var d => exact (genExpr? _ _).bind fun _ => (emitStore? _ _).bind fun _ => emit _ _

theorem genScript (program : Program) {fns fns' : List (FnDecl × Handle)}
    (h : List.Forall₂ (fun fn fn' => fn.1 = fn'.1 ∧ β fn.2 fn'.2) fns fns') :
    Gen.Matches (κ := κ) β (genScript program fns) (genScript program fns') := by
  refine (forM h fun {fn fn'} hfn => ?_).bind fun _ => ?_
  · obtain ⟨d, a⟩ := fn
    obtain ⟨d', b⟩ := fn'
    obtain ⟨rfl, hab⟩ := hfn
    exact genFnStore d hab
  · refine (forM (List.forall₂_same.2 fun _ _ => rfl) fun {d _} hd => hd ▸ genVarInit d).bind
      fun _ => ?_
    dsimp only
    split
    · exact (emitLoad _ _).bind fun _ => (emitWith _ _ _).bind fun _ => (emit _ _).bind fun _ =>
        (emit _ _).bind fun _ => emit _ _
    · exact (emit _ _).bind fun _ => emit _ _

end Gen.Matches

/-! ## Programs -/

structure Assembly.Matches (β : Renaming) (left right : Assembly κ) : Prop where
  heap : Heap.Matches Function.Matches β left.heap right.heap
  symbols : left.symbols = right.symbols
  errors : left.errors = right.errors

theorem Assembly.Matches.addFunction {a a' : Assembly κ} (h : Assembly.Matches β a a')
    (name : String) (arity : Nat) {body body' : Gen κ Unit} (hbody : Gen.Matches β body body') :
    ∃ γ, β ≤ γ ∧ γ (a.addFunction name arity body).1 (a'.addFunction name arity body').1 ∧
      Assembly.Matches γ (a.addFunction name arity body).2 (a'.addFunction name arity body').2 := by
  obtain ⟨γ, hle, hd, -⟩ := hbody β { a with name } { a' with name } (le_refl β)
    ⟨h.heap, h.symbols, h.errors, rfl, rfl, rfl, .empty, rfl⟩
  let f : Function := ⟨name, arity, (body { a with name }).2.chunk⟩
  let g : Function := ⟨name, arity, (body' { a' with name }).2.chunk⟩
  have hfg : Function.Matches γ f g := ⟨rfl, rfl, hd.code, hd.lines, hd.constants⟩
  have hheap := hd.heap.alloc (.function hfg)
  exact ⟨_, le_trans hle (γ.le_extend _ _), .inr ⟨rfl, rfl⟩, hheap, hd.symbols, hd.errors⟩

theorem genFns_matches (decls : List Decl) {a a' : Assembly κ} (h : Assembly.Matches β a a') :
    ∃ γ, β ≤ γ ∧ List.Forall₂ (fun fn fn' => fn.1 = fn'.1 ∧ γ fn.2 fn'.2) (genFns decls a).1
        (genFns decls a').1 ∧
      Assembly.Matches γ (genFns decls a).2 (genFns decls a').2 := by
  induction decls generalizing a a' β with
  | nil => exact ⟨β, le_refl β, .nil, h⟩
  | cons decl decls ih =>
    cases decl with
    | var d => exact ih h
    | fn d =>
      obtain ⟨γ, hle, hab, h'⟩ := h.addFunction d.name d.params.length (.genFnBody d)
      obtain ⟨δ, hle', hfns, h''⟩ := ih h'
      exact ⟨δ, le_trans hle hle', .cons ⟨rfl, hle' _ _ hab⟩ hfns, h''⟩

/-- A program is compiled in the same way on two heaps that agree up to handles. -/
theorem Program.compile_matches (program : Program) {left right : Heap κ}
    (h : Heap.Matches Function.Matches β left right) (symbols : SymbolTable) :
    ∃ γ, β ≤ γ ∧
      Heap.Matches Function.Matches γ (program.compile left symbols).heap
        (program.compile right symbols).heap ∧
      (program.compile left symbols).symbols = (program.compile right symbols).symbols ∧
      γ (program.compile left symbols).script (program.compile right symbols).script ∧
      (program.compile left symbols).errors = (program.compile right symbols).errors := by
  have hstart : Assembly.Matches β ⟨left, _, (assignGlobalSlots symbols).2⟩
      ⟨right, (assignGlobalSlots symbols).1, _⟩ := ⟨h, rfl, rfl⟩
  obtain ⟨γ, hle, hfns, hassembly⟩ := genFns_matches program.decls hstart
  obtain ⟨δ, hle', hscript, hassembly'⟩ :=
    hassembly.addFunction "script" 0 (.genScript program hfns)
  exact ⟨δ, le_trans hle hle', hassembly'.heap, hassembly'.symbols, hscript,
    congrArg Array.toList hassembly'.errors⟩

end ScriptMachine
