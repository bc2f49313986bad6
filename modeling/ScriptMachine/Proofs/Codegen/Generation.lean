import ScriptMachine.Proofs.Codegen.Placement

/-!
# Generated code has the layout of its source

For every part of a program that is in scope, code generation emits the code
that `ExprAt`, `StmtAt`, `FnAt` and `ScriptAt` describe (`Emits.genExpr`,
`Emits.genStmts`, `Emits.genFnBody`, `Emits.genScript`). The proofs follow the
recursion of code generation and put together what single instructions emit.
-/

namespace ScriptMachine

variable {κ α : Type} {known : Handle → Prop}

namespace Emits

variable {globals count : Nat} {Γ Δ : List SymbolId} {n m : Nat}

/-! ## Parts that fail, and parts that depend on the draft -/

/-- What follows an error emits anything, since it does not succeed. -/
theorem reported {x : Gen κ α} (hx : ∀ start, Walks known start AnyResult x) (fault : CodeFault)
    (span : Span) (P : α → Site κ → Nat → Nat → Prop) :
    Emits known globals count Γ Δ n m (do
      reportCode fault span
      x) P where
  walks start := (Walks.reportCode fault span).bind fun _ _ => hx start
  emits d _ herrors := by
    have hedits := (hx 0 (reportCode fault span d).2 (Nat.zero_le _)).1
    have hempty : (d.errors.push ⟨fault, span⟩) = #[] := hedits.errors_eq_empty herrors
    simp at hempty

/-- What does the same as something else, where it succeeds. -/
theorem congr {x y : Gen κ α} {P : α → Site κ → Nat → Nat → Prop}
    (hwalks : ∀ start, Walks known start AnyResult x)
    (heq : ∀ d : Draft κ, d.Fits globals count Γ → (x d).2.errors = #[] → x d = y d)
    (hy : Emits known globals count Γ Δ n m y P) : Emits known globals count Γ Δ n m x P where
  walks := hwalks
  emits d hd herrors := by
    have hxy := heq d hd herrors
    rw [hxy] at herrors ⊢
    exact hy.emits d hd herrors

/-- The heights at both ends. -/
theorem heights {x : Gen κ α} {P : α → Site κ → Nat → Nat → Prop}
    (hx : Emits known globals count Γ Δ n m x P) :
    Emits known globals count Γ Δ n m x fun a k p q =>
      k.height p = n ∧ k.height q = m ∧ P a k p q where
  walks := hx.walks
  emits d hd herrors := by
    obtain ⟨hfits, H, hstart, hend, hplaced⟩ := hx.emits d hd herrors
    have hle := (hx.walks 0 d (Nat.zero_le _)).1.size_le
    refine ⟨hfits, H, hstart, hend, fun k hk hagrees => ⟨?_, ?_, hplaced k hk hagrees⟩⟩
    · rw [hagrees.height _ (Nat.le_refl _) hle, hstart]
    · rw [hagrees.height _ hle (Nat.le_refl _), hend]

/-- The globals of the site. -/
theorem withGlobals {x : Gen κ α} {P : α → Site κ → Nat → Nat → Prop}
    (hx : Emits known globals count Γ Δ n m x P) :
    Emits known globals count Γ Δ n m x fun a k p q => globals = k.globals ∧ P a k p q where
  walks := hx.walks
  emits d hd herrors := by
    obtain ⟨hfits, H, hstart, hend, hplaced⟩ := hx.emits d hd herrors
    exact ⟨hfits, H, hstart, hend, fun k hk hagrees => ⟨hk.symm, hplaced k hk hagrees⟩⟩

/-! ## Expressions -/

theorem genAssigned (op : AssignOp) {old new : Gen κ Unit} {target value : Expr}
    (hold : Emits known globals count Γ Γ n (n + 1) old fun _ k p q => ExprAt k Γ p n target q)
    (hnew : ∀ n, Emits known globals count Γ Γ n (n + 1) new fun _ k p q => ExprAt k Γ p n value q)
    (line : Nat) :
    Emits known globals count Γ Γ n (n + 1) (genAssigned op old new line) fun _ k p q =>
      AssignedAt k Γ p n op target value q := by
  unfold ScriptMachine.genAssigned
  split
  · next binary hop =>
    refine (hold.bind fun _ => (hnew (n + 1)).bind fun _ =>
      emit binary.opcode (by cases binary <;> rfl) _ _ line).mono ?_
    rintro _ k p q ⟨_, r, htarget, _, u, hvalue, h, rfl⟩
    exact .compound hop htarget hvalue h
  · next hop => exact (hnew n).mono fun hvalue => .plain hop hvalue

/-- The code that calls a method whose name is among the constants. -/
theorem invoke (index operand : UInt8) (line n m : Nat) :
    Emits (κ := κ) known globals count Γ Γ n m (do
      ScriptMachine.emitWith .invoke index line
      ScriptMachine.emitByte operand line) fun _ k p q =>
        ∀ {name}, k.Names index name → k.Holds p n ⟨.invoke, index, operand⟩ ∧ q = p + 3 := by
  refine (((emitByte Opcode.invoke.toByte n n line).bind fun _ => emitByte index n n line).bind
    fun _ => emitByte operand n m line).mono ?_
  rintro _ k p q ⟨_, _, ⟨_, _, ⟨hcode, hheight, rfl⟩, hcode', -, rfl⟩, hcode'', -, rfl⟩ name
    ⟨handle, hconstant, -⟩
  refine ⟨⟨?_, hheight⟩, rfl⟩
  exact Chunk.fetch_two hcode hcode' hcode'' rfl fun _ => (Array.getElem?_eq_some_iff.1 hconstant).1

/-- The code of a call of what an expression gives. -/
theorem genCall {callee : Expr} {args : List Expr} {s : Span}
    (hcallee : Emits (κ := κ) known globals count Γ Γ n (n + 1) (genExpr callee) fun _ k p q =>
      ExprAt k Γ p n callee q)
    (hargs : Emits (κ := κ) known globals count Γ Γ (n + 1) (n + 1 + args.length) (genExprs args)
      fun _ k p q => ExprsAt k Γ p (n + 1) args q)
    (hcode : genExpr (κ := κ) (.call callee args s) = do
      let operand ← ScriptMachine.countOperand .arguments args.length s
      genExpr callee
      genExprs args
      ScriptMachine.emitWith .call operand s.start.line) :
    Emits (κ := κ) known globals count Γ Γ n (n + 1) (genExpr (.call callee args s))
      fun _ k p q => ExprAt k Γ p n (.call callee args s) q := by
  rw [hcode]
  refine ((countOperand .arguments args.length s n).bind fun operand => hcallee.bind fun _ =>
    hargs.bind fun _ => emitWith .call rfl operand _ _ s.start.line).mono ?_
  rintro _ k p q ⟨operand, _, ⟨hcount, rfl⟩, _, r, hcallee, _, u, hargs, h, rfl⟩
  exact .call hcallee hargs hcount h

mutual

/-- The code of an expression takes the stack one higher. -/
theorem genExpr : ∀ e : Expr, e.Scoped globals Γ → ∀ n,
    Emits (κ := κ) known globals count Γ Γ n (n + 1) (genExpr e) fun _ k p q => ExprAt k Γ p n e q
  | .null s, _, n => (emit .loadNull rfl n _ _).mono fun ⟨h, hq⟩ => hq ▸ .null h
  | .bool true s, _, n => (emit .loadTrue rfl n _ _).mono fun ⟨h, hq⟩ => hq ▸ .true h
  | .bool false s, _, n => (emit .loadFalse rfl n _ _).mono fun ⟨h, hq⟩ => hq ▸ .false h
  | .number x s, _, n => by
    refine (emitConstant (fun _ h => nomatch h) s n (n + 1)).mono ?_
    rintro _ k p q ⟨index, h, hconstant, rfl⟩
    exact .number h hconstant
  | .string _ s, _, n => reported (fun _ => .emit _ _) _ _ _
  | .name text id s, hscoped, n => by
    obtain ⟨i, rfl, hi⟩ := hscoped
    exact (emitLoad hi n (n + 1) s.start.line).mono fun ⟨h, hq⟩ => hq ▸ .name h
  | .unary op e s, hscoped, n => by
    refine ((genExpr e hscoped n).bind fun _ =>
      emit op.opcode (by cases op <;> rfl) (n + 1) (n + 1) s.start.line).mono ?_
    rintro _ k p q ⟨_, r, he, h, rfl⟩
    exact .unary he h
  | .binary op left right s, ⟨hleft, hright⟩, n => by
    refine ((genExpr left hleft n).bind fun _ => (genExpr right hright (n + 1)).bind fun _ =>
      emit op.opcode (by cases op <;> rfl) (n + 2) (n + 1) s.start.line).mono ?_
    rintro _ k p q ⟨_, r, hleft, _, u, hright, h, rfl⟩
    exact .binary hleft hright h
  | .logical op left right s, ⟨hleft, hright⟩, n => by
    have hskip := jumpOver op.opcode (by cases op <;> rfl)
      ((emit .pop rfl (n + 1) n s.start.line).bind fun _ => genExpr right hright n)
      s.start.line s (n + 1)
    refine ((genExpr left hleft n).bind fun _ => hskip).mono ?_
    rintro _ k p q ⟨_, r, hleft, hjump, _, u, ⟨hpop, rfl⟩, hright⟩
    exact .logical hleft hjump hpop hright
  | .list items s, hscoped, n => by
    refine ((countOperand .elements items.length s n).bind fun operand =>
      (genExprs items hscoped n).bind fun _ =>
        emitWith .makeList rfl operand (n + items.length) (n + 1) s.start.line).mono ?_
    rintro _ k p q ⟨operand, _, ⟨hcount, rfl⟩, _, r, hitems, h, rfl⟩
    exact .list hitems hcount h
  | .index base index s, ⟨hbase, hindex⟩, n => by
    refine ((genExpr base hbase n).bind fun _ => (genExpr index hindex (n + 1)).bind fun _ =>
      emit .getIndex rfl (n + 2) (n + 1) s.start.line).mono ?_
    rintro _ k p q ⟨_, r, hbase, _, u, hindex, h, rfl⟩
    exact .index hbase hindex h
  | .assign op target value s, ⟨htarget, hvalue⟩, n => by
    cases target with
    | name text id t =>
      have hold := genExpr (.name text id t) htarget n
      obtain ⟨i, rfl, hi⟩ := htarget
      refine ((genAssigned op hold (genExpr value hvalue) s.start.line).bind fun _ =>
        emitStore hi (n + 1) (n + 1) s.start.line).mono ?_
      rintro _ k p q ⟨_, r, hvalue, h, rfl⟩
      exact .assignName hvalue h
    | index base index t =>
      refine ((genExpr base htarget.1 n).bind fun _ => (genExpr index htarget.2 (n + 1)).bind
        fun _ => (genAssigned op (genExpr (.index base index t) htarget (n + 2))
          (genExpr value hvalue) s.start.line).bind fun _ =>
            emit .setIndex rfl (n + 3) (n + 1) s.start.line).mono ?_
      rintro _ k p q ⟨_, r, hbase, _, u, hindex, _, v, hvalue, h, rfl⟩
      exact .assignIndex hbase hindex hvalue h
    | _ => exact reported (fun _ => .genAssigned op (.genExpr _) (.genExpr _) _) _ _ _
  | .call callee args s, ⟨hcallee, hargs⟩, n => by
    cases callee with
    | property object name t =>
      refine ((countOperand .arguments args.length s n).bind fun operand =>
        (genExpr object hcallee n).bind fun _ => (genExprs args hargs (n + 1)).bind fun _ =>
          (methodConstant name t (n + 1 + args.length)).bind fun index =>
            invoke index operand s.start.line (n + 1 + args.length) (n + 1)).mono ?_
      rintro _ k p q ⟨operand, _, ⟨hcount, rfl⟩, _, r, hobject, _, u, hargs, index, _,
        ⟨hname, rfl⟩, hinvoke⟩
      obtain ⟨h, rfl⟩ := hinvoke hname
      exact .invoke hobject hargs hcount hname h
    | _ => exact genCall (genExpr _ hcallee n) (genExprs args hargs (n + 1)) rfl
  | .property _ _ s, _, n => reported (fun _ => .emit _ _) _ _ _
termination_by structural e => e

/-- The code of expressions takes the stack higher by as many. -/
theorem genExprs : ∀ es : List Expr, exprsScoped globals Γ es → ∀ n,
    Emits (κ := κ) known globals count Γ Γ n (n + es.length) (genExprs es) fun _ k p q =>
      ExprsAt k Γ p n es q
  | [], _, n => (pure ()).mono fun ⟨_, hq⟩ => hq ▸ .nil
  | e :: es, ⟨he, hes⟩, n => by
    have hrest := genExprs es hes (n + 1)
    rw [show n + 1 + es.length = n + (e :: es).length by simp; omega] at hrest
    refine ((genExpr e he n).bind fun _ => hrest).mono ?_
    rintro _ k p q ⟨_, r, he, hes⟩
    exact .cons he hes
termination_by structural es => es

end

theorem genExpr? {value : Option Expr} (hvalue : initScoped globals Γ value) (line n : Nat) :
    Emits (κ := κ) known globals count Γ Γ n (n + 1) (genExpr? value line) fun _ k p q =>
      InitAt k Γ p n value q := by
  cases value with
  | some e => exact (genExpr e hvalue n).mono fun h => .some h
  | none => exact (emit .loadNull rfl n _ _).mono fun ⟨h, hq⟩ => hq ▸ .none h

/-! ## Statements -/

theorem emitPopMany (size line n : Nat) :
    Emits (κ := κ) known globals count Γ Γ (n + size) n (emitPopMany size line) fun _ k p q =>
      PopManyAt k p (n + size) size q := by
  fun_induction ScriptMachine.emitPopMany (κ := κ) size line with
  | case1 size hpos ih =>
    have hbatch : (min size maxCount).toUInt8.toNat = min size maxCount :=
      toNat_toUInt8 (by unfold maxCount; omega)
    have hsplit : n + size = n + (size - maxCount) + (min size maxCount).toUInt8.toNat := by
      rw [hbatch]
      omega
    refine ((emitWith .popN rfl _ (n + size) _ line).bind fun _ => ih).mono ?_
    rintro _ k p q ⟨_, _, ⟨h, rfl⟩, hrest⟩
    rw [hsplit] at h ⊢
    exact .many hpos hbatch h hrest
  | case2 size hzero =>
    obtain rfl : size = 0 := by omega
    exact (pure ()).mono fun ⟨_, hq⟩ => hq ▸ .none

theorem emitPops (size line n : Nat) :
    Emits (κ := κ) known globals count Γ Γ (n + size) n (emitPops size line) fun _ k p q =>
      PopsAt k p (n + size) size q := by
  unfold ScriptMachine.emitPops
  split
  · next hone =>
    subst hone
    exact (emit .pop rfl (n + 1) n line).mono fun ⟨h, hq⟩ => hq ▸ .one h
  · next hmany => exact (emitPopMany size line n).mono fun h => .many hmany h

/-- Leaving a block, its locals are no longer live. -/
theorem leaveBlock (Γ Δ : List SymbolId) (n : Nat) :
    Emits (κ := κ) known globals count (Γ ++ Δ) Γ n n
      (modify fun d => { d with height := Γ.length }) fun _ _ p q => p = q := by
  have hwalks : ∀ start, Walks (κ := κ) known start AnyResult
      (modify fun d => { d with height := Γ.length }) :=
    fun _ => .modify fun d => .declare d d.symbols Γ.length rfl
  refine (silent (P := fun _ _ => True) hwalks
    (fun d hd _ => ⟨?_, rfl, fun _ _ _ _ => trivial⟩) n).mono fun h => h.2
  refine ⟨hd.wf, hd.pool, rfl, hd.symbol, hd.globalSlot, fun {i id} hi => ?_, hd.globals_le, ?_⟩
  · have hlt := (List.getElem?_eq_some_iff.1 hi).1
    exact hd.localSlot ((List.getElem?_append_left hlt).trans hi)
  · have hle := hd.locals_le
    rw [List.length_append] at hle
    omega

theorem genInBlock {body : Gen κ Unit} {P : Unit → Site κ → Nat → Nat → Prop}
    (hbody : Emits known globals count Γ (Γ ++ Δ) Γ.length (Γ ++ Δ).length body P) (endLine : Nat) :
    Emits known globals count Γ Γ Γ.length Γ.length (genInBlock body endLine) fun _ k p q =>
      ∃ r, P () k p r ∧ PopsAt k r (Γ.length + Δ.length) Δ.length q := by
  rw [List.length_append] at hbody
  have hcode := hbody.bind fun _ => (emitPops Δ.length endLine Γ.length).bind fun _ =>
    leaveBlock Γ Δ Γ.length
  refine congr (fun start => .genInBlock (hbody.walks start) endLine) (fun d hd herrors => ?_)
    (hcode.mono ?_)
  · -- The number of locals to pop is read off the draft, which by then fits `Γ ++ Δ`.
    have hheight : (body d).2.height - d.height = Δ.length := by
      have hwalks : Walks (κ := κ) known 0 AnyResult
          (ScriptMachine.emitPops ((body d).2.height - d.height) endLine) := .emitPops _ _
      have hedits := (hwalks (body d).2 (Nat.zero_le _)).1
      have hfits := (hbody.emits d hd (hedits.errors_eq_empty herrors)).1
      have hheight := hfits.height
      rw [List.length_append] at hheight
      rw [hheight, hd.height]
      omega
    show _ = ((), { (ScriptMachine.emitPops Δ.length endLine (body d).2).2 with height := Γ.length
      })
    rw [← hheight, ← hd.height]
    rfl
  · rintro _ k p q ⟨_, r, hbody, _, u, hpops, rfl⟩
    exact ⟨r, hbody, hpops⟩

theorem genCond {test : Expr} {thenCode elseCode : Gen κ Unit} {thenBlock : Block Stmt}
    {elseBlock : Option (Block Stmt)} (htest : test.Scoped globals Γ)
    (hthen : Emits known globals count Γ Γ Γ.length Γ.length thenCode fun _ k p q =>
      BlockAt k Γ p thenBlock q)
    (helse : Emits known globals count Γ Γ Γ.length Γ.length elseCode fun _ k p q =>
      ElseAt k Γ p elseBlock q) (s : Span) :
    Emits known globals count Γ Γ Γ.length Γ.length
      (genCond (ScriptMachine.genExpr test) thenCode elseCode s) fun _ k p q =>
        StmtAt k Γ p (.cond test thenBlock elseBlock s) q Γ := by
  have hbranches := branches .jumpIfFalse .jump rfl rfl
    ((emit .pop rfl (Γ.length + 1) Γ.length s.start.line).bind fun _ => hthen)
    ((emit .pop rfl (Γ.length + 1) Γ.length s.start.line).bind fun _ => helse)
    s.start.line s (Γ.length + 1)
  refine ((genExpr test htest Γ.length).bind fun _ => hbranches).mono ?_
  rintro _ k p q ⟨_, r, htest, u, hjump, ⟨_, _, ⟨hpop, rfl⟩, hthen⟩, hskip, _, _, ⟨hpop', rfl⟩,
    helse⟩
  exact .cond htest hjump hpop hthen hskip hpop' helse

mutual

/-- The code of a statement leaves the stack as high as locals are live. -/
theorem genStmt {Γ : List SymbolId} : ∀ s : Stmt, s.Scoped globals count Γ →
    Emits (κ := κ) known globals count Γ (s.scope Γ) Γ.length (s.scope Γ).length (genStmt s)
      fun _ k p q => StmtAt k Γ p s q (s.scope Γ)
  | .block body, hscoped => (genBlock body hscoped).mono fun h => .block h
  | .var d, hscoped => by
    obtain ⟨hinit, i, hid, hlocal, hcount, hfresh⟩ := hscoped
    have hscope : Stmt.scope Γ (.var d) = Γ ++ [i] := by rw [Stmt.scope, hid, Option.toList_some]
    rw [hscope, List.length_append, List.length_singleton]
    refine ((genExpr? hinit d.span.start.line Γ.length).bind fun _ =>
      declareSlot hid hlocal hcount hfresh d.nameSpan (Γ.length + 1)).withGlobals.mono ?_
    rintro _ k p q ⟨rfl, _, r, hinit, rfl⟩
    exact .var hid hfresh hlocal hinit
  | .cond test thenBlock none s, hscoped =>
    genCond hscoped.1 (genBlock thenBlock hscoped.2) ((pure ()).mono fun ⟨_, hq⟩ => hq ▸ .none) s
  | .cond test thenBlock (some elseBlock) s, hscoped =>
    genCond hscoped.1 (genBlock thenBlock hscoped.2.1)
      ((genBlock elseBlock hscoped.2.2).mono fun h => .some h) s
  | .ret value s, hscoped => by
    refine ((genExpr? hscoped s.start.line Γ.length).bind fun _ =>
      emit .ret rfl (Γ.length + 1) Γ.length s.start.line).mono ?_
    rintro _ k p q ⟨_, r, hvalue, h, rfl⟩
    exact .ret hvalue h
  | .print value s, hscoped => by
    refine ((genExpr value hscoped Γ.length).bind fun _ =>
      emit .print rfl (Γ.length + 1) Γ.length s.start.line).mono ?_
    rintro _ k p q ⟨_, r, hvalue, h, rfl⟩
    exact .print hvalue h
  | .expr value s, hscoped => by
    refine ((genExpr value hscoped Γ.length).bind fun _ =>
      emit .pop rfl (Γ.length + 1) Γ.length s.start.line).mono ?_
    rintro _ k p q ⟨_, r, hvalue, h, rfl⟩
    exact .expr hvalue h
termination_by structural s => s

theorem genBlock {Γ : List SymbolId} : ∀ b : Block Stmt, blockScoped globals count Γ b →
    Emits (κ := κ) known globals count Γ Γ Γ.length Γ.length (genBlock b) fun _ k p q =>
      BlockAt k Γ p b q
  | ⟨stmts, s⟩, hscoped => by
    obtain ⟨Δ, hΔ⟩ := exists_stmtsScope_eq Γ stmts
    have hstmts := genStmts stmts hscoped
    rw [hΔ] at hstmts
    refine (genInBlock hstmts s.stop.line).mono ?_
    rintro _ k p q ⟨r, hstmts, hpops⟩
    exact .mk hstmts hpops
termination_by structural b => b

theorem genStmts {Γ : List SymbolId} : ∀ ss : List Stmt, stmtsScoped globals count Γ ss →
    Emits (κ := κ) known globals count Γ (stmtsScope Γ ss) Γ.length (stmtsScope Γ ss).length
      (genStmts ss) fun _ k p q => StmtsAt k Γ p ss q (stmtsScope Γ ss)
  | [], _ => by
    refine (pure ()).heights.mono ?_
    rintro _ k p q ⟨hheight, -, -, rfl⟩
    exact .nil hheight
  | s :: ss, ⟨hs, hss⟩ => by
    refine ((genStmt s hs).heights.bind fun _ => genStmts ss hss).mono ?_
    rintro _ k p q ⟨_, r, ⟨hheight, -, hs⟩, hss⟩
    exact .cons hheight hs hss
termination_by structural ss => ss

end

/-! ## Functions and scripts -/

theorem declareParams {params : List Param}
    (hparams : ∀ p ∈ params, ∃ i, p.id = some i ∧ globals ≤ i ∧ i < count)
    (hnodup : (Γ ++ params.filterMap (·.id)).Nodup) (n : Nat) :
    Emits (κ := κ) known globals count Γ (Γ ++ params.filterMap (·.id)) n n
      (params.forM fun p => ScriptMachine.declareSlot p.id p.span) fun _ _ p q => p = q := by
  induction params generalizing Γ with
  | nil =>
    rw [List.filterMap_nil, List.append_nil]
    exact (pure ()).mono fun h => h.2
  | cons p ps ih =>
    obtain ⟨i, hid, hlocal, hcount⟩ := hparams p (by simp)
    have happend : Γ ++ (p :: ps).filterMap (·.id) = Γ ++ [i] ++ ps.filterMap (·.id) := by
      rw [List.filterMap_cons_some hid, List.append_assoc]
      rfl
    rw [happend] at hnodup ⊢
    have hfresh : i ∉ Γ := by
      intro hmem
      have hdisjoint := (List.nodup_append.1 (List.nodup_append.1 hnodup).1).2.2
      exact hdisjoint i hmem i (by simp) rfl
    refine ((declareSlot hid hlocal hcount hfresh p.span n).bind fun _ =>
      ih (fun q hq => hparams q (by simp [hq])) hnodup).mono ?_
    rintro _ k a b ⟨_, _, rfl, rfl⟩
    rfl

theorem genFnBody {d : FnDecl} (hd : d.Scoped globals count) :
    Emits (κ := κ) known globals count [] (stmtsScope d.locals d.body.stmts) d.locals.length 0
      (genFnBody d) fun _ k p _ => p = 0 → FnAt k d := by
  have hrest : Emits (κ := κ) known globals count [] (stmtsScope d.locals d.body.stmts)
      d.locals.length 0 (do
        d.params.forM fun p => ScriptMachine.declareSlot p.id p.span
        ScriptMachine.genStmts d.body.stmts
        ScriptMachine.emit .loadNull d.body.span.stop.line
        ScriptMachine.emit .ret d.body.span.stop.line) fun _ k p _ => p = 0 → FnAt k d := by
    have hparams : Emits (κ := κ) known globals count [] d.locals d.locals.length d.locals.length
        (d.params.forM fun p => ScriptMachine.declareSlot p.id p.span) fun _ _ p q => p = q :=
      declareParams hd.params hd.nodup d.locals.length
    refine (hparams.bind fun _ => (genStmts d.body.stmts hd.body).bind fun _ =>
      (emit .loadNull rfl _ ((stmtsScope d.locals d.body.stmts).length + 1) _).bind fun _ =>
        emit .ret rfl _ 0 _).withGlobals.mono ?_
    rintro _ k p q ⟨rfl, _, _, rfl, _, r, hbody, _, _, ⟨hnull, rfl⟩, hret, rfl⟩ rfl
    exact .mk hd.nodup (fun id hid => hd.globals_le hid) hd.length_locals hbody hnull hret
  unfold ScriptMachine.genFnBody
  dsimp only
  split
  · exact reported hrest.walks _ _ _
  · exact hrest

theorem genFnStore (d : FnDecl) {handle : Handle} {i : SymbolId} (hknown : known handle)
    (hid : d.id = some i) (hi : i < globals) :
    Emits (κ := κ) known globals count [] [] 0 0 (genFnStore d handle) fun _ k p q =>
      ∃ index : UInt8, k.Holds p 0 ⟨.constant, index, 0⟩ ∧
        k.chunk.constants[index.toNat]? = some (.object handle) ∧ k.StoreAt [] (p + 2) 1 i ∧
          k.Holds (p + 4) 1 { opcode := .pop } ∧ q = p + 5 := by
  have hhandle : ∀ h, (Value.object handle).handle? = some h → known h := by
    rintro _ ⟨⟩
    exact hknown
  refine ((emitConstant hhandle d.span 0 1).bind fun _ =>
    (emitStore? hid (.inl hi) 1 1 d.span.start.line).bind fun _ =>
      emit .pop rfl 1 0 d.span.start.line).mono ?_
  rintro _ k p q ⟨_, _, ⟨index, hconstant, hvalue, rfl⟩, _, _, ⟨hstore, rfl⟩, hpop, rfl⟩
  exact ⟨index, hconstant, hvalue, hstore, hpop, rfl⟩

theorem genVarInit {d : VarDecl} {i : SymbolId} (hinit : initScoped globals [] d.init)
    (hid : d.id = some i) (hi : i < globals) :
    Emits (κ := κ) known globals count [] [] 0 0 (genVarInit (.var d)) fun _ k p q =>
      ∃ r, InitAt k [] p 0 d.init r ∧ k.StoreAt [] r 1 i ∧
        k.Holds (r + 2) 1 { opcode := .pop } ∧ q = r + 3 := by
  refine ((genExpr? hinit d.span.start.line 0).bind fun _ =>
    (emitStore? hid (.inl hi) 1 1 d.span.start.line).bind fun _ =>
      emit .pop rfl 1 0 d.span.start.line).mono ?_
  rintro _ k p q ⟨_, r, hinit, _, _, ⟨hstore, rfl⟩, hpop, rfl⟩
  exact ⟨r, hinit, hstore, hpop, rfl⟩

theorem fnStores : ∀ {fns : List (FnDecl × Handle)}, (∀ fn ∈ fns, known fn.2) →
    (∀ fn ∈ fns, ∃ i, fn.1.id = some i ∧ i < globals) →
    Emits (κ := κ) known globals count []
    [] 0 0 (fns.forM fun (d, handle) => ScriptMachine.genFnStore d handle)
      fun _ k p q => FnStoresAt k p fns q
  | [], _, _ => by
    refine (pure ()).heights.mono ?_
    rintro _ k p q ⟨hheight, -, -, rfl⟩
    exact .nil hheight
  | (d, handle) :: fns, hknown, hids => by
    obtain ⟨i, hid, hi⟩ := hids (d, handle) (by simp)
    refine ((genFnStore d (hknown (d, handle) (by simp)) hid hi).bind fun _ =>
      fnStores (fun fn hfn => hknown fn (by simp [hfn]))
        fun fn hfn => hids fn (by simp [hfn])).mono ?_
    rintro _ k p q ⟨_, _, ⟨index, hconstant, hvalue, hstore, hpop, rfl⟩, hfns⟩
    exact .cons hid hconstant hvalue hstore hpop hfns

theorem varInits : ∀ {decls : List Decl}, (∀ d, .var d ∈ decls → initScoped globals [] d.init) →
    (∀ decl ∈ decls, ∃ i, decl.id = some i ∧ i < globals) →
    Emits (κ := κ) known globals count [] [] 0 0 (decls.forM ScriptMachine.genVarInit)
      fun _ k p q => VarInitsAt k p decls q
  | [], _, _ => by
    refine (pure ()).heights.mono ?_
    rintro _ k p q ⟨hheight, -, -, rfl⟩
    exact .nil hheight
  | .fn d :: decls, hinits, hids => by
    have hrest : Emits (κ := κ) known globals count [] [] 0 0 (decls.forM ScriptMachine.genVarInit)
        fun _ k p q => VarInitsAt k p decls q :=
      varInits (fun d hd => hinits d (by simp [hd])) fun decl hdecl => hids decl (by simp [hdecl])
    exact hrest.mono fun h => .fn h
  | .var d :: decls, hinits, hids => by
    obtain ⟨i, hid, hi⟩ := hids (.var d) (by simp)
    refine ((genVarInit (hinits d (by simp)) hid hi).bind fun _ =>
      varInits (fun d hd => hinits d (by simp [hd]))
        fun decl hdecl => hids decl (by simp [hdecl])).mono ?_
    rintro _ k p q ⟨_, _, ⟨r, hinit, hstore, hpop, rfl⟩, hdecls⟩
    exact .var hid hinit hstore hpop hdecls

/-- The call of the main function, if there is one. -/
theorem mainCall {main? : Option SymbolId} (hmain : ∀ i, main? = some i → i < globals)
    (line : Nat) :
    Emits (κ := κ) known globals count [] [] 0 0 (do
      match main? with
      | some id => do
        ScriptMachine.emitLoad id line
        ScriptMachine.emitWith .call 0 line
        ScriptMachine.emit .pop line
      | none => Pure.pure ()) fun _ k p q => MainAt k p main? q := by
  cases main? with
  | some i =>
    refine ((emitLoad (.inl (hmain i rfl)) 0 1 _).bind fun _ => (emitWith .call rfl 0 1 1 _).bind
      fun _ => emit .pop rfl 1 0 _).mono ?_
    rintro _ k p q ⟨_, _, ⟨hload, rfl⟩, _, _, ⟨hcall, rfl⟩, hpop, rfl⟩
    exact .some hload hcall hpop
  | none => exact (pure ()).mono fun ⟨_, hq⟩ => hq ▸ .none

theorem genScript {program : Program} {fns : List (FnDecl × Handle)}
    (hknown : ∀ fn ∈ fns, known fn.2) (hfns : ∀ fn ∈ fns, ∃ i, fn.1.id = some i ∧ i < globals)
    (hids : ∀ decl ∈ program.decls, ∃ i, decl.id = some i ∧ i < globals)
    (hinits : ∀ d, .var d ∈ program.decls → initScoped globals [] d.init)
    (hmain : ∀ i, program.main? = some i → i < globals) :
    Emits (κ := κ) known globals count [] [] 0 0 (genScript program fns) fun _ k p _ =>
      p = 0 → ScriptAt k program fns := by
  have hend : Emits (κ := κ) known globals count [] [] 0 0 (do
      ScriptMachine.emit .loadNull program.endLine
      ScriptMachine.emit .ret program.endLine) _ :=
    (emit .loadNull rfl 0 1 program.endLine).bind fun _ => emit .ret rfl 1 0 program.endLine
  have hcode := bind (fnStores hknown hfns) fun _ => bind (varInits hinits hids) fun _ =>
    (mainCall hmain program.endLine).bind fun _ => hend
  refine congr (fun _ => .genScript program hknown) (fun d _ _ => ?_) (hcode.mono ?_)
  · unfold ScriptMachine.genScript
    cases program.main? <;> rfl
  · rintro _ k p q ⟨_, _, hfns, _, _, hinits, _, _, hmain, _, _, ⟨hnull, rfl⟩, hret, rfl⟩ rfl
    exact .mk hfns hinits hmain hnull hret

end Emits

end ScriptMachine
