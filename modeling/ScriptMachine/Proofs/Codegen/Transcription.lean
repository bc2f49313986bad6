import ScriptMachine.Proofs.Codegen.Writing
import ScriptMachine.Proofs.Scope.Places

/-!
# Generated code spells its listing

Code generation writes the listing of what it generates code for, whatever errors
it reports (`genExpr_computes`, `genStmt_writes`, `genFnBody_writes`,
`genScript_computes`). All it takes is that the names in a program are settled:
each stands for a symbol that has a slot at that place, or for nothing.
-/

namespace ScriptMachine

variable {κ : Type} {Q : CodeFault → Prop}

/-! ## Settled names -/

/-- What is written where a name is used has a slot, or is nothing; only what can be
assigned to is assigned to, unless that may be reported; and what is declared may
become a local. -/
def Place.Settled (σ : Slots) (Q : CodeFault → Prop) : Place → Prop
  | .used _ id _ => σ.Knows id
  | .assigned false _ => Q .badTarget
  | .declared _ _ id _ => σ.Admits Q id
  | _ => True

def Expr.Settled (σ : Slots) (Q : CodeFault → Prop) (e : Expr) : Prop :=
  ∀ p ∈ e.places, p.Settled σ Q

def exprsSettled (σ : Slots) (Q : CodeFault → Prop) (es : List Expr) : Prop :=
  ∀ p ∈ exprsPlaces es, p.Settled σ Q

def initSettled (σ : Slots) (Q : CodeFault → Prop) (value : Option Expr) : Prop :=
  ∀ p ∈ initPlaces value, p.Settled σ Q

mutual

/-- The names in a statement are settled, and what it declares may become a
local. -/
def Stmt.Settled (Q : CodeFault → Prop) : Stmt → Slots → Prop
  | .block body, σ => blockSettled Q body σ
  | .var d, σ => initSettled σ Q d.init ∧ σ.Admits Q d.id
  | .cond test thenBlock none _, σ => test.Settled σ Q ∧ blockSettled Q thenBlock σ
  | .cond test thenBlock (some elseBlock) _, σ =>
    test.Settled σ Q ∧ blockSettled Q thenBlock σ ∧ blockSettled Q elseBlock σ
  | .ret value _, σ => initSettled σ Q value
  | .print value _, σ | .expr value _, σ => value.Settled σ Q
termination_by structural s => s

def blockSettled (Q : CodeFault → Prop) : Block Stmt → Slots → Prop
  | ⟨stmts, _⟩, σ => stmtsSettled Q stmts σ
termination_by structural b => b

def stmtsSettled (Q : CodeFault → Prop) : List Stmt → Slots → Prop
  | [], _ => True
  | s :: ss, σ => s.Settled Q σ ∧ stmtsSettled Q ss (s.slots σ)
termination_by structural ss => ss

end

def paramsSettled (Q : CodeFault → Prop) : List Param → Slots → Prop
  | [], _ => True
  | p :: ps, σ => σ.Admits Q p.id ∧ paramsSettled Q ps (σ.declare p.id)

/-- The names inside a top-level declaration are settled. -/
def Decl.Settled (globals count : Nat) (Q : CodeFault → Prop) : Decl → Prop
  | .fn d => paramsSettled Q d.params ⟨globals, count, []⟩ ∧
    stmtsSettled Q d.body.stmts (d.slots globals count)
  | .var d => initSettled ⟨globals, count, []⟩ Q d.init

/-- All names in a program are settled. -/
structure Program.Settled (globals count : Nat) (Q : CodeFault → Prop) (program : Program) :
    Prop where
  ids : ∀ decl ∈ program.decls, Slots.Knows ⟨globals, count, []⟩ decl.id
  decls : ∀ decl ∈ program.decls, decl.Settled globals count Q

/-! ## Expressions -/

section Expressions

variable {σ : Slots} {d : Draft κ}

theorem genAssigned_computes (op : AssignOp) {old new : Gen κ Unit} {oldListed : List Listed}
    {newListed : Nat → List Listed} {node : Node} {n : Nat} (h : σ.Fits d)
    (hold : ∀ {d : Draft κ}, σ.Fits d → d.Computes Q σ oldListed (old d).2)
    (hnew : ∀ {d : Draft κ} (n : Nat), σ.Fits d → d.Computes Q σ (newListed n) (new d).2) :
    d.Computes Q σ (op.listed oldListed newListed node n)
      (genAssigned op old new node.line d).2 := by
  unfold AssignOp.listed genAssigned
  cases op.binary? with
  | some binary =>
    have hold' := hold h
    have hnew' := hnew (n + 1) hold'.fits
    exact (hold'.append hnew').append (.emit hnew'.fits (by cases binary <;> rfl) node (n + 2))
  | none => exact hnew n h

mutual

/-- The code of an expression spells its listing. -/
theorem genExpr_computes (hQ : Tolerant Q) {σ : Slots} : ∀ (e : Expr), e.Settled σ Q →
    ∀ (n : Nat) {d : Draft κ}, σ.Fits d → d.Computes Q σ (e.listed σ n) (genExpr e d).2
  | .null s, _, n, _, h => .emit h rfl (.expr (.null s)) n
  | .bool true s, _, n, _, h => .emit h rfl (.expr (.bool true s)) n
  | .bool false s, _, n, _, h => .emit h rfl (.expr (.bool false s)) n
  | .number x s, _, n, _, h => .emitConstant h hQ (.number x) rfl n
  | .string text s, _, n, _, h => by
    have hliteral : Q .stringLiteral := hQ _ nofun nofun
    have hreported := Draft.Computes.reportCode h hliteral s
    exact hreported.append (.emitMissing hreported.fits Array.push_ne_empty
      (.expr (.string text s)) n)
  | .name text (some id) s, hsettled, n, _, h =>
    .emitLoad h (hsettled _ (List.mem_singleton_self _)) (.expr (.name text (some id) s)) n
  | .name text none s, _, n, _, h => .emit h rfl (.expr (.name text none s)) n
  | .unary op e s, hsettled, n, _, h => by
    have he := genExpr_computes hQ e hsettled n h
    exact he.append (.emit he.fits (by cases op <;> rfl) (.expr (.unary op e s)) (n + 1))
  | .binary op left right s, hsettled, n, _, h => by
    obtain ⟨hleft, hright⟩ := List.forall_mem_append.1 hsettled
    have hleft' := genExpr_computes hQ left hleft n h
    have hright' := genExpr_computes hQ right hright (n + 1) hleft'.fits
    exact (hleft'.append hright').append
      (.emit hright'.fits (by cases op <;> rfl) (.expr (.binary op left right s)) (n + 2))
  | .logical op left right s, hsettled, n, d, h => by
    obtain ⟨hleft, hright⟩ := List.forall_mem_append.1 hsettled
    have hop : op.opcode.layout = .distance := by cases op <;> rfl
    have hleft' := genExpr_computes hQ left hleft n h
    have hjump := Draft.Computes.emitJump (Q := Q) hleft'.fits hop
      (.expr (.logical op left right s))
      (n + 1)
    have hpop : Draft.Computes Q σ _ [⟨.pop, .none, .expr (.logical op left right s), n + 1⟩] _ :=
      .emit hjump.fits rfl (.expr (.logical op left right s)) (n + 1)
    have hright' := genExpr_computes hQ right hright n hpop.fits
    have hopen := hleft'.append (hjump.append (hpop.append hright'))
    exact hopen.land hop hQ hleft'.size_eq s
  | .list items s, hsettled, n, d, h => by
    obtain ⟨hcount, hoperand⟩ := Draft.Computes.countOperand (Q := Q) h hQ .elements items.length s
    have hitems := exprsListed_computes hQ items hsettled n hcount.fits
    have hstands : Operand.Stands _ _ 0 (.count items.length) :=
      fun he => hoperand (hitems.keeps.exact he)
    exact (hcount.append hitems).append (.emitWith hitems.fits rfl hstands (.expr (.list items s))
      (n + items.length))
  | .index base index s, hsettled, n, _, h => by
    obtain ⟨hbase, hindex⟩ := List.forall_mem_append.1 hsettled
    have hbase' := genExpr_computes hQ base hbase n h
    have hindex' := genExpr_computes hQ index hindex (n + 1) hbase'.fits
    exact (hbase'.append hindex').append
      (.emit hindex'.fits rfl (.expr (.index base index s)) (n + 2))
  | .assign op target value s, hsettled, n, d, h => by
    obtain ⟨hassigned, hplaces⟩ := List.forall_mem_cons.1 hsettled
    obtain ⟨htarget, hvalue⟩ := List.forall_mem_append.1 hplaces
    have hnew : ∀ {d : Draft κ} (n : Nat), σ.Fits d →
        d.Computes Q σ (value.listed σ n) (genExpr value d).2 :=
      fun n h => genExpr_computes hQ value hvalue n h
    have hjoined : ∀ (node : Node) (n : Nat) {d : Draft κ}, σ.Fits d →
        d.Computes Q σ (op.listed (target.listed σ n) (value.listed σ) node n)
          (genAssigned op (genExpr target) (genExpr value) node.line d).2 :=
      fun node n _ h =>
        genAssigned_computes op h (fun h => genExpr_computes hQ target htarget n h) hnew
    have hother : target.isAssignable = false → d.Computes Q σ
        ((Expr.assign op target value s).listed σ n) (genExpr (.assign op target value s) d).2 := by
      intro hfalse
      rw [hfalse] at hassigned
      have hbad : Q .badTarget := hassigned
      have hreported := Draft.Computes.reportCode h hbad target.span
      have hrest := hreported.append (hjoined (.expr (.assign op target value s)) n hreported.fits)
      cases target <;> first | exact hrest | cases hfalse
    cases target with
    | name text id t =>
      let node : Node := .expr (.assign op (.name text id t) value s)
      have hjoined' := hjoined node n h
      exact hjoined'.append
        (.emitStore? hjoined'.fits (htarget _ (List.mem_singleton_self _)) node (n + 1))
    | index base index t =>
      let node : Node := .expr (.assign op (.index base index t) value s)
      obtain ⟨hbase, hindex⟩ := List.forall_mem_append.1 htarget
      have hbase' := genExpr_computes hQ base hbase n h
      have hindex' := genExpr_computes hQ index hindex (n + 1) hbase'.fits
      have hjoined' := hjoined node (n + 2) hindex'.fits
      exact ((hbase'.append hindex').append hjoined').append (.emit hjoined'.fits rfl node (n + 3))
    | _ => exact hother rfl
  | .call callee args s, hsettled, n, d, h => by
    obtain ⟨hcallee, hargs⟩ := List.forall_mem_append.1 hsettled
    obtain ⟨hcount, hoperand⟩ := Draft.Computes.countOperand (Q := Q) h hQ .arguments args.length s
    cases callee with
    | property object name t =>
      have hobject := genExpr_computes hQ object hcallee n hcount.fits
      have hargs' := exprsListed_computes hQ args hargs (n + 1) hobject.fits
      obtain ⟨hmethod, hname⟩ := Draft.Computes.methodConstant (Q := Q) hargs'.fits hQ name t
      have hstands : Operand.Stands _ _ _ (.method name args.length) :=
        fun he => ⟨hoperand ((hobject.append (hargs'.append hmethod)).keeps.exact he), hname he⟩
      exact ((hcount.append hobject).append hargs').append (hmethod.append (.emitInvoke hmethod.fits
        hstands (.expr (.call (.property object name t) args s)) (n + 1 + args.length)))
    | _ =>
      have hcallee' := genExpr_computes hQ _ hcallee n hcount.fits
      have hargs' := exprsListed_computes hQ args hargs (n + 1) hcallee'.fits
      have hstands : Operand.Stands _ _ 0 (.count args.length) :=
        fun he => hoperand ((hcallee'.append hargs').keeps.exact he)
      exact ((hcount.append hcallee').append hargs').append (.emitWith hargs'.fits rfl hstands
        (.expr (.call _ args s)) (n + 1 + args.length))
  | .property object name s, _, n, _, h => by
    have hproperty : Q .propertyAccess := hQ _ nofun nofun
    have hreported := Draft.Computes.reportCode h hproperty s
    exact hreported.append
      (.emitMissing hreported.fits Array.push_ne_empty (.expr (.property object name s)) n)
termination_by structural e => e

theorem exprsListed_computes (hQ : Tolerant Q) {σ : Slots} : ∀ (es : List Expr),
    exprsSettled σ Q es → ∀ (n : Nat) {d : Draft κ}, σ.Fits d →
      d.Computes Q σ (exprsListed σ es n) (genExprs es d).2
  | [], _, _, _, h => .nil h
  | e :: es, hsettled, n, _, h => by
    obtain ⟨he, hes⟩ := List.forall_mem_append.1 hsettled
    have he' := genExpr_computes hQ e he n h
    exact he'.append (exprsListed_computes hQ es hes (n + 1) he'.fits)
termination_by structural es => es

end

theorem genExpr?_computes (hQ : Tolerant Q) {value : Option Expr} (hvalue : initSettled σ Q value)
    (h : σ.Fits d) (node : Node) :
    d.Computes Q σ (initListed σ value node) (genExpr? value node.line d).2 := by
  cases value with
  | some e => exact genExpr_computes hQ e hvalue σ.height h
  | none => exact .emit h rfl node σ.height

end Expressions

/-! ## Statements -/

mutual

/-- The symbols that get slots in a statement, with `n` slots taken before. -/
def Stmt.slotted : Stmt → Nat → List (SymbolId × Nat)
  | .block body, n => blockSlotted body n
  | .var d, n => d.id.toList.map (·, n)
  | .cond _ thenBlock none _, n => blockSlotted thenBlock n
  | .cond _ thenBlock (some elseBlock) _, n => blockSlotted thenBlock n ++ blockSlotted elseBlock n
  | .ret _ _, _ | .print _ _, _ | .expr _ _, _ => []
termination_by structural s => s

def blockSlotted : Block Stmt → Nat → List (SymbolId × Nat)
  | ⟨stmts, _⟩, n => stmtsSlotted stmts n
termination_by structural b => b

def stmtsSlotted : List Stmt → Nat → List (SymbolId × Nat)
  | [], _ => []
  | s :: ss, n => s.slotted n ++ stmtsSlotted ss (n + s.declares)
termination_by structural ss => ss

end

theorem exists_stmtsSlots_eq (σ : Slots) (stmts : List Stmt) :
    ∃ Δ, stmtsSlots σ stmts = { σ with locals := σ.locals ++ Δ } := by
  induction stmts generalizing σ with
  | nil => exact ⟨[], by simp [stmtsSlots]⟩
  | cons s ss ih =>
    obtain ⟨Δ, hΔ⟩ := ih (s.slots σ)
    have hs : ∃ Θ, s.slots σ = { σ with locals := σ.locals ++ Θ } := by
      cases s with
      | var d => exact ⟨[d.id], rfl⟩
      | _ => exact ⟨[], by simp [Stmt.slots]⟩
    obtain ⟨Θ, hΘ⟩ := hs
    exact ⟨Θ ++ Δ, by rw [stmtsSlots, List.foldl_cons, ← stmtsSlots, hΔ, hΘ, List.append_assoc]⟩

theorem height_slots (σ : Slots) (s : Stmt) : (s.slots σ).height = σ.height + s.declares := by
  cases s with
  | var d => exact height_declare σ d.id
  | _ => rfl

section Statements

variable {σ : Slots} {d d' : Draft κ} {A A' : List (SymbolId × Nat)} {L L' : List Listed}

/-- The slots of a block are free again behind it. -/
theorem Slots.Fits.leave {Δ : List (Option SymbolId)}
    (h : Slots.Fits { σ with locals := σ.locals ++ Δ } d) :
    σ.Fits { d with height := σ.height } := by
  refine ⟨h.wf, h.pool, h.size, rfl, h.globalSlot, h.localKind, fun hslot hid => ?_⟩
  have hlt := (List.getElem?_eq_some_iff.1 hslot).1
  exact h.localSlot ((List.getElem?_append_left hlt).trans hslot) hid

theorem declareSlot_writes {id : Option SymbolId} (hid : σ.Admits Q id) (h : σ.Fits d)
    (span : Span) :
    d.Writes Q (σ.declare id) (id.toList.map (·, σ.height)) [] (declareSlot id span d).2 := by
  have hsilent : ∀ {d' : Draft κ}, d'.chunk = d.chunk → d.backing.Keeps d'.backing →
      (∀ e ∈ d'.errors, e ∈ d.errors ∨ Q e.fault) →
      d'.symbols = d.symbols.assign (id.toList.map (·, σ.height)) → (σ.declare id).Fits d' →
      d.Writes Q (σ.declare id) (id.toList.map (·, σ.height)) [] d' := fun hchunk hkeeps herrors
        hsymbols hfits => ⟨⟨[], by rw [hchunk, List.append_nil], .nil⟩,
          by rw [hchunk]; exact (List.append_nil _).symm, hkeeps, herrors, hsymbols, hfits⟩
  have hsame : d.backing.Keeps d.backing := ⟨fun hvalue => hvalue, .refl h.wf, fun he => he⟩
  cases id with
  | none => exact hsilent rfl hsame (fun e he => .inl he) rfl h.declare_none
  | some i =>
    have hfits := h.declare hid
    by_cases hfull : d.height = maxSlots
    · have hreported := Draft.Computes.reportCode h (hid.room (h.height ▸ hfull)) span
      have hgen : (declareSlot (some i) span d).2 =
          { (reportCode .tooManyLocals span d).2 with
            symbols := d.symbols.setSlot i d.height, height := d.height + 1 } := by
        simp only [declareSlot, gen_bind]
        rw [gen_get, if_pos hfull]
        rfl
      rw [hgen]
      exact hsilent rfl hreported.keeps hreported.faults (by rw [h.height]; rfl)
        (hfits.withErrors (reportCode .tooManyLocals span d).2.errors)
    · have hgen : (declareSlot (some i) span d).2 =
          { d with symbols := d.symbols.setSlot i d.height, height := d.height + 1 } := by
        simp only [declareSlot, gen_bind]
        rw [gen_get, if_neg hfull]
        rfl
      rw [hgen]
      exact hsilent rfl hsame (fun e he => .inl he) (by rw [h.height]; rfl) hfits

theorem genInBlock_writes {body : Gen κ Unit} {stmts : List Stmt} (node : Node) (h : σ.Fits d)
    (hbody : d.Writes Q (stmtsSlots σ stmts) A L (body d).2) :
    d.Writes Q σ A (L ++ popsListed (declaresOf stmts) node σ.height)
      (genInBlock body node.line d).2 := by
  have hcount : (body d).2.height - d.height = declaresOf stmts := by
    rw [hbody.fits.height, height_stmtsSlots, h.height]
    omega
  have hpops := Draft.Computes.emitPops (Q := Q) hbody.fits (declaresOf stmts) node σ.height
  have hcode := hbody.append hpops
  have hgen : (genInBlock body node.line d).2 =
      { (emitPops (declaresOf stmts) node.line (body d).2).2 with height := σ.height } := by
    rw [← hcount, ← h.height]
    rfl
  obtain ⟨Δ, hΔ⟩ := exists_stmtsSlots_eq σ stmts
  have hfits := hcode.fits
  rw [hΔ] at hfits
  rw [hgen]
  exact ⟨hcode.code, hcode.lines, hcode.keeps, hcode.faults,
    hcode.symbols.trans (by rw [List.append_nil]), hfits.leave⟩

theorem genCond_writes (hQ : Tolerant Q) {test thenCode elseCode : Gen κ Unit} {T : List Listed}
    (node : Node) {s : Span} (hnode : node.line = s.start.line) (h : σ.Fits d)
    (htest : ∀ {d : Draft κ}, σ.Fits d → d.Computes Q σ T (test d).2)
    (hthen : ∀ {d : Draft κ}, σ.Fits d → d.Writes Q σ A L (thenCode d).2)
    (helse : ∀ {d : Draft κ}, σ.Fits d → d.Writes Q σ A' L' (elseCode d).2) :
    d.Writes Q σ (A ++ A') (condListed T L L' node σ.height)
    (genCond test thenCode elseCode s d).2 := by
  have htest' := htest h
  have htoElse : Draft.Computes Q σ _ [⟨.jumpIfFalse, .pending, node, σ.height + 1⟩] _ :=
    .emitJump htest'.fits rfl node (σ.height + 1)
  have hpop : Draft.Computes Q σ _ [⟨.pop, .none, node, σ.height + 1⟩] _ :=
    .emit htoElse.fits rfl node (σ.height + 1)
  have hthen' := hthen hpop.fits
  have htoEnd : Draft.Computes Q σ _ [⟨.jump, .pending, node, σ.height⟩] _ :=
    .emitJump hthen'.fits rfl node σ.height
  have hfront := htest'.append (htoElse.append hpop)
  -- The first jump lands behind the second one, which is still open.
  have hopen := Draft.Writes.append hfront (hthen'.append htoEnd)
  rw [List.append_assoc] at hopen
  have hlanded := hopen.land rfl hQ htest'.size_eq s
  have hpop' : Draft.Computes Q σ _ [⟨.pop, .none, node, σ.height + 1⟩] _ :=
    .emit hlanded.fits rfl node (σ.height + 1)
  have hrest := Draft.Writes.append hlanded (Draft.Writes.append hpop' (helse hpop'.fits))
  let pop : Listed := ⟨.pop, .none, node, σ.height + 1⟩
  let toElse : Listed := ⟨.jumpIfFalse, .distance (codeLength (pop :: (L ++
    [⟨.jump, .pending, node, σ.height⟩]))), node, σ.height + 1⟩
  have hsplit : ∀ operand : Operand,
      T ++ toElse :: (pop :: (L ++ [⟨.jump, operand, node, σ.height⟩])) ++ pop :: L' =
        (T ++ toElse :: pop :: L) ++ ⟨.jump, operand, node, σ.height⟩ :: pop :: L' := by
    intro operand
    simp
  have hoffset := (Draft.Writes.append hfront hthen').size_eq
  have hfront' : codeLength (T ++ ([⟨.jumpIfFalse, .pending, node, σ.height + 1⟩] ++ [pop]) ++ L) =
      codeLength (T ++ toElse :: pop :: L) := by
    simp [codeLength, Listed.size, toElse]
  have hcond := Draft.Writes.land (hsplit .pending ▸ hrest) rfl hQ
    (hoffset.trans (by rw [hfront'])) s
  have hlisted : condListed T L L' node σ.height = (T ++ toElse :: pop :: L) ++
      ⟨.jump, .distance (codeLength (pop :: L')), node, σ.height⟩ :: pop :: L' := by
    simp [condListed, codeLength, Listed.size, toElse, pop]
  simp only [hnode, List.nil_append, List.append_nil] at hcond
  rw [hlisted]
  exact hcond

end Statements

mutual

/-- The code of a statement spells its listing. -/
theorem genStmt_writes (hQ : Tolerant Q) : ∀ (s : Stmt) {σ : Slots} {d : Draft κ},
    s.Settled Q σ → σ.Fits d →
      d.Writes Q (s.slots σ) (s.slotted σ.height) (s.listed σ) (genStmt s d).2
  | .block body, _, _, hsettled, h => genBlock_writes hQ body hsettled h
  | .var decl, σ, d, ⟨hinit, hid⟩, h => by
    have hvalue := genExpr?_computes hQ hinit h (.stmt (.var decl))
    have hdeclared := Draft.Writes.append hvalue (declareSlot_writes hid hvalue.fits decl.nameSpan)
    rwa [List.append_nil] at hdeclared
  | .cond test thenBlock none s, σ, d, ⟨htest, hthen⟩, h => by
    have hnone : ∀ {d : Draft κ}, σ.Fits d → d.Writes Q σ [] [] ((pure () : Gen κ Unit) d).2 :=
      fun h => Draft.Computes.nil h
    have hcond := genCond_writes hQ (.stmt (.cond test thenBlock none s)) rfl h
      (fun h => genExpr_computes hQ test htest σ.height h)
      (fun h => genBlock_writes hQ thenBlock hthen h) hnone
    rwa [List.append_nil] at hcond
  | .cond test thenBlock (some elseBlock) s, σ, d, ⟨htest, hthen, helse⟩, h =>
    genCond_writes hQ (.stmt (.cond test thenBlock (some elseBlock) s)) rfl h
      (fun h => genExpr_computes hQ test htest σ.height h)
        (fun h => genBlock_writes hQ thenBlock hthen h)
      (fun h => genBlock_writes hQ elseBlock helse h)
  | .ret value s, σ, d, hsettled, h => by
    have hvalue := genExpr?_computes hQ hsettled h (.stmt (.ret value s))
    exact hvalue.append (.emit hvalue.fits rfl (.stmt (.ret value s)) (σ.height + 1))
  | .print value s, σ, d, hsettled, h => by
    have hvalue := genExpr_computes hQ value hsettled σ.height h
    exact hvalue.append (.emit hvalue.fits rfl (.stmt (.print value s)) (σ.height + 1))
  | .expr value s, σ, d, hsettled, h => by
    have hvalue := genExpr_computes hQ value hsettled σ.height h
    exact hvalue.append (.emit hvalue.fits rfl (.stmt (.expr value s)) (σ.height + 1))
termination_by structural s => s

theorem genBlock_writes (hQ : Tolerant Q) : ∀ (body : Block Stmt) {σ : Slots} {d : Draft κ},
    blockSettled Q body σ → σ.Fits d →
      d.Writes Q σ (blockSlotted body σ.height) (blockListed body σ) (genBlock body d).2
  | ⟨stmts, s⟩, _, _, hsettled, h =>
    genInBlock_writes (.blockEnd ⟨stmts, s⟩) h (genStmts_writes hQ stmts hsettled h)
termination_by structural b => b

theorem genStmts_writes (hQ : Tolerant Q) : ∀ (stmts : List Stmt) {σ : Slots} {d : Draft κ},
    stmtsSettled Q stmts σ → σ.Fits d →
      d.Writes Q (stmtsSlots σ stmts) (stmtsSlotted stmts σ.height) (stmtsListed stmts σ)
        (genStmts stmts d).2
  | [], _, _, _, h => Draft.Computes.nil h
  | s :: ss, σ, _, ⟨hs, hss⟩, h => by
    have hs' := genStmt_writes hQ s hs h
    have hss' := genStmts_writes hQ ss hss hs'.fits
    rw [height_slots] at hss'
    exact hs'.append hss'
termination_by structural ss => ss

end

end ScriptMachine
