import ScriptMachine.Proofs.Codegen.Heights

/-!
# Code assigns only what its source assigns

`Program.assigns` lists the symbols of the names that a program assigns to. The code of
a program stores into the globals that it declares and into these, and into no others:
if they all come from `lo` on, then no global below `lo` is ever stored into
(`FnAt.spares`, `ScriptAt.spares`), whichever way the jumps of the code go.
-/

namespace ScriptMachine

variable {κ : Type}

/-! ## Assignments of a source -/

/-- The symbol of a name, if the expression is one. -/
def Expr.nameId? : Expr → Option SymbolId
  | .name _ id _ => id
  | _ => none

mutual

/-- The symbols of the names that an expression assigns to. -/
def Expr.assigns : Expr → List SymbolId
  | .null _ | .bool _ _ | .number _ _ | .string _ _ | .name _ _ _ => []
  | .unary _ e _ => e.assigns
  | .binary _ left right _ | .logical _ left right _ | .index left right _ =>
    left.assigns ++ right.assigns
  | .assign _ target value _ => target.nameId?.toList ++ (target.assigns ++ value.assigns)
  | .list items _ => exprsAssigns items
  | .call callee args _ => callee.assigns ++ exprsAssigns args
  | .property object _ _ => object.assigns
termination_by structural e => e

def exprsAssigns : List Expr → List SymbolId
  | [] => []
  | e :: es => e.assigns ++ exprsAssigns es
termination_by structural es => es

end

def initAssigns : Option Expr → List SymbolId
  | some e => e.assigns
  | none => []

mutual

/-- The symbols of the names that a statement assigns to. What a declaration gives its
own variable does not count. -/
def Stmt.assigns : Stmt → List SymbolId
  | .block body => blockAssigns body
  | .var d => initAssigns d.init
  | .cond test thenBlock none _ => test.assigns ++ blockAssigns thenBlock
  | .cond test thenBlock (some elseBlock) _ =>
    test.assigns ++ (blockAssigns thenBlock ++ blockAssigns elseBlock)
  | .ret value _ => initAssigns value
  | .print value _ | .expr value _ => value.assigns
termination_by structural s => s

def blockAssigns : Block Stmt → List SymbolId
  | ⟨stmts, _⟩ => stmtsAssigns stmts
termination_by structural b => b

def stmtsAssigns : List Stmt → List SymbolId
  | [] => []
  | s :: ss => s.assigns ++ stmtsAssigns ss
termination_by structural ss => ss

end

theorem blockAssigns_eq (body : Block Stmt) : blockAssigns body = stmtsAssigns body.stmts := by
  cases body
  rw [blockAssigns]

/-- What the second branch of a conditional assigns to. -/
def elseAssigns : Option (Block Stmt) → List SymbolId
  | some body => blockAssigns body
  | none => []

theorem Stmt.assigns_cond (test : Expr) (thenBlock : Block Stmt) (elseBlock : Option (Block Stmt))
    (s : Span) :
    (Stmt.cond test thenBlock elseBlock s).assigns =
      test.assigns ++ (blockAssigns thenBlock ++ elseAssigns elseBlock) := by
  cases elseBlock <;> simp [Stmt.assigns, elseAssigns]

def Decl.assigns : Decl → List SymbolId
  | .fn d => stmtsAssigns d.body.stmts
  | .var d => initAssigns d.init

/-- The symbols of the names that a program assigns to. -/
def Program.assigns (program : Program) : List SymbolId := program.decls.flatMap Decl.assigns

/-! ## Stores of code -/

/-- Code from `p` on that stores into no global below `lo`, whichever way its jumps
go. -/
inductive Chunk.Spares (lo : Nat) (chunk : Chunk) : Nat → Prop
  | intro {p : Nat} {i : Instruction} (h : chunk.fetch p = .instruction i (p + i.length))
      (hglobal : i.opcode = .setGlobal → lo ≤ i.first.toNat)
      (hnext : ∀ q ∈ i.targets p, Spares lo chunk q) : Spares lo chunk p

variable {lo : Nat} {k : Site κ} {Γ Δ : List SymbolId} {p n q m : Nat}

/-- An instruction with one way to go on. -/
theorem Chunk.Spares.step {i : Instruction} (h : k.Holds p n i) (hnext : k.chunk.Spares lo q)
    (htargets : i.targets p = [q]) (hglobal : i.opcode = .setGlobal → lo ≤ i.first.toNat) :
    k.chunk.Spares lo p := by
  refine .intro h.fetch hglobal fun q' hq' => ?_
  rw [htargets, List.mem_singleton] at hq'
  rwa [hq']

/-- A conditional jump, both of whose ways are spared. -/
theorem Chunk.Spares.branch {op : Opcode} {target : Nat}
    (hop : op = .jumpIfFalse ∨ op = .jumpIfTrue) (h : k.Jumps p n op target)
    (hnext : k.chunk.Spares lo (p + 3)) (htarget : k.chunk.Spares lo target) :
    k.chunk.Spares lo p := by
  obtain ⟨first, second, h, rfl⟩ := h
  refine .intro h.fetch (fun hset => ?_) fun q hq => ?_
  · rcases hop with rfl | rfl <;> cases hset
  · have hq' : q = p + 3 ∨ q = p + 3 + Chunk.wordOf first second := by
      rcases hop with rfl | rfl <;> simpa [Instruction.targets, Instruction.length, Opcode.layout,
        Layout.width, Instruction.distance] using hq
    rcases hq' with rfl | rfl
    · exact hnext
    · exact htarget

theorem Site.Jumps.spares {target : Nat} (h : k.Jumps p n .jump target)
    (hnext : k.chunk.Spares lo target) : k.chunk.Spares lo p := by
  obtain ⟨first, second, h, rfl⟩ := h
  exact .step h hnext rfl nofun

theorem Site.Accesses.load_spares {id : SymbolId} (h : k.LoadAt Γ p n id)
    (hnext : k.chunk.Spares lo (p + 2)) : k.chunk.Spares lo p := by
  cases h with
  | global h => exact .step h hnext rfl nofun
  | «local» h => exact .step h hnext rfl nofun

theorem Site.Accesses.store_spares {id : SymbolId} (h : k.StoreAt Γ p n id) (hid : lo ≤ id)
    (hnext : k.chunk.Spares lo (p + 2)) : k.chunk.Spares lo p := by
  cases h with
  | global h hslot => exact .step h hnext rfl fun _ => hslot ▸ hid
  | «local» h => exact .step h hnext rfl nofun

theorem binary_spares {op : BinaryOp} (h : k.Holds p n { opcode := op.opcode })
    (hnext : k.chunk.Spares lo (p + 1)) : k.chunk.Spares lo p := by
  cases op <;> exact .step h hnext rfl nofun

theorem unary_spares {op : UnaryOp} (h : k.Holds p n { opcode := op.opcode })
    (hnext : k.chunk.Spares lo (p + 1)) : k.chunk.Spares lo p := by
  cases op <;> exact .step h hnext rfl nofun

/-! ## Expressions -/

mutual

/-- Code of an expression spares what its assignments spare, if what follows does. -/
theorem ExprAt.spares {k : Site κ} {Γ : List SymbolId} {p n q : Nat} {e : Expr} :
    ExprAt k Γ p n e q → (∀ id ∈ e.assigns, lo ≤ id) → k.chunk.Spares lo q → k.chunk.Spares lo p
  | .null h, _, hnext | .true h, _, hnext | .false h, _, hnext | .number h _, _, hnext =>
    .step h hnext rfl nofun
  | .name h, _, hnext => h.load_spares hnext
  | .unary he h, ha, hnext => he.spares ha (unary_spares h hnext)
  | .binary hleft hright h, ha, hnext =>
    have ⟨hl, hr⟩ := List.forall_mem_append.1 ha
    hleft.spares hl (hright.spares hr (binary_spares h hnext))
  | @ExprAt.logical _ _ _ _ _ _ _ op _ _ _ hleft hjump hpop hright, ha, hnext => by
    obtain ⟨hl, hr⟩ := List.forall_mem_append.1 ha
    have hop : op.opcode = .jumpIfFalse ∨ op.opcode = .jumpIfTrue := by
      cases op
      · exact .inl rfl
      · exact .inr rfl
    exact hleft.spares hl (.branch hop hjump (.step hpop (hright.spares hr hnext) rfl nofun) hnext)
  | .list hitems _ h, ha, hnext => hitems.spares ha (.step h hnext rfl nofun)
  | .index hbase hindex h, ha, hnext =>
    have ⟨hb, hi⟩ := List.forall_mem_append.1 ha
    hbase.spares hb (hindex.spares hi (.step h hnext rfl nofun))
  | .assignName hvalue h, ha, hnext =>
    have ⟨hid, hrest⟩ := List.forall_mem_append.1 ha
    have ⟨ht, hv⟩ := List.forall_mem_append.1 hrest
    hvalue.spares ht hv (h.store_spares (hid _ (.head _)) hnext)
  | .assignIndex hbase hindex hvalue h, ha, hnext =>
    have ⟨_, hrest⟩ := List.forall_mem_append.1 ha
    have ⟨ht, hv⟩ := List.forall_mem_append.1 hrest
    have ⟨hb, hi⟩ := List.forall_mem_append.1 ht
    hbase.spares hb (hindex.spares hi (hvalue.spares ht hv (.step h hnext rfl nofun)))
  | .invoke hobject hargs _ _ h, ha, hnext =>
    have ⟨ho, hs⟩ := List.forall_mem_append.1 ha
    hobject.spares ho (hargs.spares hs (.step h hnext rfl nofun))
  | .call hcallee hargs _ h, ha, hnext =>
    have ⟨hc, hs⟩ := List.forall_mem_append.1 ha
    hcallee.spares hc (hargs.spares hs (.step h hnext rfl nofun))

theorem AssignedAt.spares {k : Site κ} {Γ : List SymbolId} {p n q : Nat} {op : AssignOp}
    {target value : Expr} :
    AssignedAt k Γ p n op target value q → (∀ id ∈ target.assigns, lo ≤ id) →
      (∀ id ∈ value.assigns, lo ≤ id) → k.chunk.Spares lo q → k.chunk.Spares lo p
  | .plain _ hvalue, _, hv, hnext => hvalue.spares hv hnext
  | .compound _ htarget hvalue h, ht, hv, hnext =>
    htarget.spares ht (hvalue.spares hv (binary_spares h hnext))

theorem ExprsAt.spares {k : Site κ} {Γ : List SymbolId} {p n q : Nat} {es : List Expr} :
    ExprsAt k Γ p n es q → (∀ id ∈ exprsAssigns es, lo ≤ id) → k.chunk.Spares lo q →
      k.chunk.Spares lo p
  | .nil, _, hnext => hnext
  | .cons he hes, ha, hnext =>
    have ⟨hhead, htail⟩ := List.forall_mem_append.1 ha
    he.spares hhead (hes.spares htail hnext)

end

theorem InitAt.spares {value : Option Expr} (h : InitAt k Γ p n value q)
    (ha : ∀ id ∈ initAssigns value, lo ≤ id) (hnext : k.chunk.Spares lo q) :
    k.chunk.Spares lo p := by
  cases h with
  | some h => exact h.spares ha hnext
  | none h => exact .step h hnext rfl nofun

/-! ## Statements -/

theorem PopManyAt.spares {count : Nat} (h : PopManyAt k p n count q)
    (hnext : k.chunk.Spares lo q) : k.chunk.Spares lo p := by
  induction h with
  | none => exact hnext
  | many _ _ h _ ih => exact .step h (ih hnext) rfl nofun

theorem PopsAt.spares {count : Nat} (h : PopsAt k p n count q) (hnext : k.chunk.Spares lo q) :
    k.chunk.Spares lo p := by
  cases h with
  | one h => exact .step h hnext rfl nofun
  | many _ h => exact h.spares hnext

/-- Behind a return nothing follows. -/
theorem Site.Holds.ret_spares (h : k.Holds p n { opcode := .ret }) : k.chunk.Spares lo p :=
  .intro h.fetch nofun nofun

mutual

theorem StmtAt.spares {k : Site κ} {Γ Δ : List SymbolId} {p q : Nat} {s : Stmt} :
    StmtAt k Γ p s q Δ → (∀ id ∈ s.assigns, lo ≤ id) → k.chunk.Spares lo q → k.chunk.Spares lo p
  | .block h, ha, hnext => h.spares ha hnext
  | .var _ _ _ h, ha, hnext => h.spares ha hnext
  | .cond htest hjump hpop hthen hskip hpop' helse, ha, hnext => by
    rw [Stmt.assigns_cond] at ha
    obtain ⟨ht, hrest⟩ := List.forall_mem_append.1 ha
    obtain ⟨ht', he⟩ := List.forall_mem_append.1 hrest
    have hskip' := hthen.spares ht' (hskip.spares hnext)
    have helse' := helse.spares he hnext
    exact htest.spares ht (.branch (.inl rfl) hjump (.step hpop hskip' rfl nofun)
      (.step hpop' helse' rfl nofun))
  | .ret hvalue h, ha, _ => hvalue.spares ha h.ret_spares
  | .print hvalue h, ha, hnext | .expr hvalue h, ha, hnext =>
    hvalue.spares ha (.step h hnext rfl nofun)

theorem BlockAt.spares {k : Site κ} {Γ : List SymbolId} {p q : Nat} {body : Block Stmt} :
    BlockAt k Γ p body q → (∀ id ∈ blockAssigns body, lo ≤ id) → k.chunk.Spares lo q →
      k.chunk.Spares lo p
  | .mk hstmts hpops, ha, hnext =>
    hstmts.spares (blockAssigns_eq _ ▸ ha) (hpops.spares hnext)

theorem ElseAt.spares {k : Site κ} {Γ : List SymbolId} {p q : Nat} {body : Option (Block Stmt)} :
    ElseAt k Γ p body q → (∀ id ∈ elseAssigns body, lo ≤ id) → k.chunk.Spares lo q →
      k.chunk.Spares lo p
  | .none, _, hnext => hnext
  | .some h, ha, hnext => h.spares ha hnext

theorem StmtsAt.spares {k : Site κ} {Γ Δ : List SymbolId} {p q : Nat} {ss : List Stmt} :
    StmtsAt k Γ p ss q Δ → (∀ id ∈ stmtsAssigns ss, lo ≤ id) → k.chunk.Spares lo q →
      k.chunk.Spares lo p
  | .nil _, _, hnext => hnext
  | .cons _ hs hss, ha, hnext =>
    have ⟨hhead, htail⟩ := List.forall_mem_append.1 ha
    hs.spares hhead (hss.spares htail hnext)

end

/-! ## Functions and scripts -/

theorem return_spares (hnull : k.Holds p n { opcode := .loadNull })
    (hret : k.Holds (p + 1) m { opcode := .ret }) : k.chunk.Spares lo p :=
  .step hnull hret.ret_spares rfl nofun

theorem FnAt.spares {d : FnDecl} (h : FnAt k d) (ha : ∀ id ∈ stmtsAssigns d.body.stmts, lo ≤ id) :
    k.chunk.Spares lo 0 := by
  obtain ⟨-, -, -, hbody, hnull, hret⟩ := h
  exact hbody.spares ha (return_spares hnull hret)

theorem FnStoresAt.spares {fns : List (FnDecl × Handle)} (h : FnStoresAt k p fns q)
    (hids : ∀ fn ∈ fns, ∀ id, fn.1.id = some id → lo ≤ id) (hnext : k.chunk.Spares lo q) :
    k.chunk.Spares lo p := by
  induction h with
  | nil _ => exact hnext
  | cons hid h _ hstore hpop _ ih =>
    have hrest := ih (fun fn hfn => hids fn (List.mem_cons_of_mem _ hfn)) hnext
    have hlo := hids _ (.head _) _ hid
    exact .step h (hstore.store_spares hlo (.step hpop hrest rfl nofun)) rfl nofun

theorem VarInitsAt.spares {decls : List Decl} (h : VarInitsAt k p decls q)
    (hids : ∀ decl ∈ decls, ∀ id, decl.id = some id → lo ≤ id)
    (ha : ∀ id ∈ decls.flatMap Decl.assigns, lo ≤ id) (hnext : k.chunk.Spares lo q) :
    k.chunk.Spares lo p := by
  induction h with
  | nil _ => exact hnext
  | fn _ ih =>
    have ⟨_, htail⟩ := List.forall_mem_append.1 (List.flatMap_cons ▸ ha)
    exact ih (fun decl hdecl => hids decl (List.mem_cons_of_mem _ hdecl)) htail hnext
  | var hid hinit hstore hpop _ ih =>
    have ⟨hhead, htail⟩ := List.forall_mem_append.1 (List.flatMap_cons ▸ ha)
    have hrest := ih (fun decl hdecl => hids decl (List.mem_cons_of_mem _ hdecl)) htail hnext
    have hlo := hids _ (.head _) _ hid
    exact hinit.spares hhead (hstore.store_spares hlo (.step hpop hrest rfl nofun))

theorem MainAt.spares {id : Option SymbolId} (h : MainAt k p id q) (hnext : k.chunk.Spares lo q) :
    k.chunk.Spares lo p := by
  cases h with
  | none => exact hnext
  | some hload hcall hpop =>
    exact hload.load_spares (.step hcall (.step hpop hnext rfl nofun) rfl nofun)

/-- What a program declares comes behind the names of the host. -/
theorem Program.Scoped.hosts_le {hosts globals count : Nat} {program : Program}
    (h : program.Scoped hosts globals count) {decl : Decl} (hdecl : decl ∈ program.decls)
    {id : SymbolId} (hid : decl.id = some id) : hosts ≤ id := by
  have hmem : some id ∈ (List.range' hosts program.decls.length).map some := by
    rw [← h.ids, ← hid]
    exact List.mem_map_of_mem hdecl
  obtain ⟨i, hi, heq⟩ := List.mem_map.1 hmem
  cases heq
  exact (List.mem_range'_1.1 hi).1

/-- The script stores into the globals that the program declares and assigns to. -/
theorem ScriptAt.spares {hosts globals count : Nat} {program : Program}
    {fns : List (FnDecl × Handle)} (h : ScriptAt k program fns)
    (hfns : fns.map Prod.fst = program.fns) (hscoped : program.Scoped hosts globals count)
    (hlo : lo ≤ hosts) (ha : ∀ id ∈ program.assigns, lo ≤ id) : k.chunk.Spares lo 0 := by
  obtain ⟨hstores, hinits, hmain, hnull, hret⟩ := h
  have hids : ∀ decl ∈ program.decls, ∀ id, decl.id = some id → lo ≤ id := fun decl hdecl id hid =>
    Nat.le_trans hlo (hscoped.hosts_le hdecl hid)
  refine hstores.spares (fun fn hfn => ?_)
    (hinits.spares hids ha (hmain.spares (return_spares hnull hret)))
  have hmem : fn.1 ∈ program.fns := by
    rw [← hfns]
    exact List.mem_map_of_mem hfn
  exact hids (.fn fn.1) (Program.mem_fns.1 hmem)

end ScriptMachine
