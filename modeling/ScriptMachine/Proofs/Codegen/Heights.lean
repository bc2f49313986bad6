import ScriptMachine.Proofs.Codegen.Layout

/-!
# The heights of the stack in generated code

Every instruction takes a certain number of values off the stack and puts some
on it. `Site.Runs k p n` says that code which starts at `p` on a stack of height
`n` always finds enough values there, names only what exists, and never runs off
its end, whichever way its jumps go. Code that has the layout of a source runs so
(`FnAt.runs`, `ScriptAt.runs`): the proofs go backwards through the code, from
what follows a piece to the piece itself.
-/

namespace ScriptMachine

variable {κ : Type}

namespace Instruction

/-- How many values an instruction takes off the stack. What it looks at and
leaves there counts as taken off and put back. -/
def pops (i : Instruction) : Nat :=
  match i.opcode with
  | .constant | .loadNull | .loadTrue | .loadFalse | .getLocal | .getGlobal | .jump => 0
  | .pop | .setLocal | .setGlobal | .negate | .invert | .jumpIfFalse | .jumpIfTrue | .ret
  | .print => 1
  | .add | .sub | .mul | .div | .floorDiv | .mod | .equal | .notEqual | .less | .lessEqual
  | .greater | .greaterEqual | .getIndex => 2
  | .setIndex => 3
  | .popN | .makeList => i.first.toNat
  | .call => i.first.toNat + 1
  | .invoke => i.second.toNat + 1

/-- How many values an instruction puts on the stack. For a call this is the
result that is there once it has returned. -/
def pushes (i : Instruction) : Nat :=
  match i.opcode with
  | .pop | .popN | .jump | .ret | .print => 0
  | _ => 1

/-- Where the function goes on behind an instruction at `p`. -/
def targets (i : Instruction) (p : Nat) : List Nat :=
  match i.opcode with
  | .ret => []
  | .jump => [p + i.length + i.distance]
  | .jumpIfFalse | .jumpIfTrue => [p + i.length, p + i.length + i.distance]
  | _ => [p + i.length]

/-- What an instruction names is there, on a stack of height `n`. -/
def OperandOk (k : Site κ) (n : Nat) (i : Instruction) : Prop :=
  match i.opcode with
  | .constant => ∃ value, k.chunk.constants[i.first.toNat]? = some value
  | .getLocal | .setLocal => i.first.toNat < n
  | .getGlobal | .setGlobal => i.first.toNat < k.globals
  | .invoke => ∃ name, k.Names i.first name
  | _ => True

theorem pops_makeList (count : UInt8) : pops ⟨.makeList, count, 0⟩ = count.toNat := rfl

theorem pops_call (count : UInt8) : pops ⟨.call, count, 0⟩ = count.toNat + 1 := rfl

theorem pops_invoke (index count : UInt8) : pops ⟨.invoke, index, count⟩ = count.toNat + 1 := rfl

theorem pops_popN (count : UInt8) : pops ⟨.popN, count, 0⟩ = count.toNat := rfl

end Instruction

/-- Code from `p` on that is safe on a stack of height `n`. -/
inductive Site.Runs (k : Site κ) : Nat → Nat → Prop
  | intro {p n : Nat} {i : Instruction} (h : k.Holds p n i) (hpops : i.pops ≤ n)
      (hoperand : i.OperandOk k n)
      (hnext : ∀ q ∈ i.targets p, Runs k q (n - i.pops + i.pushes)) : Runs k p n

variable {k : Site κ} {Γ Δ : List SymbolId} {p n q m : Nat}

/-- The height is the one the site has there. -/
theorem Site.Runs.height (h : k.Runs p n) : k.height p = n := by
  cases h with
  | intro h => exact h.height

/-- An instruction with one way to go on. -/
theorem Site.Runs.step {i : Instruction} (h : k.Holds p n i) (hnext : k.Runs q m)
    (htargets : i.targets p = [q]) (hpops : i.pops ≤ n) (hm : n - i.pops + i.pushes = m)
    (hoperand : i.OperandOk k n) : k.Runs p n := by
  refine .intro h hpops hoperand fun q' hq' => ?_
  rw [htargets, List.mem_singleton] at hq'
  rw [hq', hm]
  exact hnext

/-- A conditional jump, on whose condition both ways are safe. -/
theorem Site.Runs.branch {op : Opcode} {target : Nat} (hop : op = .jumpIfFalse ∨ op = .jumpIfTrue)
    (h : k.Jumps p (n + 1) op target) (hnext : k.Runs (p + 3) (n + 1))
    (htarget : k.Runs target (n + 1)) : k.Runs p (n + 1) := by
  obtain ⟨first, second, h, rfl⟩ := h
  refine .intro h ?_ ?_ fun q hq => ?_
  · rcases hop with rfl | rfl <;> exact Nat.le_add_left _ _
  · rcases hop with rfl | rfl <;> exact trivial
  · have hq' : q = p + 3 ∨ q = p + 3 + Chunk.wordOf first second := by
      rcases hop with rfl | rfl <;> simpa [Instruction.targets, Instruction.length, Opcode.layout,
        Layout.width, Instruction.distance] using hq
    rcases hop with rfl | rfl <;> rcases hq' with rfl | rfl
    · exact hnext
    · exact htarget
    · exact hnext
    · exact htarget

theorem Site.Jumps.runs {target : Nat} (h : k.Jumps p n .jump target) (hnext : k.Runs target n) :
    k.Runs p n := by
  obtain ⟨first, second, h, rfl⟩ := h
  exact .step h hnext rfl (Nat.zero_le _) rfl trivial

/-! ## Expressions -/

theorem Site.Accesses.load_runs {id : SymbolId} (h : k.LoadAt Γ p n id) (hn : Γ.length ≤ n)
    (hnext : k.Runs (p + 2) (n + 1)) : k.Runs p n := by
  cases h with
  | global h hslot hid => exact .step h hnext rfl (Nat.zero_le _) rfl (by rwa [← hslot] at hid)
  | «local» h hslot =>
    have hlt := (List.getElem?_eq_some_iff.1 hslot).1
    exact .step h hnext rfl (Nat.zero_le _) rfl (Nat.lt_of_lt_of_le hlt hn)

theorem Site.Accesses.store_runs {id : SymbolId} (h : k.StoreAt Γ p (n + 1) id)
    (hn : Γ.length ≤ n) (hnext : k.Runs (p + 2) (n + 1)) : k.Runs p (n + 1) := by
  cases h with
  | global h hslot hid =>
    exact .step h hnext rfl (Nat.le_add_left _ _) rfl (by rwa [← hslot] at hid)
  | «local» h hslot =>
    have hlt := (List.getElem?_eq_some_iff.1 hslot).1
    have hslot' := Nat.lt_succ_of_lt (Nat.lt_of_lt_of_le hlt hn)
    exact .step h hnext rfl (Nat.le_add_left _ _) rfl hslot'

theorem binary_runs {op : BinaryOp} (h : k.Holds p (n + 2) { opcode := op.opcode })
    (hnext : k.Runs (p + 1) (n + 1)) : k.Runs p (n + 2) := by
  cases op <;> exact .step h hnext rfl (Nat.le_add_left _ _) rfl trivial

theorem unary_runs {op : UnaryOp} (h : k.Holds p (n + 1) { opcode := op.opcode })
    (hnext : k.Runs (p + 1) (n + 1)) : k.Runs p (n + 1) := by
  cases op <;> exact .step h hnext rfl (Nat.le_add_left _ _) rfl trivial

mutual

/-- Code of an expression is safe if what follows is safe with one value more. -/
theorem ExprAt.runs {k : Site κ} {Γ : List SymbolId} {p n q : Nat} {e : Expr} :
    ExprAt k Γ p n e q → Γ.length ≤ n → k.Runs q (n + 1) → k.Runs p n
  | .null h, _, hnext | .true h, _, hnext | .false h, _, hnext =>
    .step h hnext rfl (Nat.zero_le _) rfl trivial
  | .number h hconstant, _, hnext => .step h hnext rfl (Nat.zero_le _) rfl ⟨_, hconstant⟩
  | .name h, hn, hnext => h.load_runs hn hnext
  | .unary he h, hn, hnext => he.runs hn (unary_runs h hnext)
  | .binary hleft hright h, hn, hnext =>
    hleft.runs hn (hright.runs (Nat.le_succ_of_le hn) (binary_runs h hnext))
  | @ExprAt.logical _ _ _ _ _ _ _ op _ _ _ hleft hjump hpop hright, hn, hnext => by
    have hop : op.opcode = .jumpIfFalse ∨ op.opcode = .jumpIfTrue := by
      cases op
      · exact .inl rfl
      · exact .inr rfl
    have hrest := hright.runs hn hnext
    exact hleft.runs hn (.branch hop hjump (.step hpop hrest rfl (Nat.le_add_left _ _) rfl trivial)
      hnext)
  | .list hitems hcount h, hn, hnext => by
    refine hitems.runs hn (.step h hnext rfl ?_ ?_ trivial)
    · rw [Instruction.pops_makeList, hcount]
      exact Nat.le_add_left _ _
    · rw [Instruction.pops_makeList, hcount, Nat.add_sub_cancel]
      rfl
  | .index hbase hindex h, hn, hnext =>
    hbase.runs hn (hindex.runs (Nat.le_succ_of_le hn)
      (.step h hnext rfl (Nat.le_add_left _ _) rfl trivial))
  | .assignName hvalue h, hn, hnext => hvalue.runs hn (h.store_runs hn hnext)
  | .assignIndex hbase hindex hvalue h, hn, hnext =>
    hbase.runs hn (hindex.runs (Nat.le_succ_of_le hn) (hvalue.runs (Nat.le_add_right_of_le hn)
      (.step h hnext rfl (Nat.le_add_left _ _) rfl trivial)))
  | .invoke hobject hargs hcount hname h, hn, hnext => by
    refine hobject.runs hn (hargs.runs (Nat.le_succ_of_le hn) (.step h hnext rfl ?_ ?_ ⟨_, hname⟩))
    · rw [Instruction.pops_invoke, hcount]
      omega
    · rw [Instruction.pops_invoke, hcount]
      show n + 1 + _ - _ + 1 = n + 1
      omega
  | .call hcallee hargs hcount h, hn, hnext => by
    refine hcallee.runs hn (hargs.runs (Nat.le_succ_of_le hn) (.step h hnext rfl ?_ ?_ trivial))
    · rw [Instruction.pops_call, hcount]
      omega
    · rw [Instruction.pops_call, hcount]
      show n + 1 + _ - _ + 1 = n + 1
      omega

theorem AssignedAt.runs {k : Site κ} {Γ : List SymbolId} {p n q : Nat} {op : AssignOp}
    {target value : Expr} :
    AssignedAt k Γ p n op target value q → Γ.length ≤ n → k.Runs q (n + 1) → k.Runs p n
  | .plain _ hvalue, hn, hnext => hvalue.runs hn hnext
  | .compound _ htarget hvalue h, hn, hnext =>
    htarget.runs hn (hvalue.runs (Nat.le_succ_of_le hn) (binary_runs h hnext))

theorem ExprsAt.runs {k : Site κ} {Γ : List SymbolId} {p n q : Nat} {es : List Expr} :
    ExprsAt k Γ p n es q → Γ.length ≤ n → k.Runs q (n + es.length) → k.Runs p n
  | .nil, _, hnext => hnext
  | .cons he hes, hn, hnext =>
    he.runs hn (hes.runs (Nat.le_succ_of_le hn) (by rwa [List.length_cons, ← Nat.add_assoc,
      Nat.add_right_comm] at hnext))

end

theorem InitAt.runs {value : Option Expr} (h : InitAt k Γ p n value q) (hn : Γ.length ≤ n)
    (hnext : k.Runs q (n + 1)) : k.Runs p n := by
  cases h with
  | some h => exact h.runs hn hnext
  | none h => exact .step h hnext rfl (Nat.zero_le _) rfl trivial

/-! ## Statements -/

theorem PopManyAt.runs {count : Nat} (h : PopManyAt k p n count q) (hnext : k.Runs q (n - count)) :
    k.Runs p n ∧ count ≤ n := by
  induction h with
  | none => exact ⟨hnext, Nat.zero_le _⟩
  | @many p n q count batch hpos hbatch h hrest ih =>
    have hmin : batch.toNat ≤ count ∧ count - maxCount = count - batch.toNat := by
      rw [hbatch]
      omega
    obtain ⟨hruns, hle⟩ := ih
      (by rwa [show n - (count - maxCount) = n + batch.toNat - count by omega])
    refine ⟨.step h hruns rfl ?_ ?_ trivial, by omega⟩
    · rw [Instruction.pops_popN]
      exact Nat.le_add_left _ _
    · rw [Instruction.pops_popN, Nat.add_sub_cancel]
      rfl

theorem PopsAt.runs {count : Nat} (h : PopsAt k p (n + count) count q) (hnext : k.Runs q n) :
    k.Runs p (n + count) := by
  generalize hm : n + count = m at h
  cases h with
  | one h =>
    obtain rfl : n = _ := Nat.succ.inj hm
    exact .step h hnext rfl (Nat.le_add_left _ _) rfl trivial
  | many hcount h =>
    exact (h.runs (by rwa [← hm, Nat.add_sub_cancel])).1

mutual

/-- Code of a statement is safe if what follows is safe with the locals that are
live then. -/
theorem StmtAt.runs {k : Site κ} {Γ Δ : List SymbolId} {p q : Nat} {s : Stmt} :
    StmtAt k Γ p s q Δ → k.Runs q Δ.length → k.Runs p Γ.length
  | .block h, hnext => h.runs hnext
  | .var _ _ _ h, hnext => h.runs (Nat.le_refl _) (by simpa using hnext)
  | .cond htest hjump hpop hthen hskip hpop' helse, hnext => by
    have hskip' := hskip.runs hnext
    have hthen' := Site.Runs.step hpop (hthen.runs hskip') rfl (Nat.le_add_left _ _) rfl trivial
    have helse' := Site.Runs.step hpop' (helse.runs hnext) rfl (Nat.le_add_left _ _) rfl trivial
    exact htest.runs (Nat.le_refl _) (.branch (.inl rfl) hjump hthen' helse')
  | .ret hvalue h, _ =>
    hvalue.runs (Nat.le_refl _)
      (.intro h (Nat.le_add_left _ _) trivial (by simp [Instruction.targets]))
  | .print hvalue h, hnext | .expr hvalue h, hnext =>
    hvalue.runs (Nat.le_refl _) (.step h hnext rfl (Nat.le_add_left _ _) rfl trivial)

theorem BlockAt.runs {k : Site κ} {Γ : List SymbolId} {p q : Nat} {body : Block Stmt} :
    BlockAt k Γ p body q → k.Runs q Γ.length → k.Runs p Γ.length
  | .mk hstmts hpops, hnext => hstmts.runs (by
      rw [List.length_append]
      exact hpops.runs hnext)

theorem ElseAt.runs {k : Site κ} {Γ : List SymbolId} {p q : Nat} {body : Option (Block Stmt)} :
    ElseAt k Γ p body q → k.Runs q Γ.length → k.Runs p Γ.length
  | .none, hnext => hnext
  | .some h, hnext => h.runs hnext

theorem StmtsAt.runs {k : Site κ} {Γ Δ : List SymbolId} {p q : Nat} {ss : List Stmt} :
    StmtsAt k Γ p ss q Δ → k.Runs q Δ.length → k.Runs p Γ.length
  | .nil _, hnext => hnext
  | .cons _ hs hss, hnext => hs.runs (hss.runs hnext)

end

/-! ## Functions and scripts -/

/-- The end of a function, where it returns null. -/
theorem return_runs (hnull : k.Holds p n { opcode := .loadNull })
    (hret : k.Holds (p + 1) (n + 1) { opcode := .ret }) : k.Runs p n := by
  have hend : k.Runs (p + 1) (n + 1) :=
    .intro hret (Nat.le_add_left _ _) trivial (by simp [Instruction.targets])
  exact .step hnull hend rfl (Nat.zero_le _) rfl trivial

/-- A function is safe on a stack that holds its arguments. -/
theorem FnAt.runs {d : FnDecl} (h : FnAt k d) : k.Runs 0 d.params.length := by
  obtain ⟨-, -, harity, hbody, hnull, hret⟩ := h
  rw [← harity]
  exact hbody.runs (return_runs hnull hret)

theorem FnAt.height_of_boundary {d : FnDecl} (h : FnAt k d) {b : Nat × Nat}
    (hb : b ∈ d.boundaries) : k.height b.1 = b.2 := by
  obtain ⟨-, -, harity, hbody, -, -⟩ := h
  rw [FnDecl.boundaries, ← harity] at hb
  exact hbody.height_of_boundary hb

theorem FnStoresAt.runs {fns : List (FnDecl × Handle)} (h : FnStoresAt k p fns q)
    (hnext : k.Runs q 0) : k.Runs p 0 := by
  induction h with
  | nil _ => exact hnext
  | cons hid h hconstant hstore hpop _ ih =>
    have hpop' := Site.Runs.step hpop (ih hnext) rfl (Nat.le_refl _) rfl trivial
    exact .step h (hstore.store_runs (Nat.le_refl _) hpop') rfl (Nat.zero_le _) rfl ⟨_, hconstant⟩

theorem VarInitsAt.runs {decls : List Decl} (h : VarInitsAt k p decls q) (hnext : k.Runs q 0) :
    k.Runs p 0 := by
  induction h with
  | nil _ => exact hnext
  | fn _ ih => exact ih hnext
  | var hid hinit hstore hpop _ ih =>
    have hpop' := Site.Runs.step hpop (ih hnext) rfl (Nat.le_refl _) rfl trivial
    exact hinit.runs (Nat.le_refl _) (hstore.store_runs (Nat.le_refl _) hpop')

theorem MainAt.runs {id : Option SymbolId} (h : MainAt k p id q) (hnext : k.Runs q 0) :
    k.Runs p 0 := by
  cases h with
  | none => exact hnext
  | some hload hcall hpop =>
    have hpop' := Site.Runs.step hpop hnext rfl (Nat.le_refl _) rfl trivial
    exact hload.load_runs (Nat.le_refl _) (.step hcall hpop' rfl (Nat.le_refl _) rfl trivial)

/-- A script is safe on an empty stack. -/
theorem ScriptAt.runs {program : Program} {fns : List (FnDecl × Handle)}
    (h : ScriptAt k program fns) : k.Runs 0 0 := by
  obtain ⟨hfns, hinits, hmain, hnull, hret⟩ := h
  exact hfns.runs (hinits.runs (hmain.runs (return_runs hnull hret)))

theorem FnStoresAt.size_eq {fns : List (FnDecl × Handle)} (h : FnStoresAt k p fns q) :
    q = p + 5 * fns.length := by
  induction h with
  | nil _ => rfl
  | cons _ _ _ _ _ _ ih =>
    rw [ih, List.length_cons]
    omega

theorem FnStoresAt.height_of_boundary {fns : List (FnDecl × Handle)} (h : FnStoresAt k p fns q)
    {b : Nat × Nat} (hb : b ∈ fnStoreBoundaries p (fns.map Prod.fst)) : k.height b.1 = b.2 := by
  induction h with
  | nil hheight =>
    obtain rfl : b = _ := by simpa [fnStoreBoundaries] using hb
    exact hheight
  | cons _ h _ _ _ _ ih =>
    rcases List.mem_cons.1 hb with rfl | hb
    · exact h.height
    · exact ih hb

theorem VarInitsAt.height_of_boundary {decls : List Decl} (h : VarInitsAt k p decls q)
    (hnext : k.Runs q 0) {b : Nat × Nat} (hb : b ∈ varInitBoundaries p decls) :
    k.height b.1 = b.2 := by
  induction h with
  | nil hheight =>
    obtain rfl : b = _ := by simpa [varInitBoundaries] using hb
    exact hheight
  | fn _ ih => exact ih hnext hb
  | var hid hinit hstore hpop hdecls ih =>
    rcases List.mem_cons.1 hb with rfl | hb
    · exact ((VarInitsAt.var hid hinit hstore hpop hdecls).runs hnext).height
    · rw [← hinit.size_eq] at hb
      exact ih hnext hb

theorem ScriptAt.height_of_boundary {program : Program} {fns : List (FnDecl × Handle)}
    (h : ScriptAt k program fns) (hfns : fns.map Prod.fst = program.fns) {b : Nat × Nat}
    (hb : b ∈ program.boundaries) : k.height b.1 = b.2 := by
  obtain ⟨hstores, hinits, hmain, hnull, hret⟩ := h
  rw [Program.boundaries, ← hfns, List.mem_append] at hb
  rcases hb with hb | hb
  · exact hstores.height_of_boundary hb
  · rw [List.length_map] at hb
    refine hinits.height_of_boundary (hmain.runs (return_runs hnull hret)) ?_
    rwa [hstores.size_eq, Nat.zero_add]

end ScriptMachine
