import ScriptMachine.Scope

/-!
# Programs whose names are in scope

After name resolution every name carries the number of its symbol. The symbols
of a program are numbered through: first the globals, then the locals of all
functions. `Expr.Scoped globals Γ e` says that the names in `e` stand for
globals or for the live locals `Γ`, which are in order of declaration.
`Stmt.Scoped` and `Program.Scoped` say so of statements and programs, whose
declarations moreover introduce symbols that are new.
-/

namespace ScriptMachine

mutual

/-- Every name in an expression stands for a global or a live local. -/
def Expr.Scoped (globals : Nat) (Γ : List SymbolId) : Expr → Prop
  | .null _ | .bool _ _ | .number _ _ | .string _ _ => True
  | .name _ id _ => ∃ i, id = some i ∧ (i < globals ∨ i ∈ Γ)
  | .unary _ e _ => e.Scoped globals Γ
  | .binary _ left right _ | .logical _ left right _ | .index left right _
  | .assign _ left right _ => left.Scoped globals Γ ∧ right.Scoped globals Γ
  | .list items _ => exprsScoped globals Γ items
  | .call callee args _ => callee.Scoped globals Γ ∧ exprsScoped globals Γ args
  | .property object _ _ => object.Scoped globals Γ
termination_by structural e => e

def exprsScoped (globals : Nat) (Γ : List SymbolId) : List Expr → Prop
  | [] => True
  | e :: es => e.Scoped globals Γ ∧ exprsScoped globals Γ es
termination_by structural es => es

end

def initScoped (globals : Nat) (Γ : List SymbolId) : Option Expr → Prop
  | some e => e.Scoped globals Γ
  | none => True

/-- A symbol for a local that is not live yet, in a program with `count` symbols. -/
def FreshLocal (globals count : Nat) (Γ : List SymbolId) (id : Option SymbolId) : Prop :=
  ∃ i, id = some i ∧ globals ≤ i ∧ i < count ∧ i ∉ Γ

/-- The locals that are live behind a statement. -/
def Stmt.scope (Γ : List SymbolId) : Stmt → List SymbolId
  | .var d => Γ ++ d.id.toList
  | _ => Γ

/-- The locals that are live behind statements. -/
def stmtsScope (Γ : List SymbolId) (stmts : List Stmt) : List SymbolId := stmts.foldl Stmt.scope Γ

/-- Statements only add to the live locals. -/
theorem exists_stmtsScope_eq (Γ : List SymbolId) (stmts : List Stmt) :
    ∃ Δ, stmtsScope Γ stmts = Γ ++ Δ := by
  induction stmts generalizing Γ with
  | nil => exact ⟨[], (List.append_nil Γ).symm⟩
  | cons s ss ih =>
    obtain ⟨Δ, hΔ⟩ := ih (s.scope Γ)
    have hs : ∃ Θ, s.scope Γ = Γ ++ Θ := by
      cases s with
      | var d => exact ⟨d.id.toList, rfl⟩
      | _ => exact ⟨[], (List.append_nil Γ).symm⟩
    obtain ⟨Θ, hΘ⟩ := hs
    exact ⟨Θ ++ Δ, by rw [stmtsScope, List.foldl_cons, ← stmtsScope, hΔ, hΘ, List.append_assoc]⟩

mutual

/-- The names in a statement are in scope, and what it declares is new. -/
def Stmt.Scoped (globals count : Nat) (Γ : List SymbolId) : Stmt → Prop
  | .block body => blockScoped globals count Γ body
  | .var d => initScoped globals Γ d.init ∧ FreshLocal globals count Γ d.id
  | .cond test thenBlock none _ => test.Scoped globals Γ ∧ blockScoped globals count Γ thenBlock
  | .cond test thenBlock (some elseBlock) _ =>
    test.Scoped globals Γ ∧ blockScoped globals count Γ thenBlock ∧
      blockScoped globals count Γ elseBlock
  | .ret value _ => initScoped globals Γ value
  | .print value _ | .expr value _ => value.Scoped globals Γ
termination_by structural s => s

def blockScoped (globals count : Nat) (Γ : List SymbolId) : Block Stmt → Prop
  | ⟨stmts, _⟩ => stmtsScoped globals count Γ stmts
termination_by structural b => b

/-- What a statement declares is in scope in those behind it. -/
def stmtsScoped (globals count : Nat) (Γ : List SymbolId) : List Stmt → Prop
  | [] => True
  | s :: ss => s.Scoped globals count Γ ∧ stmtsScoped globals count (s.scope Γ) ss
termination_by structural ss => ss

end

/-- The symbols of the parameters of a function. -/
def FnDecl.locals (d : FnDecl) : List SymbolId := d.params.filterMap (·.id)

/-- The parameters of a function are different locals, and its body is in scope
behind them. -/
structure FnDecl.Scoped (globals count : Nat) (d : FnDecl) : Prop where
  params : ∀ p ∈ d.params, ∃ i, p.id = some i ∧ globals ≤ i ∧ i < count
  nodup : d.locals.Nodup
  body : stmtsScoped globals count d.locals d.body.stmts

theorem FnDecl.Scoped.length_locals {globals count : Nat} {d : FnDecl}
    (hd : d.Scoped globals count) : d.locals.length = d.params.length := by
  have hsome : ∀ p ∈ d.params, (p.id).isSome := by
    intro p hp
    obtain ⟨i, hid, -⟩ := hd.params p hp
    rw [hid]
    rfl
  rw [FnDecl.locals, List.length_filterMap_eq_countP]
  exact List.countP_eq_length.2 hsome

theorem FnDecl.Scoped.globals_le {globals count : Nat} {d : FnDecl} (hd : d.Scoped globals count)
    {id : SymbolId} (hid : id ∈ d.locals) : globals ≤ id := by
  obtain ⟨p, hp, hpid⟩ := List.mem_filterMap.1 hid
  obtain ⟨i, hi, hle, -⟩ := hd.params p hp
  rw [hi] at hpid
  cases hpid
  exact hle

def Decl.fn? : Decl → Option FnDecl
  | .fn d => some d
  | .var _ => none

/-- The functions that a program declares. -/
def Program.fns (program : Program) : List FnDecl := program.decls.filterMap Decl.fn?

theorem Program.mem_fns {program : Program} {d : FnDecl} :
    d ∈ program.fns ↔ .fn d ∈ program.decls := by
  refine List.mem_filterMap.trans ⟨?_, fun h => ⟨.fn d, h, rfl⟩⟩
  rintro ⟨decl, hdecl, hsome⟩
  cases decl with
  | fn d' =>
    cases hsome
    exact hdecl
  | var d' => cases hsome

def Decl.id : Decl → Option SymbolId
  | .fn d => d.id
  | .var d => d.id

/-- A declaration at top level, all of whose names are in scope. -/
def Decl.Scoped (globals count : Nat) : Decl → Prop
  | .fn d => d.Scoped globals count
  | .var d => initScoped globals [] d.init

/-- A program with `globals` global symbols, those from `hosts` on being the ones
it declares, in order and under different names, out of `count` symbols in all. -/
structure Program.Scoped (hosts globals count : Nat) (program : Program) : Prop where
  ids : program.decls.map Decl.id = (List.range' hosts program.decls.length).map some
  globals_eq : globals = hosts + program.decls.length
  names : (program.decls.map Decl.name).Nodup
  decls : ∀ decl ∈ program.decls, decl.Scoped globals count

end ScriptMachine
