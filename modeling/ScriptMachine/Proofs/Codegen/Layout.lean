import ScriptMachine.Chunk.Instruction
import ScriptMachine.Codegen.Script
import ScriptMachine.Proofs.Heap.Slab
import ScriptMachine.Proofs.Scope.Scoped

/-!
# Where the code of a program stands

`ExprAt k Γ p n e q` says that the code of the expression `e` stands in the chunk
of the site `k` from the offset `p` up to `q`, for a frame whose live locals are
`Γ` and whose stack is `n` high at `p`; running through it makes the stack one
higher. `StmtAt`, `BlockAt` and `StmtsAt` say so of statements, which change the
height only by the locals they declare, and `FnAt` and `ScriptAt` of functions
and of the script.

A site knows how high the stack is at every offset, so code that stands there
also says what the height is wherever an instruction starts. `Stmt.boundaries`
computes from a statement alone at which offsets its parts begin and end, and
how many locals are live there; `StmtsAt.height_of_boundary` ties it to the
heights of the site.
-/

namespace ScriptMachine

variable {κ : Type}

/-! ## Sites -/

/-- What code is laid out against: the chunk, the heap on which the names among
its constants live, the number of globals, and the height of the stack above the
base of the frame at every offset. -/
structure Site (κ : Type) where
  chunk : Chunk
  heap : Heap κ
  globals : Nat
  height : Nat → Nat

namespace Site

/-- The instruction at an offset, with the height of the stack there. -/
structure Holds (k : Site κ) (p n : Nat) (i : Instruction) : Prop where
  fetch : k.chunk.fetch p = .instruction i (p + i.length)
  height : k.height p = n

/-- A jump at `p` that leads to `target`. -/
def Jumps (k : Site κ) (p n : Nat) (op : Opcode) (target : Nat) : Prop :=
  ∃ first second : UInt8, k.Holds p n ⟨op, first, second⟩ ∧
    target = p + 3 + Chunk.wordOf first second

/-- The constant at an index is the name of a method. -/
def Names (k : Site κ) (index : UInt8) (name : String) : Prop :=
  ∃ handle, k.chunk.constants[index.toNat]? = some (.object handle) ∧
    k.heap.get handle = .ok (.string name)

/-- An access to a variable, by the instruction for globals or the one for
locals. -/
inductive Accesses (k : Site κ) (Γ : List SymbolId) (p n : Nat) (global local' : Opcode)
    (id : SymbolId) : Prop
  | global {slot : UInt8} (h : k.Holds p n ⟨global, slot, 0⟩) (hslot : slot.toNat = id)
      (hid : id < k.globals)
  | local {slot : UInt8} (h : k.Holds p n ⟨local', slot, 0⟩) (hslot : Γ[slot.toNat]? = some id)

/-- Pushes the value of a variable. -/
abbrev LoadAt (k : Site κ) (Γ : List SymbolId) (p n : Nat) (id : SymbolId) : Prop :=
  k.Accesses Γ p n .getGlobal .getLocal id

/-- Stores into a variable. -/
abbrev StoreAt (k : Site κ) (Γ : List SymbolId) (p n : Nat) (id : SymbolId) : Prop :=
  k.Accesses Γ p n .setGlobal .setLocal id

end Site

/-! ## Expressions -/

mutual

/-- The code of an expression. -/
inductive ExprAt (k : Site κ) (Γ : List SymbolId) : Nat → Nat → Expr → Nat → Prop
  | null {p n : Nat} {s : Span} (h : k.Holds p n { opcode := .loadNull }) :
      ExprAt k Γ p n (.null s) (p + 1)
  | true {p n : Nat} {s : Span} (h : k.Holds p n { opcode := .loadTrue }) :
      ExprAt k Γ p n (.bool .true s) (p + 1)
  | false {p n : Nat} {s : Span} (h : k.Holds p n { opcode := .loadFalse }) :
      ExprAt k Γ p n (.bool .false s) (p + 1)
  | number {p n : Nat} {x : Float} {s : Span} {index : UInt8}
      (h : k.Holds p n ⟨.constant, index, 0⟩)
      (hconstant : k.chunk.constants[index.toNat]? = some (.number x)) :
      ExprAt k Γ p n (.number x s) (p + 2)
  | name {p n : Nat} {text : String} {id : SymbolId} {s : Span} (h : k.LoadAt Γ p n id) :
      ExprAt k Γ p n (.name text (some id) s) (p + 2)
  | unary {p n q : Nat} {op : UnaryOp} {e : Expr} {s : Span} (he : ExprAt k Γ p n e q)
      (h : k.Holds q (n + 1) { opcode := op.opcode }) : ExprAt k Γ p n (.unary op e s) (q + 1)
  | binary {p n q r : Nat} {op : BinaryOp} {left right : Expr} {s : Span}
      (hleft : ExprAt k Γ p n left q) (hright : ExprAt k Γ q (n + 1) right r)
      (h : k.Holds r (n + 2) { opcode := op.opcode }) :
      ExprAt k Γ p n (.binary op left right s) (r + 1)
  | logical {p n q r : Nat} {op : LogicalOp} {left right : Expr} {s : Span}
      (hleft : ExprAt k Γ p n left q) (hjump : k.Jumps q (n + 1) op.opcode r)
      (hpop : k.Holds (q + 3) (n + 1) { opcode := .pop }) (hright : ExprAt k Γ (q + 4) n right r) :
      ExprAt k Γ p n (.logical op left right s) r
  | list {p n q : Nat} {items : List Expr} {s : Span} {count : UInt8}
      (hitems : ExprsAt k Γ p n items q) (hcount : count.toNat = items.length)
      (h : k.Holds q (n + items.length) ⟨.makeList, count, 0⟩) :
      ExprAt k Γ p n (.list items s) (q + 2)
  | index {p n q r : Nat} {base index : Expr} {s : Span} (hbase : ExprAt k Γ p n base q)
      (hindex : ExprAt k Γ q (n + 1) index r) (h : k.Holds r (n + 2) { opcode := .getIndex }) :
      ExprAt k Γ p n (.index base index s) (r + 1)
  | assignName {p n q : Nat} {op : AssignOp} {text : String} {id : SymbolId} {t s : Span}
      {value : Expr} (hvalue : AssignedAt k Γ p n op (.name text (some id) t) value q)
      (h : k.StoreAt Γ q (n + 1) id) :
      ExprAt k Γ p n (.assign op (.name text (some id) t) value s) (q + 2)
  | assignIndex {p n q r u : Nat} {op : AssignOp} {base index value : Expr} {t s : Span}
      (hbase : ExprAt k Γ p n base q) (hindex : ExprAt k Γ q (n + 1) index r)
      (hvalue : AssignedAt k Γ r (n + 2) op (.index base index t) value u)
      (h : k.Holds u (n + 3) { opcode := .setIndex }) :
      ExprAt k Γ p n (.assign op (.index base index t) value s) (u + 1)
  | invoke {p n q r : Nat} {object : Expr} {name : String} {args : List Expr} {t s : Span}
      {index count : UInt8} (hobject : ExprAt k Γ p n object q)
      (hargs : ExprsAt k Γ q (n + 1) args r) (hcount : count.toNat = args.length)
      (hname : k.Names index name) (h : k.Holds r (n + 1 + args.length) ⟨.invoke, index, count⟩) :
      ExprAt k Γ p n (.call (.property object name t) args s) (r + 3)
  | call {p n q r : Nat} {callee : Expr} {args : List Expr} {s : Span} {count : UInt8}
      (hcallee : ExprAt k Γ p n callee q) (hargs : ExprsAt k Γ q (n + 1) args r)
      (hcount : count.toNat = args.length)
      (h : k.Holds r (n + 1 + args.length) ⟨.call, count, 0⟩) :
      ExprAt k Γ p n (.call callee args s) (r + 2)

/-- The code of an assigned value, for a compound assignment joined with what is
there. -/
inductive AssignedAt (k : Site κ) (Γ : List SymbolId) :
    Nat → Nat → AssignOp → Expr → Expr → Nat → Prop
  | plain {p n q : Nat} {op : AssignOp} {target value : Expr} (hop : op.binary? = none)
      (hvalue : ExprAt k Γ p n value q) : AssignedAt k Γ p n op target value q
  | compound {p n q r : Nat} {op : AssignOp} {binary : BinaryOp} {target value : Expr}
      (hop : op.binary? = some binary) (htarget : ExprAt k Γ p n target q)
      (hvalue : ExprAt k Γ q (n + 1) value r) (h : k.Holds r (n + 2) { opcode := binary.opcode }) :
      AssignedAt k Γ p n op target value (r + 1)

/-- The code of expressions one after the other. -/
inductive ExprsAt (k : Site κ) (Γ : List SymbolId) : Nat → Nat → List Expr → Nat → Prop
  | nil {p n : Nat} : ExprsAt k Γ p n [] p
  | cons {p n q r : Nat} {e : Expr} {es : List Expr} (he : ExprAt k Γ p n e q)
      (hes : ExprsAt k Γ q (n + 1) es r) : ExprsAt k Γ p n (e :: es) r

end

/-- The code of a value that may be left out and is null then. -/
inductive InitAt (k : Site κ) (Γ : List SymbolId) (p n : Nat) : Option Expr → Nat → Prop
  | some {e : Expr} {q : Nat} (h : ExprAt k Γ p n e q) : InitAt k Γ p n (some e) q
  | none (h : k.Holds p n { opcode := .loadNull }) : InitAt k Γ p n none (p + 1)

/-! ## Statements -/

/-- Code that pops several values, up to 255 at once. -/
inductive PopManyAt (k : Site κ) : Nat → Nat → Nat → Nat → Prop
  | none {p n : Nat} : PopManyAt k p n 0 p
  | many {p n q count : Nat} {batch : UInt8} (hpos : 0 < count)
      (hbatch : batch.toNat = min count maxCount)
        (h : k.Holds p (n + batch.toNat) ⟨.popN, batch, 0⟩)
      (hrest : PopManyAt k (p + 2) n (count - maxCount) q) :
      PopManyAt k p (n + batch.toNat) count q

/-- Code that pops the locals of a block. -/
inductive PopsAt (k : Site κ) : Nat → Nat → Nat → Nat → Prop
  | one {p n : Nat} (h : k.Holds p (n + 1) { opcode := .pop }) : PopsAt k p (n + 1) 1 (p + 1)
  | many {p n count q : Nat} (hcount : count ≠ 1) (h : PopManyAt k p n count q) :
      PopsAt k p n count q

mutual

/-- The code of a statement; behind it the locals `Δ` are live. -/
inductive StmtAt (k : Site κ) : List SymbolId → Nat → Stmt → Nat → List SymbolId → Prop
  | block {Γ : List SymbolId} {p q : Nat} {body : Block Stmt} (h : BlockAt k Γ p body q) :
      StmtAt k Γ p (.block body) q Γ
  | var {Γ : List SymbolId} {p q : Nat} {d : VarDecl} {id : SymbolId} (hid : d.id = some id)
      (hfresh : id ∉ Γ) (hlocal : k.globals ≤ id) (h : InitAt k Γ p Γ.length d.init q) :
      StmtAt k Γ p (.var d) q (Γ ++ [id])
  | cond {Γ : List SymbolId} {p q r u : Nat} {test : Expr} {thenBlock : Block Stmt}
      {elseBlock : Option (Block Stmt)} {s : Span} (htest : ExprAt k Γ p Γ.length test q)
      (hjump : k.Jumps q (Γ.length + 1) .jumpIfFalse (r + 3))
      (hpop : k.Holds (q + 3) (Γ.length + 1) { opcode := .pop })
      (hthen : BlockAt k Γ (q + 4) thenBlock r) (hskip : k.Jumps r Γ.length .jump u)
      (hpop' : k.Holds (r + 3) (Γ.length + 1) { opcode := .pop })
      (helse : ElseAt k Γ (r + 4) elseBlock u) :
      StmtAt k Γ p (.cond test thenBlock elseBlock s) u Γ
  | ret {Γ : List SymbolId} {p q : Nat} {value : Option Expr} {s : Span}
      (hvalue : InitAt k Γ p Γ.length value q)
      (h : k.Holds q (Γ.length + 1) { opcode := .ret }) : StmtAt k Γ p (.ret value s) (q + 1) Γ
  | print {Γ : List SymbolId} {p q : Nat} {value : Expr} {s : Span}
      (hvalue : ExprAt k Γ p Γ.length value q)
      (h : k.Holds q (Γ.length + 1) { opcode := .print }) : StmtAt k Γ p (.print value s) (q + 1) Γ
  | expr {Γ : List SymbolId} {p q : Nat} {value : Expr} {s : Span}
      (hvalue : ExprAt k Γ p Γ.length value q)
      (h : k.Holds q (Γ.length + 1) { opcode := .pop }) : StmtAt k Γ p (.expr value s) (q + 1) Γ

/-- The code of a block: its locals are popped at its end. -/
inductive BlockAt (k : Site κ) : List SymbolId → Nat → Block Stmt → Nat → Prop
  | mk {Γ Δ : List SymbolId} {p q r : Nat} {stmts : List Stmt} {s : Span}
      (hstmts : StmtsAt k Γ p stmts q (Γ ++ Δ))
      (hpops : PopsAt k q (Γ.length + Δ.length) Δ.length r) : BlockAt k Γ p ⟨stmts, s⟩ r

/-- The code of the second branch of a conditional. -/
inductive ElseAt (k : Site κ) : List SymbolId → Nat → Option (Block Stmt) → Nat → Prop
  | none {Γ : List SymbolId} {p : Nat} : ElseAt k Γ p none p
  | some {Γ : List SymbolId} {p q : Nat} {body : Block Stmt} (h : BlockAt k Γ p body q) :
      ElseAt k Γ p (some body) q

/-- The code of statements one after the other. Between them the stack holds the
live locals. -/
inductive StmtsAt (k : Site κ) : List SymbolId → Nat → List Stmt → Nat → List SymbolId → Prop
  | nil {Γ : List SymbolId} {p : Nat} (hheight : k.height p = Γ.length) : StmtsAt k Γ p [] p Γ
  | cons {Γ Δ Θ : List SymbolId} {p q r : Nat} {s : Stmt} {ss : List Stmt}
      (hheight : k.height p = Γ.length) (hs : StmtAt k Γ p s q Δ) (hss : StmtsAt k Δ q ss r Θ) :
      StmtsAt k Γ p (s :: ss) r Θ

end

/-! ## Functions and scripts -/

/-- The code of a function: its parameters are its first locals, and at its end
it returns null. -/
inductive FnAt (k : Site κ) (d : FnDecl) : Prop
  | mk {q : Nat} {Δ : List SymbolId} (hnodup : d.locals.Nodup)
      (hlocals : ∀ id ∈ d.locals, k.globals ≤ id) (harity : d.locals.length = d.params.length)
      (hbody : StmtsAt k d.locals 0 d.body.stmts q Δ)
      (hnull : k.Holds q Δ.length { opcode := .loadNull })
      (hret : k.Holds (q + 1) (Δ.length + 1) { opcode := .ret })

/-- The code that stores functions into their globals. -/
inductive FnStoresAt (k : Site κ) : Nat → List (FnDecl × Handle) → Nat → Prop
  | nil {p : Nat} (hheight : k.height p = 0) : FnStoresAt k p [] p
  | cons {p q : Nat} {d : FnDecl} {handle : Handle} {fns : List (FnDecl × Handle)} {id : SymbolId}
      {index : UInt8} (hid : d.id = some id) (h : k.Holds p 0 ⟨.constant, index, 0⟩)
      (hconstant : k.chunk.constants[index.toNat]? = some (.object handle))
      (hstore : k.StoreAt [] (p + 2) 1 id) (hpop : k.Holds (p + 4) 1 { opcode := .pop })
      (hfns : FnStoresAt k (p + 5) fns q) : FnStoresAt k p ((d, handle) :: fns) q

/-- The code that initialises global variables. -/
inductive VarInitsAt (k : Site κ) : Nat → List Decl → Nat → Prop
  | nil {p : Nat} (hheight : k.height p = 0) : VarInitsAt k p [] p
  | fn {p q : Nat} {d : FnDecl} {decls : List Decl} (hdecls : VarInitsAt k p decls q) :
      VarInitsAt k p (.fn d :: decls) q
  | var {p q r : Nat} {d : VarDecl} {decls : List Decl} {id : SymbolId} (hid : d.id = some id)
      (hinit : InitAt k [] p 0 d.init q) (hstore : k.StoreAt [] q 1 id)
      (hpop : k.Holds (q + 2) 1 { opcode := .pop }) (hdecls : VarInitsAt k (q + 3) decls r) :
      VarInitsAt k p (.var d :: decls) r

/-- The code that calls `main`, if there is one. -/
inductive MainAt (k : Site κ) (p : Nat) : Option SymbolId → Nat → Prop
  | none : MainAt k p none p
  | some {id : SymbolId} (hload : k.LoadAt [] p 0 id) (hcall : k.Holds (p + 2) 1 ⟨.call, 0, 0⟩)
      (hpop : k.Holds (p + 4) 1 { opcode := .pop }) : MainAt k p (some id) (p + 5)

/-- The code of the script. -/
inductive ScriptAt (k : Site κ) (program : Program) (fns : List (FnDecl × Handle)) : Prop
  | mk {q r u : Nat} (hfns : FnStoresAt k 0 fns q) (hinits : VarInitsAt k q program.decls r)
      (hmain : MainAt k r program.main? u) (hnull : k.Holds u 0 { opcode := .loadNull })
      (hret : k.Holds (u + 1) 1 { opcode := .ret })

/-! ## How long code is -/

/-- The size of the code of an assigned value, given those of target and
operand. -/
def AssignOp.codeSize (op : AssignOp) (target value : Nat) : Nat :=
  match op.binary? with
  | some _ => target + value + 1
  | none => value

mutual

/-- How many bytes the code of an expression takes. -/
def Expr.codeSize : Expr → Nat
  | .null _ | .bool _ _ | .string _ _ | .property _ _ _ => 1
  | .number _ _ | .name _ _ _ => 2
  | .unary _ e _ => e.codeSize + 1
  | .binary _ left right _ => left.codeSize + right.codeSize + 1
  | .logical _ left right _ => left.codeSize + 4 + right.codeSize
  | .list items _ => exprsCodeSize items + 2
  | .index base index _ => base.codeSize + index.codeSize + 1
  | .assign op (.name _ _ _) value _ => op.codeSize 2 value.codeSize + 2
  | .assign op (.index base index _) value _ =>
    base.codeSize + index.codeSize +
      op.codeSize (base.codeSize + index.codeSize + 1) value.codeSize + 1
  | .assign op target value _ => op.codeSize target.codeSize value.codeSize
  | .call (.property object _ _) args _ => object.codeSize + exprsCodeSize args + 3
  | .call callee args _ => callee.codeSize + exprsCodeSize args + 2
termination_by structural e => e

def exprsCodeSize : List Expr → Nat
  | [] => 0
  | e :: es => e.codeSize + exprsCodeSize es
termination_by structural es => es

end

def initCodeSize : Option Expr → Nat
  | some e => e.codeSize
  | none => 1

/-- The size of the code that pops values up to 255 at once. -/
def popManyCodeSize (count : Nat) : Nat :=
  if 0 < count then 2 + popManyCodeSize (count - maxCount) else 0
termination_by count
decreasing_by
  unfold maxCount
  omega

def popsCodeSize (count : Nat) : Nat := if count = 1 then 1 else popManyCodeSize count

/-- How many locals a statement declares for the statements behind it. -/
def Stmt.declares : Stmt → Nat
  | .var _ => 1
  | _ => 0

def declaresOf (stmts : List Stmt) : Nat := (stmts.map Stmt.declares).sum

mutual

/-- How many bytes the code of a statement takes. -/
def Stmt.codeSize : Stmt → Nat
  | .block body => blockCodeSize body
  | .var d => initCodeSize d.init
  | .cond test thenBlock none _ => test.codeSize + blockCodeSize thenBlock + 8
  | .cond test thenBlock (some elseBlock) _ =>
    test.codeSize + blockCodeSize thenBlock + 8 + blockCodeSize elseBlock
  | .ret value _ => initCodeSize value + 1
  | .print value _ => value.codeSize + 1
  | .expr value _ => value.codeSize + 1
termination_by structural s => s

def blockCodeSize : Block Stmt → Nat
  | ⟨stmts, _⟩ => stmtsCodeSize stmts + popsCodeSize (declaresOf stmts)
termination_by structural b => b

def stmtsCodeSize : List Stmt → Nat
  | [] => 0
  | s :: ss => s.codeSize + stmtsCodeSize ss
termination_by structural ss => ss

end

/-- The size of the second branch of a conditional. -/
def elseCodeSize : Option (Block Stmt) → Nat
  | some body => blockCodeSize body
  | none => 0

theorem Stmt.codeSize_cond (test : Expr) (thenBlock : Block Stmt)
    (elseBlock : Option (Block Stmt)) (s : Span) :
    (Stmt.cond test thenBlock elseBlock s).codeSize =
      test.codeSize + blockCodeSize thenBlock + 8 + elseCodeSize elseBlock := by
  cases elseBlock <;> simp [Stmt.codeSize, elseCodeSize]

theorem blockCodeSize_eq (body : Block Stmt) :
    blockCodeSize body = stmtsCodeSize body.stmts + popsCodeSize (declaresOf body.stmts) := by
  cases body
  rw [blockCodeSize]

/-! ## The boundaries of statements -/

mutual

/-- The offsets inside the code of a statement at which other statements begin
and end, each with the number of locals that are live there. The code starts at
`p`, with `n` locals live. -/
def Stmt.boundaries (p n : Nat) : Stmt → List (Nat × Nat)
  | .block body => blockBoundaries p n body
  | .cond test thenBlock none _ => blockBoundaries (p + test.codeSize + 4) n thenBlock
  | .cond test thenBlock (some elseBlock) _ =>
    blockBoundaries (p + test.codeSize + 4) n thenBlock ++
      blockBoundaries (p + test.codeSize + 4 + blockCodeSize thenBlock + 4) n elseBlock
  | .var _ | .ret _ _ | .print _ _ | .expr _ _ => []
termination_by structural s => s

def blockBoundaries (p n : Nat) : Block Stmt → List (Nat × Nat)
  | ⟨stmts, _⟩ => stmtsBoundaries p n stmts
termination_by structural b => b

/-- The boundaries of statements that stand one after the other. -/
def stmtsBoundaries (p n : Nat) : List Stmt → List (Nat × Nat)
  | [] => [(p, n)]
  | s :: ss => (p, n) :: s.boundaries p n ++ stmtsBoundaries (p + s.codeSize) (n + s.declares) ss
termination_by structural ss => ss

end

/-- The boundaries in the second branch of a conditional. -/
def elseBoundaries (p n : Nat) : Option (Block Stmt) → List (Nat × Nat)
  | some body => blockBoundaries p n body
  | none => []

theorem Stmt.boundaries_cond (p n : Nat) (test : Expr) (thenBlock : Block Stmt)
    (elseBlock : Option (Block Stmt)) (s : Span) :
    (Stmt.cond test thenBlock elseBlock s).boundaries p n =
      blockBoundaries (p + test.codeSize + 4) n thenBlock ++
        elseBoundaries (p + test.codeSize + 4 + blockCodeSize thenBlock + 4) n elseBlock := by
  cases elseBlock <;> simp [Stmt.boundaries, elseBoundaries]

theorem blockBoundaries_eq (p n : Nat) (body : Block Stmt) :
    blockBoundaries p n body = stmtsBoundaries p n body.stmts := by
  cases body
  rw [blockBoundaries]

/-- The boundaries of the statements of a function. -/
def FnDecl.boundaries (d : FnDecl) : List (Nat × Nat) :=
  stmtsBoundaries 0 d.params.length d.body.stmts

/-- The boundaries of the stores of functions, from `p`. -/
def fnStoreBoundaries (p : Nat) : List FnDecl → List (Nat × Nat)
  | [] => [(p, 0)]
  | _ :: fns => (p, 0) :: fnStoreBoundaries (p + 5) fns

/-- The boundaries of the initialisers of variables, from `p`. -/
def varInitBoundaries (p : Nat) : List Decl → List (Nat × Nat)
  | [] => [(p, 0)]
  | .fn _ :: decls => varInitBoundaries p decls
  | .var d :: decls => (p, 0) :: varInitBoundaries (p + initCodeSize d.init + 3) decls

/-- The boundaries of the parts of a script, none of which has locals. -/
def Program.boundaries (program : Program) : List (Nat × Nat) :=
  fnStoreBoundaries 0 program.fns ++ varInitBoundaries (5 * program.fns.length) program.decls

/-! ## Code has the size it should have -/

section Sizes

variable {k : Site κ} {Γ Δ : List SymbolId} {p n q : Nat}

theorem Expr.codeSize_call {callee : Expr} {args : List Expr} {s : Span}
    (h : ExprAt k Γ p n callee q) :
    (Expr.call callee args s).codeSize = callee.codeSize + exprsCodeSize args + 2 := by
  cases h <;> simp only [Expr.codeSize]

mutual

theorem ExprAt.size_eq {k : Site κ} {Γ : List SymbolId} {p n q : Nat} {e : Expr} :
    ExprAt k Γ p n e q → q = p + e.codeSize
  | .null _ | .true _ | .false _ | .number _ _ | .name _ => by simp [Expr.codeSize]
  | .unary he _ => by
    rw [he.size_eq, Expr.codeSize]
    omega
  | .binary hleft hright _ => by
    rw [hright.size_eq, hleft.size_eq, Expr.codeSize]
    omega
  | .logical hleft _ _ hright => by
    rw [hright.size_eq, hleft.size_eq, Expr.codeSize]
    omega
  | .list hitems _ _ => by
    rw [hitems.size_eq, Expr.codeSize]
    omega
  | .index hbase hindex _ => by
    rw [hindex.size_eq, hbase.size_eq, Expr.codeSize]
    omega
  | .assignName hvalue _ => by
    rw [hvalue.size_eq, Expr.codeSize, Expr.codeSize]
    omega
  | .assignIndex hbase hindex hvalue _ => by
    rw [hvalue.size_eq, hindex.size_eq, hbase.size_eq, Expr.codeSize, Expr.codeSize]
    omega
  | .invoke hobject hargs _ _ _ => by
    rw [hargs.size_eq, hobject.size_eq, Expr.codeSize]
    omega
  | .call hcallee hargs _ _ => by
    rw [hargs.size_eq, hcallee.size_eq, Expr.codeSize_call hcallee]
    omega

theorem AssignedAt.size_eq {k : Site κ} {Γ : List SymbolId} {p n q : Nat} {op : AssignOp}
    {target value : Expr} :
    AssignedAt k Γ p n op target value q → q = p + op.codeSize target.codeSize value.codeSize
  | .plain hop hvalue => by
    rw [hvalue.size_eq, AssignOp.codeSize, hop]
  | .compound hop htarget hvalue _ => by
    rw [hvalue.size_eq, htarget.size_eq, AssignOp.codeSize, hop]
    simp only
    omega

theorem ExprsAt.size_eq {k : Site κ} {Γ : List SymbolId} {p n q : Nat} {es : List Expr} :
    ExprsAt k Γ p n es q → q = p + exprsCodeSize es
  | .nil => rfl
  | .cons he hes => by
    rw [hes.size_eq, he.size_eq, exprsCodeSize]
    omega

end

theorem InitAt.size_eq {value : Option Expr} (h : InitAt k Γ p n value q) :
    q = p + initCodeSize value := by
  cases h with
  | some h => exact h.size_eq
  | none h => rfl

theorem PopManyAt.size_eq {count : Nat} (h : PopManyAt k p n count q) :
    q = p + popManyCodeSize count := by
  induction h with
  | none =>
    rw [popManyCodeSize]
    rfl
  | many hpos _ _ _ ih =>
    rw [ih]
    conv => rhs; rw [popManyCodeSize, if_pos hpos]
    omega

theorem PopsAt.size_eq {count : Nat} (h : PopsAt k p n count q) : q = p + popsCodeSize count := by
  cases h with
  | one h => rfl
  | many hcount h => rw [h.size_eq, popsCodeSize, if_neg hcount]

/-- A statement leaves the locals that were live, and its own behind them. -/
theorem StmtAt.length_eq {s : Stmt} (h : StmtAt k Γ p s q Δ) :
    Δ.length = Γ.length + s.declares := by
  cases h <;> simp [Stmt.declares]

theorem StmtsAt.length_eq {k : Site κ} {Γ Δ : List SymbolId} {p q : Nat} {ss : List Stmt} :
    StmtsAt k Γ p ss q Δ → Δ.length = Γ.length + declaresOf ss
  | .nil _ => rfl
  | .cons _ hs hss => by
    rw [hss.length_eq, hs.length_eq, declaresOf, declaresOf, List.map_cons, List.sum_cons]
    omega

mutual

theorem StmtAt.size_eq {k : Site κ} {Γ Δ : List SymbolId} {p q : Nat} {s : Stmt} :
    StmtAt k Γ p s q Δ → q = p + s.codeSize
  | .block h => by rw [h.size_eq, Stmt.codeSize]
  | .var _ _ _ h => by rw [h.size_eq, Stmt.codeSize]
  | .cond htest _ _ hthen _ _ helse => by
    rw [helse.size_eq, hthen.size_eq, htest.size_eq, Stmt.codeSize_cond]
    omega
  | .ret hvalue _ => by rw [hvalue.size_eq, Stmt.codeSize, Nat.add_assoc]
  | .print hvalue _ => by rw [hvalue.size_eq, Stmt.codeSize, Nat.add_assoc]
  | .expr hvalue _ => by rw [hvalue.size_eq, Stmt.codeSize, Nat.add_assoc]

theorem BlockAt.size_eq {k : Site κ} {Γ : List SymbolId} {p q : Nat} {body : Block Stmt} :
    BlockAt k Γ p body q → q = p + blockCodeSize body
  | @BlockAt.mk _ _ _ Δ _ _ _ _ _ hstmts hpops => by
    have hlength : Δ.length = declaresOf body.stmts := by simpa using hstmts.length_eq
    rw [hpops.size_eq, hstmts.size_eq, blockCodeSize_eq, hlength]
    omega

theorem ElseAt.size_eq {k : Site κ} {Γ : List SymbolId} {p q : Nat} {body : Option (Block Stmt)} :
    ElseAt k Γ p body q → q = p + elseCodeSize body
  | .none => rfl
  | .some h => by rw [h.size_eq, elseCodeSize]

theorem StmtsAt.size_eq {k : Site κ} {Γ Δ : List SymbolId} {p q : Nat} {ss : List Stmt} :
    StmtsAt k Γ p ss q Δ → q = p + stmtsCodeSize ss
  | .nil _ => rfl
  | .cons _ hs hss => by
    rw [hss.size_eq, hs.size_eq, stmtsCodeSize]
    omega

end

mutual

theorem StmtAt.height_of_boundary {k : Site κ} {Γ Δ : List SymbolId} {p q : Nat} {s : Stmt}
    {b : Nat × Nat} :
    StmtAt k Γ p s q Δ → b ∈ s.boundaries p Γ.length → k.height b.1 = b.2
  | .block h, hb => h.height_of_boundary (by simpa only [Stmt.boundaries] using hb)
  | .cond htest _ _ hthen _ _ helse, hb => by
    rw [Stmt.boundaries_cond, ← htest.size_eq, ← hthen.size_eq, List.mem_append] at hb
    rcases hb with hb | hb
    · exact hthen.height_of_boundary hb
    · exact helse.height_of_boundary hb
  | .var _ _ _ _, hb | .ret _ _, hb | .print _ _, hb | .expr _ _, hb => by
    simp [Stmt.boundaries] at hb

theorem BlockAt.height_of_boundary {k : Site κ} {Γ : List SymbolId} {p q : Nat}
    {body : Block Stmt} {b : Nat × Nat} :
    BlockAt k Γ p body q → b ∈ blockBoundaries p Γ.length body → k.height b.1 = b.2
  | .mk hstmts _, hb => hstmts.height_of_boundary (by rwa [blockBoundaries_eq] at hb)

theorem ElseAt.height_of_boundary {k : Site κ} {Γ : List SymbolId} {p q : Nat}
    {body : Option (Block Stmt)} {b : Nat × Nat} :
    ElseAt k Γ p body q → b ∈ elseBoundaries p Γ.length body → k.height b.1 = b.2
  | .none, hb => by simp [elseBoundaries] at hb
  | .some h, hb => h.height_of_boundary hb

/-- At a boundary between statements the stack is as high as locals are live. -/
theorem StmtsAt.height_of_boundary {k : Site κ} {Γ Δ : List SymbolId} {p q : Nat}
    {ss : List Stmt} {b : Nat × Nat} :
    StmtsAt k Γ p ss q Δ → b ∈ stmtsBoundaries p Γ.length ss → k.height b.1 = b.2
  | .nil hheight, hb => by
    obtain rfl : b = _ := by simpa [stmtsBoundaries] using hb
    exact hheight
  | .cons hheight hs hss, hb => by
    rw [stmtsBoundaries, List.cons_append, List.mem_cons, List.mem_append] at hb
    rcases hb with rfl | hb | hb
    · exact hheight
    · exact hs.height_of_boundary hb
    · rw [← hs.size_eq, ← hs.length_eq] at hb
      exact hss.height_of_boundary hb

end

end Sizes

end ScriptMachine
