import ScriptMachine.Chunk.Instruction
import ScriptMachine.Proofs.Codegen.Layout

/-!
# Listings of programs

The listing of a part of a program is its code in symbols: the instructions in
order, each with what its operand stands for, the part of the program it belongs
to, and the height of the stack above the base of the frame in front of it. It is
computed from the program alone (`Expr.listed`, `Stmt.listed`, `FnDecl.listed`,
`Program.listed`), also where a name stands for nothing and something harmless
takes the place of an access.
-/

namespace ScriptMachine

/-! ## Instructions in symbols -/

/-- The part of a program that an instruction belongs to. -/
inductive Node where
  | expr (e : Expr)
  | stmt (s : Stmt)
  | blockEnd (body : Block Stmt)
  | bodyEnd (d : FnDecl)
  | decl (d : Decl)
  | scriptEnd (program : Program)

/-- The line of a node: where it starts, or for the end of a block, of a body or of
a program where that ends. A program ends with its last declaration, and without any on
line 1. -/
def Node.line : Node → Nat
  | .expr e => e.span.start.line
  | .stmt s => s.span.start.line
  | .blockEnd body => body.span.stop.line
  | .bodyEnd d => d.body.span.stop.line
  | .decl d => d.span.start.line
  | .scriptEnd program => (program.decls.getLast?.map fun decl => decl.span.stop.line).getD 1

theorem Program.endLine_eq (program : Program) :
    program.endLine = (Node.scriptEnd program).line := by
  rw [Program.endLine, Node.line]
  cases program.decls.getLast? <;> rfl

/-- What the operand bytes of an instruction stand for: nothing; nothing, where
there is no code for an expression and something harmless takes its place; a slot or
the size of a batch of pops; a constant; a count of elements or arguments; the name
of a method with a count of arguments; how many bytes a jump leads over; or a
distance that has not been filled in. -/
inductive Operand where
  | none
  | missing
  | byte (n : Nat)
  | constant (value : Value)
  | count (n : Nat)
  | method (name : String) (count : Nat)
  | distance (n : Nat)
  | pending

/-- An instruction in symbols. -/
structure Listed where
  opcode : Opcode
  operand : Operand
  node : Node
  height : Nat

/-- How many bytes the instruction takes. -/
def Listed.size (l : Listed) : Nat := 1 + l.opcode.layout.width

/-- How many bytes a listing takes. -/
def codeLength (L : List Listed) : Nat := (L.map Listed.size).sum

/-- The instruction that starts at an offset. -/
def listedAt? : List Listed → Nat → Option Listed
  | [], _ => none
  | l :: L, p => if p = 0 then some l else if p < l.size then none else listedAt? L (p - l.size)

/-! ## Slots -/

/-- What is known of variables at a place in a program with `count` symbols, of
which the first `globals` are globals: the locals that are live, each in its
slot. Locals without a symbol take up a slot all the same. -/
structure Slots where
  globals : Nat
  count : Nat
  locals : List (Option SymbolId)

namespace Slots

/-- How high the stack is when it holds the live locals only. -/
def height (σ : Slots) : Nat := σ.locals.length

/-- One local more. -/
def declare (σ : Slots) (id : Option SymbolId) : Slots := { σ with locals := σ.locals ++ [id] }

/-- The kind and slot of a symbol that can be accessed. -/
def find? (σ : Slots) (id : SymbolId) : Option (SymbolKind × Nat) :=
  if id < σ.globals then if id < maxSlots then some (.global, id) else none
  else if id < σ.count then
    ((σ.locals.idxOf? (some id)).filter (· < maxSlots)).map (SymbolKind.local, ·)
  else none

/-- An access to a variable, or `missing` where there is none. -/
def access (σ : Slots) (localOp globalOp : Opcode) (id : Option SymbolId) (node : Node) (n : Nat)
    (missing : List Listed) : List Listed :=
  match id.bind σ.find? with
  | some (.local, slot) => [⟨localOp, .byte slot, node, n⟩]
  | some (.global, slot) => [⟨globalOp, .byte slot, node, n⟩]
  | none => missing

/-- Pushes the value of a variable, or null where there is none. -/
def load (σ : Slots) (id : Option SymbolId) (node : Node) (n : Nat) : List Listed :=
  σ.access .getLocal .getGlobal id node n [⟨.loadNull, .none, node, n⟩]

/-- Stores into a variable, if there is one. -/
def store (σ : Slots) (id : Option SymbolId) (node : Node) (n : Nat) : List Listed :=
  σ.access .setLocal .setGlobal id node n []

end Slots

/-! ## Expressions -/

/-- A value that is assigned, joined with the old one for a compound assignment. -/
def AssignOp.listed (op : AssignOp) (old : List Listed) (new : Nat → List Listed) (node : Node)
    (n : Nat) : List Listed :=
  match op.binary? with
  | some binary => old ++ new (n + 1) ++ [⟨binary.opcode, .none, node, n + 2⟩]
  | none => new n

mutual

/-- The code of an expression on a stack of height `n`. -/
def Expr.listed (σ : Slots) : Expr → Nat → List Listed
  | .null s, n => [⟨.loadNull, .none, .expr (.null s), n⟩]
  | .bool true s, n => [⟨.loadTrue, .none, .expr (.bool true s), n⟩]
  | .bool false s, n => [⟨.loadFalse, .none, .expr (.bool false s), n⟩]
  | .number x s, n => [⟨.constant, .constant (.number x), .expr (.number x s), n⟩]
  | .string text s, n => [⟨.loadNull, .missing, .expr (.string text s), n⟩]
  | .name text id s, n => σ.load id (.expr (.name text id s)) n
  | .unary op e s, n => e.listed σ n ++ [⟨op.opcode, .none, .expr (.unary op e s), n + 1⟩]
  | .binary op left right s, n =>
    left.listed σ n ++ right.listed σ (n + 1) ++
      [⟨op.opcode, .none, .expr (.binary op left right s), n + 2⟩]
  | .logical op left right s, n =>
    let other := ⟨.pop, .none, .expr (.logical op left right s), n + 1⟩ :: right.listed σ n
    left.listed σ n ++
      ⟨op.opcode, .distance (codeLength other), .expr (.logical op left right s), n + 1⟩ :: other
  | .list items s, n =>
    exprsListed σ items n ++
      [⟨.makeList, .count items.length, .expr (.list items s), n + items.length⟩]
  | .index base index s, n =>
    base.listed σ n ++ index.listed σ (n + 1) ++
      [⟨.getIndex, .none, .expr (.index base index s), n + 2⟩]
  | .assign op (.name text id t) value s, n =>
    op.listed (Expr.listed σ (.name text id t) n) (value.listed σ)
        (.expr (.assign op (.name text id t) value s)) n ++
      σ.store id (.expr (.assign op (.name text id t) value s)) (n + 1)
  | .assign op (.index base index t) value s, n =>
    base.listed σ n ++ index.listed σ (n + 1) ++
      op.listed (Expr.listed σ (.index base index t) (n + 2)) (value.listed σ)
        (.expr (.assign op (.index base index t) value s)) (n + 2) ++
      [⟨.setIndex, .none, .expr (.assign op (.index base index t) value s), n + 3⟩]
  | .assign op target value s, n =>
    op.listed (target.listed σ n) (value.listed σ) (.expr (.assign op target value s)) n
  | .call (.property object name t) args s, n =>
    object.listed σ n ++ exprsListed σ args (n + 1) ++
      [⟨.invoke, .method name args.length, .expr (.call (.property object name t) args s),
        n + 1 + args.length⟩]
  | .call callee args s, n =>
    callee.listed σ n ++ exprsListed σ args (n + 1) ++
      [⟨.call, .count args.length, .expr (.call callee args s), n + 1 + args.length⟩]
  | .property object name s, n => [⟨.loadNull, .missing, .expr (.property object name s), n⟩]
termination_by structural e => e

/-- The code of expressions one after the other. -/
def exprsListed (σ : Slots) : List Expr → Nat → List Listed
  | [], _ => []
  | e :: es, n => e.listed σ n ++ exprsListed σ es (n + 1)
termination_by structural es => es

end

/-- The code of a value that may be left out and is null then. -/
def initListed (σ : Slots) (value : Option Expr) (node : Node) : List Listed :=
  match value with
  | some e => e.listed σ σ.height
  | none => [⟨.loadNull, .none, node, σ.height⟩]

/-! ## Statements -/

/-- Pops of several values, up to 255 at once, down to the height `n`. -/
def popManyListed (count : Nat) (node : Node) (n : Nat) : List Listed :=
  if 0 < count then
    ⟨.popN, .byte (min count maxCount), node, n + count⟩ :: popManyListed (count - maxCount) node n
  else []
termination_by count
decreasing_by
  unfold maxCount
  omega

/-- Pops of the locals of a block. -/
def popsListed (count : Nat) (node : Node) (n : Nat) : List Listed :=
  if count = 1 then [⟨.pop, .none, node, n + 1⟩] else popManyListed count node n

/-- A conditional, given its test and its branches. -/
def condListed (test thenCode elseCode : List Listed) (node : Node) (n : Nat) : List Listed :=
  let second := ⟨.pop, .none, node, n + 1⟩ :: elseCode
  let first := ⟨.pop, .none, node, n + 1⟩ ::
    (thenCode ++ [⟨.jump, .distance (codeLength second), node, n⟩])
  test ++ ⟨.jumpIfFalse, .distance (codeLength first), node, n + 1⟩ :: (first ++ second)

/-- The slots that are taken behind a statement. -/
def Stmt.slots (σ : Slots) : Stmt → Slots
  | .var d => σ.declare d.id
  | _ => σ

/-- The slots that are taken behind statements. -/
def stmtsSlots (σ : Slots) (stmts : List Stmt) : Slots := stmts.foldl Stmt.slots σ

mutual

/-- The code of a statement. -/
def Stmt.listed : Stmt → Slots → List Listed
  | .block body, σ => blockListed body σ
  | .var d, σ => initListed σ d.init (.stmt (.var d))
  | .cond test thenBlock none s, σ =>
    condListed (test.listed σ σ.height) (blockListed thenBlock σ) []
      (.stmt (.cond test thenBlock none s)) σ.height
  | .cond test thenBlock (some elseBlock) s, σ =>
    condListed (test.listed σ σ.height) (blockListed thenBlock σ) (blockListed elseBlock σ)
      (.stmt (.cond test thenBlock (some elseBlock) s)) σ.height
  | .ret value s, σ =>
    initListed σ value (.stmt (.ret value s)) ++
      [⟨.ret, .none, .stmt (.ret value s), σ.height + 1⟩]
  | .print value s, σ =>
    value.listed σ σ.height ++ [⟨.print, .none, .stmt (.print value s), σ.height + 1⟩]
  | .expr value s, σ =>
    value.listed σ σ.height ++ [⟨.pop, .none, .stmt (.expr value s), σ.height + 1⟩]
termination_by structural s => s

/-- The code of a block, at whose end its locals are popped. -/
def blockListed : Block Stmt → Slots → List Listed
  | ⟨stmts, s⟩, σ =>
    stmtsListed stmts σ ++ popsListed (declaresOf stmts) (.blockEnd ⟨stmts, s⟩) σ.height
termination_by structural b => b

/-- The code of statements one after the other. -/
def stmtsListed : List Stmt → Slots → List Listed
  | [], _ => []
  | s :: ss, σ => s.listed σ ++ stmtsListed ss (s.slots σ)
termination_by structural ss => ss

end

theorem height_declare (σ : Slots) (id : Option SymbolId) :
    (σ.declare id).height = σ.height + 1 := by
  simp [Slots.height, Slots.declare]

theorem height_stmtsSlots (σ : Slots) (stmts : List Stmt) :
    (stmtsSlots σ stmts).height = σ.height + declaresOf stmts := by
  induction stmts generalizing σ with
  | nil => rfl
  | cons s ss ih =>
    have hs : (s.slots σ).height = σ.height + s.declares := by
      cases s with
      | var d => exact height_declare σ d.id
      | _ => rfl
    rw [stmtsSlots, List.foldl_cons, ← stmtsSlots, ih, hs]
    simp [declaresOf, Nat.add_assoc]

/-! ## Functions and scripts -/

/-- The code that returns null. -/
def returnListed (node : Node) (n : Nat) : List Listed :=
  [⟨.loadNull, .none, node, n⟩, ⟨.ret, .none, node, n + 1⟩]

/-- The slots of the parameters of a function. -/
def FnDecl.slots (globals count : Nat) (d : FnDecl) : Slots :=
  ⟨globals, count, d.params.map (·.id)⟩

/-- The code of a declared function. -/
def FnDecl.listed (globals count : Nat) (d : FnDecl) : List Listed :=
  stmtsListed d.body.stmts (d.slots globals count) ++
    returnListed (.bodyEnd d) (stmtsSlots (d.slots globals count) d.body.stmts).height

/-- The code that stores a function into its global. -/
def fnStoreListed (σ : Slots) (fn : FnDecl × Handle) : List Listed :=
  [⟨.constant, .constant (.object fn.2), .decl (.fn fn.1), 0⟩] ++
    σ.store fn.1.id (.decl (.fn fn.1)) 1 ++ [⟨.pop, .none, .decl (.fn fn.1), 1⟩]

/-- The code that initialises a global variable. -/
def varInitListed (σ : Slots) : Decl → List Listed
  | .fn _ => []
  | .var d =>
    initListed σ d.init (.decl (.var d)) ++ σ.store d.id (.decl (.var d)) 1 ++
      [⟨.pop, .none, .decl (.var d), 1⟩]

/-- The symbols of the functions with the name `main`, of which the first is called. -/
def Program.mainIds (program : Program) : List SymbolId :=
  (program.fns.filter (·.name = "main")).filterMap (·.id)

theorem Program.main?_eq_head? (program : Program) : program.main? = program.mainIds.head? := by
  rw [mainIds, fns, List.filter_filterMap, List.filterMap_filterMap, List.head?_filterMap, main?]
  congr 1
  funext decl
  cases decl with
  | var d => rfl
  | fn d => by_cases hname : d.name = "main" <;> simp [Decl.fn?, Option.filter, hname]

/-- The code that calls `main`, if there is one. -/
def mainListed (σ : Slots) (program : Program) : List Listed :=
  match program.mainIds.head? with
  | some id =>
    σ.load (some id) (.scriptEnd program) 0 ++
      [⟨.call, .count 0, .scriptEnd program, 1⟩, ⟨.pop, .none, .scriptEnd program, 1⟩]
  | none => []

/-- The code of the script of a program whose functions have the given handles. -/
def Program.listed (globals count : Nat) (program : Program) (fns : List (FnDecl × Handle)) :
    List Listed :=
  let σ : Slots := ⟨globals, count, []⟩
  fns.flatMap (fnStoreListed σ) ++ program.decls.flatMap (varInitListed σ) ++
    mainListed σ program ++ returnListed (.scriptEnd program) 0

/-! ## Offsets -/

theorem codeLength_append (L L' : List Listed) :
    codeLength (L ++ L') = codeLength L + codeLength L' := by
  simp [codeLength]

theorem codeLength_cons (l : Listed) (L : List Listed) :
    codeLength (l :: L) = l.size + codeLength L := by
  simp [codeLength]

theorem Listed.size_pos (l : Listed) : 0 < l.size := by
  unfold Listed.size
  omega

theorem listedAt?_append (L L' : List Listed) (p : Nat) :
    listedAt? (L ++ L') p =
      if p < codeLength L then listedAt? L p else listedAt? L' (p - codeLength L) := by
  induction L generalizing p with
  | nil => simp [codeLength]
  | cons l L ih =>
    have hpos := l.size_pos
    rw [List.cons_append, listedAt?, listedAt?, codeLength_cons, ih]
    by_cases hzero : p = 0
    · rw [if_pos hzero, if_pos (by omega), if_pos hzero]
    · rw [if_neg hzero, if_neg hzero]
      by_cases hlt : p < l.size
      · rw [if_pos hlt, if_pos (by omega), if_pos hlt]
      · rw [if_neg hlt, if_neg hlt, Nat.sub_sub]
        by_cases hin : p - l.size < codeLength L
        · rw [if_pos hin, if_pos (by omega)]
        · rw [if_neg hin, if_neg (by omega)]

theorem listedAt?_lt {L : List Listed} {p : Nat} {l : Listed} (h : listedAt? L p = some l) :
    p + l.size ≤ codeLength L := by
  induction L generalizing p with
  | nil => cases h
  | cons l' L ih =>
    rw [listedAt?] at h
    rw [codeLength_cons]
    split at h
    · next hzero =>
      cases h
      omega
    · split at h
      · cases h
      · have hle := ih h
        omega

end ScriptMachine
