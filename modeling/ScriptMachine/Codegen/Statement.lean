import ScriptMachine.Codegen.Draft

/-! # Code of expressions and statements

The code of an expression leaves its value on the stack; the code of a statement
leaves the stack as it was, but for the local that a declaration adds. Locals
are popped at the end of their block. -/

namespace ScriptMachine

variable {κ : Type}

def BinaryOp.opcode : BinaryOp → Opcode
  | .add => .add
  | .sub => .sub
  | .mul => .mul
  | .div => .div
  | .floorDiv => .floorDiv
  | .mod => .mod
  | .equal => .equal
  | .notEqual => .notEqual
  | .less => .less
  | .lessEqual => .lessEqual
  | .greater => .greater
  | .greaterEqual => .greaterEqual

def UnaryOp.opcode : UnaryOp → Opcode
  | .neg => .negate
  | .not => .invert

/-- The jump over the right operand, taken when the left one decides. -/
def LogicalOp.opcode : LogicalOp → Opcode
  | .and => .jumpIfFalse
  | .or => .jumpIfTrue

/-- The code of an assigned value: for a compound assignment, the old value
joined with the new one. -/
def genAssigned (op : AssignOp) (old new : Gen κ Unit) (line : Nat) : Gen κ Unit :=
  match op.binary? with
  | some binary => do
    old
    new
    emit binary.opcode line
  | none => new

mutual

def genExpr : Expr → Gen κ Unit
  | .null s => emit .loadNull s.start.line
  | .bool true s => emit .loadTrue s.start.line
  | .bool false s => emit .loadFalse s.start.line
  | .number value s => emitConstant (.number value) s
  | .string _ s => do
    reportCode .stringLiteral s
    emit .loadNull s.start.line
  | .name _ (some id) s => emitLoad id s.start.line
  | .name _ none s => emit .loadNull s.start.line
  | .unary op operand s => do
    genExpr operand
    emit op.opcode s.start.line
  | .binary op left right s => do
    genExpr left
    genExpr right
    emit op.opcode s.start.line
  | .logical op left right s => do
    genExpr left
    let jump ← emitJump op.opcode s.start.line
    emit .pop s.start.line
    genExpr right
    landJump jump s
  | .list items s => do
    let count ← countOperand .elements items.length s
    genExprs items
    emitWith .makeList count s.start.line
  | .index base index s => do
    genExpr base
    genExpr index
    emit .getIndex s.start.line
  | .assign op (.name name id t) value s => do
    genAssigned op (genExpr (.name name id t)) (genExpr value) s.start.line
    emitStore? id s.start.line
  | .assign op (.index base index t) value s => do
    genExpr base
    genExpr index
    genAssigned op (genExpr (.index base index t)) (genExpr value) s.start.line
    emit .setIndex s.start.line
  | .assign op target value s => do
    reportCode .badTarget target.span
    genAssigned op (genExpr target) (genExpr value) s.start.line
  | .call (.property object name t) args s => do
    let count ← countOperand .arguments args.length s
    genExpr object
    genExprs args
    let index ← methodConstant name t
    emitWith .invoke index s.start.line
    emitByte count s.start.line
  | .call callee args s => do
    let count ← countOperand .arguments args.length s
    genExpr callee
    genExprs args
    emitWith .call count s.start.line
  | .property _ _ s => do
    reportCode .propertyAccess s
    emit .loadNull s.start.line
termination_by structural e => e

def genExprs : List Expr → Gen κ Unit
  | [] => pure ()
  | e :: es => do
    genExpr e
    genExprs es
termination_by structural es => es

end

/-- The code of a value that may be left out and is null then. -/
def genExpr? (value : Option Expr) (line : Nat) : Gen κ Unit :=
  match value with
  | some e => genExpr e
  | none => emit .loadNull line

/-- Code with the locals it declares popped at its end. -/
def genInBlock (body : Gen κ Unit) (endLine : Nat) : Gen κ Unit := do
  let start := (← get).height
  body
  emitPops ((← get).height - start) endLine
  modify fun d => { d with height := start }

/-- A conditional: the test decides over a jump behind the first branch, at whose
end a jump leads over the second. -/
def genCond (test thenCode elseCode : Gen κ Unit) (s : Span) : Gen κ Unit := do
  test
  let toElse ← emitJump .jumpIfFalse s.start.line
  emit .pop s.start.line
  thenCode
  let toEnd ← emitJump .jump s.start.line
  landJump toElse s
  emit .pop s.start.line
  elseCode
  landJump toEnd s

mutual

def genStmt : Stmt → Gen κ Unit
  | .block body => genBlock body
  | .var d => do
    genExpr? d.init d.span.start.line
    declareSlot d.id d.nameSpan
  | .cond test thenBlock none s => genCond (genExpr test) (genBlock thenBlock) (pure ()) s
  | .cond test thenBlock (some elseBlock) s =>
    genCond (genExpr test) (genBlock thenBlock) (genBlock elseBlock) s
  | .ret value s => do
    genExpr? value s.start.line
    emit .ret s.start.line
  | .print value s => do
    genExpr value
    emit .print s.start.line
  | .expr value s => do
    genExpr value
    emit .pop s.start.line
termination_by structural s => s

def genBlock : Block Stmt → Gen κ Unit
  | ⟨stmts, s⟩ => genInBlock (genStmts stmts) s.stop.line
termination_by structural b => b

def genStmts : List Stmt → Gen κ Unit
  | [] => pure ()
  | s :: ss => do
    genStmt s
    genStmts ss
termination_by structural ss => ss

end

end ScriptMachine
