/-! # Opcodes

The operations of the machine. The byte of an opcode is its place in the list of
all of them, and its layout says which operand bytes follow it. -/

namespace ScriptMachine

inductive Opcode where
  | constant | loadNull | loadTrue | loadFalse | pop | popN
  | getLocal | setLocal | getGlobal | setGlobal
  | add | sub | mul | div | floorDiv | mod
  | equal | notEqual | less | lessEqual | greater | greaterEqual
  | negate | invert | makeList | getIndex | setIndex
  | jump | jumpIfFalse | jumpIfTrue | call | invoke | ret | print
  deriving DecidableEq, Repr, Inhabited

/-- The operand bytes of an instruction: none; a count or slot; the index of a
constant; a distance in two bytes; or the index of a method name and a count of
arguments. -/
inductive Layout where
  | bare | byte | constant | distance | method
  deriving DecidableEq, Repr, Inhabited

/-- How many operand bytes there are. -/
def Layout.width : Layout → Nat
  | .bare => 0
  | .byte | .constant => 1
  | .distance | .method => 2

namespace Opcode

/-- All opcodes in the order of their bytes. -/
def all : List Opcode :=
  [.constant, .loadNull, .loadTrue, .loadFalse, .pop, .popN,
    .getLocal, .setLocal, .getGlobal, .setGlobal,
    .add, .sub, .mul, .div, .floorDiv, .mod,
    .equal, .notEqual, .less, .lessEqual, .greater, .greaterEqual,
    .negate, .invert, .makeList, .getIndex, .setIndex,
    .jump, .jumpIfFalse, .jumpIfTrue, .call, .invoke, .ret, .print]

/-- The opcode that a byte stands for. -/
def ofByte? (byte : UInt8) : Option Opcode := all[byte.toNat]?

/-- The byte of an opcode. -/
def toByte (op : Opcode) : UInt8 := op.ctorIdx.toUInt8

@[simp] theorem ofByte?_toByte (op : Opcode) : ofByte? op.toByte = some op := by
  cases op <;> rfl

/-- The name of an opcode in listings. -/
def name : Opcode → String
  | .constant => "CONSTANT"
  | .loadNull => "NULL"
  | .loadTrue => "TRUE"
  | .loadFalse => "FALSE"
  | .pop => "POP"
  | .popN => "POP_N"
  | .getLocal => "GET_LOCAL"
  | .setLocal => "SET_LOCAL"
  | .getGlobal => "GET_GLOBAL"
  | .setGlobal => "SET_GLOBAL"
  | .add => "ADD"
  | .sub => "SUB"
  | .mul => "MUL"
  | .div => "DIV"
  | .floorDiv => "FLOOR_DIV"
  | .mod => "MOD"
  | .equal => "EQUAL"
  | .notEqual => "NOT_EQUAL"
  | .less => "LESS"
  | .lessEqual => "LESS_EQUAL"
  | .greater => "GREATER"
  | .greaterEqual => "GREATER_EQUAL"
  | .negate => "NEGATE"
  | .invert => "NOT"
  | .makeList => "LIST"
  | .getIndex => "GET_INDEX"
  | .setIndex => "SET_INDEX"
  | .jump => "JUMP"
  | .jumpIfFalse => "JUMP_IF_FALSE"
  | .jumpIfTrue => "JUMP_IF_TRUE"
  | .call => "CALL"
  | .invoke => "INVOKE"
  | .ret => "RETURN"
  | .print => "PRINT"

/-- Which operand bytes follow an opcode. -/
def layout : Opcode → Layout
  | .constant => .constant
  | .popN | .getLocal | .setLocal | .getGlobal | .setGlobal | .makeList | .call => .byte
  | .jump | .jumpIfFalse | .jumpIfTrue => .distance
  | .invoke => .method
  | _ => .bare

end Opcode

end ScriptMachine
