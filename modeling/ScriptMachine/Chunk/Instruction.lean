import ScriptMachine.Chunk.Basic

/-! # Instructions

An instruction is an opcode with its operand bytes. `Chunk.fetch` reads one for
execution and stops where the code breaks off; `Chunk.instructionAt?` reads one
for a listing and takes missing operand bytes for zero. -/

namespace ScriptMachine

/-- An opcode with up to two operand bytes, those it does not have being
zero. -/
structure Instruction where
  opcode : Opcode
  first : UInt8 := 0
  second : UInt8 := 0
  deriving DecidableEq, Repr, Inhabited

namespace Instruction

/-- How many bytes the instruction takes. -/
def length (i : Instruction) : Nat := 1 + i.opcode.layout.width

/-- Both operand bytes as one number. -/
def distance (i : Instruction) : Nat := Chunk.wordOf i.first i.second

end Instruction

/-- Why no instruction can be read for execution. -/
inductive FetchFault where
  | pastEnd
  | unknownOpcode (byte : UInt8)
  | constantOutOfRange (index : UInt8)
  deriving DecidableEq, Repr, Inhabited

/-- An instruction and where the next one starts, or a fault and how far reading
came. -/
inductive Fetched where
  | instruction (instruction : Instruction) (next : Nat)
  | fault (fault : FetchFault) (ip : Nat)
  deriving DecidableEq, Repr, Inhabited

namespace Chunk

/-- Reads the instruction at `ip`. The name of a method must be in the pool
before the count of arguments is looked at. -/
def fetch (chunk : Chunk) (ip : Nat) : Fetched :=
  match chunk.code[ip]? with
  | none => .fault .pastEnd ip
  | some byte =>
    match Opcode.ofByte? byte with
    | none => .fault (.unknownOpcode byte) (ip + 1)
    | some opcode =>
      if opcode.layout.width = 0 then .instruction { opcode } (ip + 1)
      else
        match chunk.code[ip + 1]? with
        | none => .fault .pastEnd (ip + 1)
        | some first =>
          if opcode.layout.width = 1 then .instruction { opcode, first } (ip + 2)
          else if opcode.layout = .method ∧ chunk.constants.size ≤ first.toNat then
            .fault (.constantOutOfRange first) (ip + 2)
          else
            match chunk.code[ip + 2]? with
            | none => .fault .pastEnd (ip + 2)
            | some second => .instruction { opcode, first, second } (ip + 3)

/-- The byte at an offset, or zero behind the end. -/
def byteAt (chunk : Chunk) (offset : Nat) : UInt8 := (chunk.code[offset]?).getD 0

/-- The instruction at an offset for a listing, if its opcode is known. A
distance counts only if both its bytes are there. -/
def instructionAt? (chunk : Chunk) (offset : Nat) : Option Instruction :=
  (Opcode.ofByte? (chunk.byteAt offset)).map fun opcode =>
    match opcode.layout with
    | .bare => { opcode }
    | .byte | .constant => { opcode, first := chunk.byteAt (offset + 1) }
    | .distance =>
      match chunk.code[offset + 1]?, chunk.code[offset + 2]? with
      | some first, some second => { opcode, first, second }
      | _, _ => { opcode }
    | .method =>
      { opcode, first := chunk.byteAt (offset + 1), second := chunk.byteAt (offset + 2) }

/-- Fetching moves on by at least one byte and stays within the code. -/
theorem lt_next_of_fetch {chunk : Chunk} {ip next : Nat} {i : Instruction}
    (h : chunk.fetch ip = .instruction i next) : ip < next ∧ next ≤ chunk.code.size := by
  fun_cases fetch chunk ip <;> grind [fetch]

end Chunk

end ScriptMachine
