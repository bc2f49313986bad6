import ScriptMachine.Chunk.Instruction
import ScriptMachine.Value.Display

/-! # Listings of code

A listing has a title and one line for each instruction: its offset, its source
line or a bar where the line is that of the byte before, the name of the opcode
and the operands. A byte that is no opcode is listed as unknown and skipped. -/

namespace ScriptMachine

/-- Fills a text up to a width with characters in front of it. -/
def padLeft (width : Nat) (fill : Char) (text : String) : String :=
  String.ofList (List.replicate (width - text.length) fill) ++ text

/-- Fills a text up to a width with blanks behind it. -/
def padRight (width : Nat) (text : String) : String :=
  text ++ String.ofList (List.replicate (width - text.length) ' ')

/-- A number, right-justified in four columns. -/
def column (n : Nat) : String := padLeft 4 ' ' (toString n)

namespace Chunk

variable {κ : Type}

/-- The text of a constant, or a question mark where the pool has none. -/
def constantText (chunk : Chunk) (heap : Heap κ) (index : UInt8) : String :=
  match chunk.constants[index.toNat]? with
  | some value => heap.display value
  | none => "?"

/-- Where a jump at an offset leads. -/
def jumpTarget (offset : Nat) (i : Instruction) : Nat := offset + i.length + i.distance

/-- The name of the opcode and the operands. -/
def instructionText (chunk : Chunk) (heap : Heap κ) (offset : Nat) (i : Instruction) : String :=
  let name := padRight 16 i.opcode.name
  match i.opcode.layout with
  | .bare => i.opcode.name
  | .byte => name ++ " " ++ column i.first.toNat
  | .constant =>
    name ++ " " ++ column i.first.toNat ++ " '" ++ chunk.constantText heap i.first ++ "'"
  | .distance => name ++ " " ++ column offset ++ " -> " ++ toString (jumpTarget offset i)
  | .method =>
    name ++ " (" ++ toString i.second ++ " args) " ++ column i.first.toNat ++ " '" ++
      chunk.constantText heap i.first ++ "'"

/-- The offset, and the source line unless the byte before has the same. -/
def lineHead (chunk : Chunk) (offset : Nat) : String :=
  let line := chunk.lineAt offset
  padLeft 4 '0' (toString offset) ++ " " ++
    if 0 < offset ∧ line = chunk.lineAt (offset - 1) then "   | " else column line ++ " "

/-- The text of the instruction at an offset, and how many bytes it takes. -/
def listingLine (chunk : Chunk) (heap : Heap κ) (offset : Nat) : String × Nat :=
  match chunk.instructionAt? offset with
  | some i => (chunk.lineHead offset ++ chunk.instructionText heap offset i ++ "\n", i.length)
  | none =>
    (chunk.lineHead offset ++ "<unknown " ++ toString (chunk.byteAt offset) ++ ">\n", 1)

theorem listingLine_pos (chunk : Chunk) (heap : Heap κ) (offset : Nat) :
    0 < (chunk.listingLine heap offset).2 := by
  unfold listingLine
  split
  · simp only [Instruction.length]
    omega
  · exact Nat.one_pos

/-- The listing from an offset on, behind the text `out`. -/
def listingFrom (chunk : Chunk) (heap : Heap κ) (offset : Nat) (out : String) : String :=
  if offset < chunk.code.size then
    have := chunk.listingLine_pos heap offset
    let line := chunk.listingLine heap offset
    listingFrom chunk heap (offset + line.2) (out ++ line.1)
  else out
termination_by chunk.code.size - offset

/-- The listing of a chunk under a title. -/
def listing (chunk : Chunk) (heap : Heap κ) (title : String) : String :=
  chunk.listingFrom heap 0 ("== " ++ title ++ " ==\n")

end Chunk

end ScriptMachine
