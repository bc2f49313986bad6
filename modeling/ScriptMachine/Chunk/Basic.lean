import ScriptMachine.Chunk.Opcode
import ScriptMachine.Value

/-! # Chunks

The code of one function: bytes, a pool of constants, and the source line of
every byte. Lines are kept as runs of bytes that share one. -/

namespace ScriptMachine

/-- The most constants a chunk can hold, since an index is one byte. -/
def maxConstants : Nat := 256

/-- A run of code bytes from one source line. Its length has no fixed width, and
32 bits hold it as long as the code has less than 2^32 bytes. -/
structure LineRun where
  line : Nat
  length : Nat
  deriving DecidableEq, Repr, Inhabited

structure Chunk where
  code : Array UInt8 := #[]
  constants : Array Value := #[]
  lines : Array LineRun := #[]
  deriving Repr, Inhabited

/-- The line of the byte at `offset` in consecutive runs; behind the last run it
is the line of that run, or `last` if there is none. -/
def lineOfRuns (last : Nat) (offset : Nat) : List LineRun → Nat
  | [] => last
  | run :: runs =>
    if offset < run.length then run.line else lineOfRuns run.line (offset - run.length) runs

namespace Chunk

/-- Adds a byte that belongs to a source line. -/
def write (chunk : Chunk) (byte : UInt8) (line : Nat) : Chunk :=
  let lines := match chunk.lines.back? with
    | some run =>
      if run.line = line then chunk.lines.pop.push { run with length := run.length + 1 }
      else chunk.lines.push ⟨line, 1⟩
    | none => chunk.lines.push ⟨line, 1⟩
  { chunk with code := chunk.code.push byte, lines }

/-- Adds an opcode. -/
def writeOp (chunk : Chunk) (op : Opcode) (line : Nat) : Chunk := chunk.write op.toByte line

/-- Adds a constant and gives its index, unless the pool is full. -/
def addConstant (chunk : Chunk) (value : Value) : Option UInt8 × Chunk :=
  if maxConstants ≤ chunk.constants.size then (none, chunk)
  else (some chunk.constants.size.toUInt8, { chunk with constants := chunk.constants.push value })

/-- The source line of the byte at an offset. Behind the code it is the last
line, and zero if there is no code. -/
def lineAt (chunk : Chunk) (offset : Nat) : Nat := lineOfRuns 0 offset chunk.lines.toList

/-- Two bytes as a number, the high one first. -/
def wordOf (high low : UInt8) : Nat := 256 * high.toNat + low.toNat

/-- The two bytes at an offset as a number. -/
def word? (chunk : Chunk) (offset : Nat) : Option Nat :=
  match chunk.code[offset]?, chunk.code[offset + 1]? with
  | some high, some low => some (wordOf high low)
  | _, _ => none

end Chunk

end ScriptMachine
