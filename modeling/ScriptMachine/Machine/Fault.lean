import ScriptMachine.Chunk.Instruction
import ScriptMachine.Heap.Basic
import ScriptMachine.Number.Numeral

/-! # Faults of a run

Why a run stops early, with the code and the wording of each cause. -/

namespace ScriptMachine

inductive Fault where
  | fetch (fault : FetchFault)
  | noFrame
  | stackUnderflow
  | noLocal (slot : Nat)
  | noGlobal (slot : Nat)
  | methodNameNotString
  | heap (fault : HeapFault)
  | native (message : String)
  | operandsNotNumbers
  | operandNotNumber
  | operandNotBoolean
  | arity (name : String) (expected given : Nat)
  | notSubscriptable
  | indexNotNumber
  | indexNotInteger
  | indexOutOfBounds (index : Float) (size : Nat)
  | stackOverflow
  | notCallable (typeName : String)
  | undefinedMethod (name typeName : String)
  deriving Repr, Inhabited

namespace FetchFault

def message : FetchFault → String
  | .pastEnd => "instruction pointer ran past the chunk"
  | .unknownOpcode byte => "unknown opcode " ++ toString byte
  | .constantOutOfRange index => "constant " ++ toString index ++ " out of range"

end FetchFault

namespace Fault

def code : Fault → String
  | .fetch _ | .noFrame | .stackUnderflow | .noLocal _ | .noGlobal _ | .methodNameNotString
  | .heap _ | .native _ => "E0400"
  | .operandsNotNumbers | .operandNotNumber | .operandNotBoolean => "E0401"
  | .arity .. => "E0402"
  | .notSubscriptable | .indexNotNumber | .indexNotInteger | .indexOutOfBounds .. => "E0403"
  | .stackOverflow => "E0404"
  | .notCallable _ => "E0405"
  | .undefinedMethod .. => "E0406"

def message : Fault → String
  | .fetch fault => fault.message
  | .noFrame => "no active call frame"
  | .stackUnderflow => "value stack underflow"
  | .noLocal slot => "local slot " ++ toString slot ++ " is not on the stack"
  | .noGlobal slot => "global slot " ++ toString slot ++ " is not defined"
  | .methodNameNotString => "method name must be a string"
  | .heap fault => fault.message
  | .native message => message
  | .operandsNotNumbers => "operands must be numbers"
  | .operandNotNumber => "operand must be number"
  | .operandNotBoolean => "operand must be boolean"
  | .arity name expected given =>
    "incorrect number of arguments provided to `" ++ name ++ "`: expected " ++ toString expected ++
      ", got " ++ toString given
  | .notSubscriptable => "object is not subscriptable"
  | .indexNotNumber => "list index must be number"
  | .indexNotInteger => "list index must be an integer"
  | .indexOutOfBounds index size =>
    "index " ++ formatNumber index ++ " out of bounds for list of size " ++ toString size
  | .stackOverflow => "stack overflow"
  | .notCallable typeName => "attempt to call non-callable value of type " ++ typeName
  | .undefinedMethod name typeName =>
    "undefined method `" ++ name ++ "` for " ++ typeName

end Fault

end ScriptMachine
