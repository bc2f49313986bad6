import ScriptMachine.Diagnostic

/-! # Errors of code generation

Limits of the code format that a program exceeds, and expressions for which
there is no code. -/

namespace ScriptMachine

/-- Slots are one byte. -/
def maxSlots : Nat := 256

/-- Counts of parameters, arguments and list elements are one byte. -/
def maxCount : Nat := 255

/-- Jump distances are two bytes. -/
def maxDistance : Nat := 65535

/-- What there can be too many of in one expression. -/
inductive CountRole where
  | elements | arguments
  deriving DecidableEq, Repr, Inhabited

def CountRole.noun : CountRole → String
  | .elements => "list elements"
  | .arguments => "call arguments"

inductive CodeFault where
  | jumpTooFar
  | tooManyConstants (function : String)
  | stringLiteral
  | propertyAccess
  | badTarget
  | tooManyGlobals
  | tooManyLocals
  | tooManyParams (function : String)
  | tooMany (role : CountRole) (count : Nat)
  deriving DecidableEq, Repr, Inhabited

namespace CodeFault

def code : CodeFault → String
  | .jumpTooFar => "E0600"
  | .tooManyConstants _ => "E0601"
  | .stringLiteral | .propertyAccess | .badTarget => "E0602"
  | .tooManyGlobals | .tooManyLocals => "E0603"
  | .tooManyParams _ | .tooMany .. => "E0604"

def message : CodeFault → String
  | .jumpTooFar => "jump too far"
  | .tooManyConstants function => "too many constants in `" ++ function ++ "`"
  | .stringLiteral => "string literals are not supported"
  | .propertyAccess => "property access is only supported in method calls"
  | .badTarget => "invalid assignment target"
  | .tooManyGlobals => "too many global variables"
  | .tooManyLocals => "too many local variables in function"
  | .tooManyParams function => "too many parameters in `" ++ function ++ "`"
  | .tooMany role count =>
    "too many " ++ role.noun ++ ": " ++ toString count ++ " (limit " ++ toString maxCount ++ ")"

def note : CodeFault → String
  | .tooManyGlobals => "At most " ++ toString maxSlots ++ " globals, builtins included."
  | _ => "Code generation error"

end CodeFault

structure CodeError where
  fault : CodeFault
  span : Span
  deriving DecidableEq, Repr, Inhabited

def CodeError.diagnostic (file : String) (e : CodeError) : Diagnostic :=
  { code := e.fault.code, message := e.fault.message, file, span := e.span,
    notes := [e.fault.note] }

end ScriptMachine
