import ScriptMachine.Source.Position

/-! # Diagnostics

What the tool tells its user about a program: a code, a message, the place in
the file and, depending on the kind of error, notes, a help line, corrections
that an editor can apply, and the call trace of a run that stopped. Every
diagnostic is an error. -/

namespace ScriptMachine

/-- Text to put in place of a span. -/
structure Edit where
  file : String
  span : Span
  replacement : String
  deriving DecidableEq, Repr, Inhabited

/-- A correction with a title, made of edits. -/
structure Correction where
  title : String
  edits : List Edit
  deriving DecidableEq, Repr, Inhabited

/-- A call that was active when a run stopped. -/
structure TraceEntry where
  function : String
  line : Nat
  deriving DecidableEq, Repr, Inhabited

structure Diagnostic where
  code : String
  message : String
  file : String
  span : Span
  trace : List TraceEntry := []
  notes : List String := []
  corrections : List Correction := []
  help : Option String := none
  deriving DecidableEq, Repr, Inhabited

/-- The severity of every diagnostic. -/
def Diagnostic.severity : String := "error"

end ScriptMachine
