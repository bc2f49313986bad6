import ScriptMachine.Diagnostic
import ScriptMachine.Report.Json

/-! # Reports

What the tool says about a check or a run, as data for other programs. -/

namespace ScriptMachine

def toolName : String := "flood"

def toolVersion : String := "0.1"

def Position.json (p : Position) : Json := .object [("line", .nat p.line), ("col", .nat p.col)]

def Span.json (s : Span) : Json := .object [("start", s.start.json), ("end", s.stop.json)]

def Edit.json (e : Edit) : Json :=
  .object [("file", .string e.file), ("span", e.span.json), ("replacement", .string e.replacement)]

def Correction.json (c : Correction) : Json :=
  .object [("title", .string c.title), ("edits", .array (c.edits.map Edit.json))]

def TraceEntry.json (e : TraceEntry) : Json :=
  .object [("function", .string e.function), ("line", .nat e.line)]

/-- A diagnostic as data. A trace is there only if it is not empty. -/
def Diagnostic.json (d : Diagnostic) : Json :=
  let trace := if d.trace.isEmpty then [] else [("trace", .array (d.trace.map TraceEntry.json))]
  let help := match d.help with
    | some text => .string text
    | none => .null
  .object <|
    [("code", .string d.code), ("severity", .string severity), ("message", .string d.message),
      ("file", .string d.file), ("span", d.span.json)] ++ trace ++
    [("notes", .array (d.notes.map .string)),
      ("fixits", .array (d.corrections.map Correction.json)), ("help", help)]

/-- The report of a check. -/
def checkReport (diagnostics : List Diagnostic) : Json :=
  .object
    [("tool", .string toolName), ("version", .string toolVersion),
      ("ok", .bool diagnostics.isEmpty), ("diagnostics", .array (diagnostics.map Diagnostic.json))]

/-- The report of a run. A program that could not be read has no output. -/
def runReport (output : Option String) (diagnostics : List Diagnostic) : Json :=
  let stdout := match output with
    | some text => .string text
    | none => .null
  .object
    [("tool", .string toolName), ("version", .string toolVersion),
      ("ok", .bool diagnostics.isEmpty), ("stdout", stdout),
      ("diagnostics", .array (diagnostics.map Diagnostic.json))]

end ScriptMachine
