import ScriptMachine.Diagnostic
import ScriptMachine.Source.Lines

/-! # Diagnostics as a terminal shows them

A header, the location, the source line with a row of carets under the span,
then trace, notes and help. A diagnostic with a call trace shows the trace
instead of the source line. -/

namespace ScriptMachine.Diagnostic

/-- The columns under which carets stand: the first one and their number. A
span that ends on its own line gets one caret per column, an empty one a single
caret; a span over several lines is underlined to the end of its first line. -/
def caretColumns (span : Span) (lineLength : Nat) : Nat × Nat :=
  let first := max span.start.col 1
  let past :=
    if span.stop.line = span.start.line then max span.stop.col (first + 1) else lineLength + 1
  (first, max (past - first) 1)

/-- The source line `text` between its number and the row of carets. -/
def excerpt (span : Span) (text : List Char) : String :=
  let gutter := toString span.start.line
  let margin := String.ofList (List.replicate gutter.length ' ')
  let (first, width) := caretColumns span text.length
  margin ++ " |\n" ++ gutter ++ " | " ++ String.ofList text ++ "\n" ++ margin ++ " | " ++
    String.ofList (List.replicate (first - 1) ' ' ++ List.replicate width '^') ++ "\n"

/-- Error code, message and place. -/
def header (d : Diagnostic) : String :=
  severity ++ "[" ++ d.code ++ "]: " ++ d.message ++ "\n --> " ++ d.file ++ ":" ++
    toString d.span.start.line ++ ":" ++ toString d.span.start.col ++ "\n"

/-- The source line a diagnostic points at, if it shows one. -/
def shownLine? (d : Diagnostic) (source : String) : Option (List Char) :=
  if d.trace.isEmpty then line? source.toList d.span.start.line else none

/-- The text a terminal user reads. -/
def render (d : Diagnostic) (source : String) : String :=
  let shown := match d.shownLine? source with
    | some text => excerpt d.span text
    | none => ""
  let trace := d.trace.map fun e => "[line " ++ toString e.line ++ "] in " ++ e.function ++ "\n"
  let notes := d.notes.map fun note => " = note: " ++ note ++ "\n"
  let help := match d.help with
    | some text => " = help: " ++ text ++ "\n"
    | none => ""
  d.header ++ shown ++ String.join trace ++ String.join notes ++ help

/-- Several diagnostics of one source, one after the other. -/
def renderAll (ds : List Diagnostic) (source : String) : String :=
  String.join (ds.map (·.render source))

end ScriptMachine.Diagnostic
