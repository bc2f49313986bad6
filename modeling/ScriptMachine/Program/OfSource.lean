import ScriptMachine.Diagnostic
import ScriptMachine.Program.Statement
import ScriptMachine.Token.Scan

/-! # Programs of source files

Scanning and reading a source file, with what goes wrong as diagnostics. -/

namespace ScriptMachine

def LexError.diagnostic (file : String) (e : LexError) : Diagnostic :=
  { code := e.fault.code, message := e.fault.message, file, span := e.span,
    notes := ["Lexer error"] }

/-- The correction that inserts a fix into a file. -/
def Fix.correction (file : String) (fix : Fix) : Correction :=
  ⟨fix.title, [⟨file, .point fix.position, fix.text⟩]⟩

def SyntaxError.diagnostic (file : String) (e : SyntaxError) : Diagnostic :=
  { code := e.fault.code, message := e.fault.message, file, span := e.span,
    notes := ["Parser error"], corrections := (e.fault.fix?.map (·.correction file)).toList }

/-- The program of a source text, or the diagnostics of why it has none. -/
def Program.ofSource (file source : String) : Except (List Diagnostic) Program :=
  match scan source.toList with
  | .error e => .error [e.diagnostic file]
  | .ok stream =>
    match parse stream with
    | .error es => .error (es.map (·.diagnostic file))
    | .ok program => .ok program

end ScriptMachine
