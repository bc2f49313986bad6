import ScriptMachine.Chunk.Basic
import ScriptMachine.Chunk.Instruction
import ScriptMachine.Chunk.Listing
import ScriptMachine.Chunk.Opcode
import ScriptMachine.Codegen.Draft
import ScriptMachine.Codegen.Fault
import ScriptMachine.Codegen.Script
import ScriptMachine.Codegen.Statement
import ScriptMachine.CommandLine.Answer
import ScriptMachine.CommandLine.Arguments
import ScriptMachine.CommandLine.Files
import ScriptMachine.Diagnostic
import ScriptMachine.Diagnostic.Render
import ScriptMachine.Heap.Basic
import ScriptMachine.Heap.Collect
import ScriptMachine.Host.Recipe
import ScriptMachine.Library
import ScriptMachine.Machine.Fault
import ScriptMachine.Machine.Perform
import ScriptMachine.Machine.Run
import ScriptMachine.Machine.State
import ScriptMachine.Main
import ScriptMachine.Number.Binary64
import ScriptMachine.Number.Numeral
import ScriptMachine.Number.Rounding
import ScriptMachine.Number.Significant
import ScriptMachine.Program.Basic
import ScriptMachine.Program.Cursor
import ScriptMachine.Program.Expression
import ScriptMachine.Program.Fault
import ScriptMachine.Program.OfSource
import ScriptMachine.Program.Statement
import ScriptMachine.Proofs.Chunk.Lines
import ScriptMachine.Proofs.Chunk.Listing
import ScriptMachine.Proofs.Chunk.Runs
import ScriptMachine.Proofs.Codegen.Accesses
import ScriptMachine.Proofs.Codegen.Agreement
import ScriptMachine.Proofs.Codegen.Compiled
import ScriptMachine.Proofs.Codegen.Edits
import ScriptMachine.Proofs.Codegen.Flow
import ScriptMachine.Proofs.Codegen.Generation
import ScriptMachine.Proofs.Codegen.Heights
import ScriptMachine.Proofs.Codegen.Layout
import ScriptMachine.Proofs.Codegen.Listing
import ScriptMachine.Proofs.Codegen.Liveness
import ScriptMachine.Proofs.Codegen.Origins
import ScriptMachine.Proofs.Codegen.Placement
import ScriptMachine.Proofs.Codegen.Renaming
import ScriptMachine.Proofs.Codegen.Reports
import ScriptMachine.Proofs.Codegen.Settling
import ScriptMachine.Proofs.Codegen.Slotting
import ScriptMachine.Proofs.Codegen.Sparing
import ScriptMachine.Proofs.Codegen.Spelling
import ScriptMachine.Proofs.Codegen.Transcribed
import ScriptMachine.Proofs.Codegen.Transcription
import ScriptMachine.Proofs.Codegen.WellFormed
import ScriptMachine.Proofs.Codegen.Writing
import ScriptMachine.Proofs.CommandLine.Units
import ScriptMachine.Proofs.Diagnostic.Excerpt
import ScriptMachine.Proofs.Diagnostic.Offences
import ScriptMachine.Proofs.Heap.Bookkeeping
import ScriptMachine.Proofs.Heap.Entries
import ScriptMachine.Proofs.Heap.Exactness
import ScriptMachine.Proofs.Heap.Growth
import ScriptMachine.Proofs.Heap.History
import ScriptMachine.Proofs.Heap.Marking
import ScriptMachine.Proofs.Heap.Printed
import ScriptMachine.Proofs.Heap.Renaming
import ScriptMachine.Proofs.Heap.Slab
import ScriptMachine.Proofs.Heap.Written
import ScriptMachine.Proofs.Host.Recipes
import ScriptMachine.Proofs.Machine.Actions
import ScriptMachine.Proofs.Machine.Calls
import ScriptMachine.Proofs.Machine.Concealment
import ScriptMachine.Proofs.Machine.Countdown
import ScriptMachine.Proofs.Machine.Decoding
import ScriptMachine.Proofs.Machine.Frames
import ScriptMachine.Proofs.Machine.Instructions
import ScriptMachine.Proofs.Machine.Intact
import ScriptMachine.Proofs.Machine.Lockstep
import ScriptMachine.Proofs.Machine.Natives
import ScriptMachine.Proofs.Machine.Persistence
import ScriptMachine.Proofs.Machine.Renaming
import ScriptMachine.Proofs.Machine.Rereading
import ScriptMachine.Proofs.Machine.Resuming
import ScriptMachine.Proofs.Machine.Safety
import ScriptMachine.Proofs.Machine.Sparing
import ScriptMachine.Proofs.Machine.Traces
import ScriptMachine.Proofs.Machine.Tracking
import ScriptMachine.Proofs.Machine.Unguarded
import ScriptMachine.Proofs.Number.Decimal
import ScriptMachine.Proofs.Number.Double
import ScriptMachine.Proofs.Number.Nearest
import ScriptMachine.Proofs.Number.Position
import ScriptMachine.Proofs.Program.Branches
import ScriptMachine.Proofs.Program.Corrections
import ScriptMachine.Proofs.Program.Extents
import ScriptMachine.Proofs.Program.Grammar
import ScriptMachine.Proofs.Program.Lookahead
import ScriptMachine.Proofs.Program.Movement
import ScriptMachine.Proofs.Program.Nodes
import ScriptMachine.Proofs.Program.Parsing
import ScriptMachine.Proofs.Program.Reading
import ScriptMachine.Proofs.Program.Recovery
import ScriptMachine.Proofs.Program.Viability
import ScriptMachine.Proofs.Scope.Lexical
import ScriptMachine.Proofs.Scope.Places
import ScriptMachine.Proofs.Scope.Reports
import ScriptMachine.Proofs.Scope.Resolution
import ScriptMachine.Proofs.Scope.Scoped
import ScriptMachine.Proofs.Semantics.Calls
import ScriptMachine.Proofs.Semantics.Expressions
import ScriptMachine.Proofs.Semantics.Following
import ScriptMachine.Proofs.Semantics.Mirror
import ScriptMachine.Proofs.Semantics.Programs
import ScriptMachine.Proofs.Semantics.Reference
import ScriptMachine.Proofs.Semantics.Statements
import ScriptMachine.Proofs.Session.Accepted
import ScriptMachine.Proofs.Session.Carets
import ScriptMachine.Proofs.Session.Dangling
import ScriptMachine.Proofs.Session.Evaluation
import ScriptMachine.Proofs.Session.Isolation
import ScriptMachine.Proofs.Session.Limits
import ScriptMachine.Proofs.Session.Outcomes
import ScriptMachine.Proofs.Session.Policy
import ScriptMachine.Proofs.Session.Registration
import ScriptMachine.Proofs.Session.Rejected
import ScriptMachine.Proofs.Session.Resemblance
import ScriptMachine.Proofs.Session.Robustness
import ScriptMachine.Proofs.Session.Safety
import ScriptMachine.Proofs.Session.Start
import ScriptMachine.Proofs.Session.Termination
import ScriptMachine.Proofs.Session.Traces
import ScriptMachine.Proofs.Source.Lines
import ScriptMachine.Proofs.Text.Distance
import ScriptMachine.Proofs.Token.Lexemes
import ScriptMachine.Proofs.Token.Scanning
import ScriptMachine.Proofs.Token.Separators
import ScriptMachine.Proofs.Token.Spelling
import ScriptMachine.Report
import ScriptMachine.Report.Json
import ScriptMachine.Scope
import ScriptMachine.Session
import ScriptMachine.Source.Lines
import ScriptMachine.Source.Position
import ScriptMachine.Symbol
import ScriptMachine.Text.NameHash
import ScriptMachine.Text.Suggestion
import ScriptMachine.Token
import ScriptMachine.Token.Lexeme
import ScriptMachine.Token.Scan
import ScriptMachine.Value
import ScriptMachine.Value.Display
