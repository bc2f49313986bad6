import ScriptMachine.Program.Basic

/-! # Symbols

A symbol stands for one declaration. A program's symbols are numbered in the
order in which they are declared; code generation later gives each a slot. The
numbers have no fixed width, and 32 bits hold them as long as a program and its
host have less than 2^32 declarations. -/

namespace ScriptMachine

inductive SymbolKind where
  | local | global
  deriving DecidableEq, Repr, Inhabited

/-- One declaration. The slot of a local counts from the base of its frame, the
slot of a global from the first global. -/
structure Symbol where
  name : String
  span : Span
  kind : SymbolKind
  slot : Option Nat := none
  deriving DecidableEq, Repr, Inhabited

/-- The symbols of a program, in order of declaration. -/
abbrev SymbolTable := Array Symbol

namespace SymbolTable

/-- Gives a symbol its slot. -/
def setSlot (table : SymbolTable) (id : SymbolId) (slot : Nat) : SymbolTable :=
  table.modify id fun symbol => { symbol with slot := some slot }

/-- How many symbols are globals. -/
def globalCount (table : SymbolTable) : Nat := table.countP (·.kind = .global)

end SymbolTable

end ScriptMachine
