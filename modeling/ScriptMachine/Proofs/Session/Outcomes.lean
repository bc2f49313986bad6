import ScriptMachine.Session

/-!
# What comes of compiling

A program that a session compiles may not resolve, may not fit into its code, or gets a
script (`Session.Compiles`). Facts about sessions that have compiled a program are read off
these outcomes (`Session.compiles`), those about source texts with
`Session.compileSource_eq_ok_iff`.

The order in which candidates for suggestions are tried only shows in the suggestions
themselves: two orders give results that are the same but for these, and the same session
(`SameButSuggestions`).
-/

namespace ScriptMachine

variable {α ε τ : Type}

theorem Resolution.check_eq_ok {r : Resolution} {file : String} {orders : CandidateOrders}
    {program : Program} {symbols : SymbolTable} : r.check file orders = .ok (program, symbols) ↔
      r.errors = [] ∧ r.program = program ∧ r.symbols = symbols := by
  unfold Resolution.check
  split
  · next hempty => simp [List.isEmpty_iff.1 hempty]
  · next hnonempty =>
    have hne : r.errors ≠ [] := fun h => hnonempty (List.isEmpty_iff.2 h)
    simp [hne]

/-! ## What does not depend on the order of candidates -/

/-- A diagnostic but for a suggestion, which is what follows the first note on an unknown
name. -/
def Diagnostic.withoutSuggestion (d : Diagnostic) : Diagnostic :=
  if d.code = "E0300" then { d with notes := d.notes.take 1 } else d

def SessionError.withoutSuggestions : SessionError → SessionError
  | .compile diagnostics => .compile (diagnostics.map Diagnostic.withoutSuggestion)
  | .runtime error => .runtime error

theorem ScopeError.withoutSuggestion_diagnostic (e : ScopeError) (file : String)
    (order order' : CandidateOrder) :
    (e.diagnostic file order).withoutSuggestion = (e.diagnostic file order').withoutSuggestion := by
  obtain ⟨fault, span⟩ := e
  cases fault <;> rfl

/-- A suggestion does depend on the order. -/
example :
    let fault := ScopeFault.unknownName "ad" ["ab", "ac"]
    fault.notes .asGiven ≠ fault.notes ⟨List.reverse, List.mem_reverse⟩ := by decide

theorem Resolution.check_orders (r : Resolution) (file : String)
    (orders orders' : CandidateOrders) :
    (r.check file orders).mapError (·.map Diagnostic.withoutSuggestion) =
      (r.check file orders').mapError (·.map Diagnostic.withoutSuggestion) := by
  unfold Resolution.check
  split
  · rfl
  · refine congrArg Except.error (List.ext_getElem? fun i => ?_)
    rw [List.getElem?_map, List.getElem?_map, List.getElem?_mapIdx, List.getElem?_mapIdx]
    cases r.errors[i]? with
    | none => rfl
    | some e => exact congrArg some (e.withoutSuggestion_diagnostic file (orders i) (orders' i))

namespace Session

/-- Two results that are the same but for the suggestions in diagnostics, with the same
session behind them. -/
structure SameButSuggestions (r r' : Except SessionError α × Session ε τ) : Prop where
  result : r.1.mapError SessionError.withoutSuggestions =
    r'.1.mapError SessionError.withoutSuggestions
  session : r.2 = r'.2

namespace SameButSuggestions

variable {r r' : Except SessionError α × Session ε τ}

theorem refl (r : Except SessionError α × Session ε τ) : SameButSuggestions r r := ⟨rfl, rfl⟩

theorem eq_ok (h : SameButSuggestions r r') {a : α} {s : Session ε τ} (hr : r' = (.ok a, s)) :
    r = (.ok a, s) := by
  obtain ⟨hresult, hsession⟩ := h
  subst hr
  refine Prod.ext ?_ hsession
  generalize r.1 = result at hresult ⊢
  cases result with
  | error error => cases hresult
  | ok b => exact congrArg Except.ok (Except.ok.inj hresult)

end SameButSuggestions

section Orders

variable (s : Session ε τ) (file : String) (orders orders' : CandidateOrders)

theorem compile_orders (parsed : Program) :
    SameButSuggestions (s.compile parsed file orders) (s.compile parsed file orders') := by
  have hchecks := (parsed.resolve s.natives.toList).check_orders file orders orders'
  unfold compile
  generalize (parsed.resolve s.natives.toList).check file orders = checked at hchecks ⊢
  generalize (parsed.resolve s.natives.toList).check file orders' = checked' at hchecks ⊢
  cases checked with
  | error ds =>
    cases checked' with
    | error ds' =>
      exact ⟨congrArg (Except.error ∘ SessionError.compile) (Except.error.inj hchecks), rfl⟩
    | ok => cases hchecks
  | ok =>
    cases checked' with
    | error ds' => cases hchecks
    | ok =>
      cases hchecks
      exact .refl _

theorem compileSource_orders (source : String) :
    SameButSuggestions (s.compileSource file source orders)
      (s.compileSource file source orders') := by
  unfold compileSource
  cases Program.ofSource file source with
  | error => exact .refl _
  | ok parsed => exact s.compile_orders file orders orders' parsed

theorem disassemble_orders (parsed : Program) :
    SameButSuggestions (s.disassemble parsed file orders) (s.disassemble parsed file orders') := by
  have hcompiled := s.compile_orders file orders orders' parsed
  unfold disassemble
  generalize s.compile parsed file orders = r at hcompiled ⊢
  generalize s.compile parsed file orders' = r' at hcompiled ⊢
  obtain ⟨result', s'⟩ := r'
  cases result' with
  | ok script =>
    rw [hcompiled.eq_ok rfl]
    exact .refl _
  | error error' =>
    obtain ⟨result, s''⟩ := r
    obtain ⟨hresult, rfl⟩ := hcompiled
    cases result with
    | ok => cases hresult
    | error error => exact ⟨congrArg Except.error (Except.error.inj hresult), rfl⟩

theorem runSource_orders (host : Host ε τ) (source : String) :
    SameButSuggestions (s.runSource host file source orders)
      (s.runSource host file source orders') := by
  unfold runSource
  cases Program.ofSource file source with
  | error => exact .refl _
  | ok parsed =>
    have hcompiled := s.compile_orders file orders orders' parsed
    dsimp only
    generalize s.compile parsed file orders = r at hcompiled ⊢
    generalize s.compile parsed file orders' = r' at hcompiled ⊢
    obtain ⟨result', s'⟩ := r'
    cases result' with
    | ok script =>
      rw [hcompiled.eq_ok rfl]
      exact .refl _
    | error error' =>
      obtain ⟨result, s''⟩ := r
      obtain ⟨hresult, rfl⟩ := hcompiled
      cases result with
      | ok => cases hresult
      | error error => exact ⟨congrArg Except.error (Except.error.inj hresult), rfl⟩

end Orders

/-! ## Outcomes -/

/-- What may come of compiling a program. Only with a script, the globals change; the objects
that the compiler has allocated stay on the heap in any case. -/
inductive Compiles (s : Session ε τ) (parsed : Program) (file : String) (orders : CandidateOrders) :
    Except SessionError Handle × Session ε τ → Prop
  | unresolved {diagnostics : List Diagnostic}
    (hcheck : (parsed.resolve s.natives.toList).check file orders = .error diagnostics) :
    Compiles s parsed file orders (.error (.compile diagnostics), s)
  | refused {program : Program} {symbols : SymbolTable}
    (hcheck : (parsed.resolve s.natives.toList).check file orders = .ok (program, symbols))
    (herrors : (program.compile s.memory.heap symbols).errors ≠ []) :
    Compiles s parsed file orders
      (.error (.compile
        ((program.compile s.memory.heap symbols).errors.map (·.diagnostic file))),
        { s with memory :=
          { s.memory with heap := (program.compile s.memory.heap symbols).heap } })
  | compiled {program : Program} {symbols : SymbolTable}
    (hcheck : (parsed.resolve s.natives.toList).check file orders = .ok (program, symbols))
    (herrors : (program.compile s.memory.heap symbols).errors = []) :
    Compiles s parsed file orders
      (.ok (program.compile s.memory.heap symbols).script,
        { s with memory :=
          { s.memory with
            heap := (program.compile s.memory.heap symbols).heap
            globals := s.memory.globals.shrink s.natives.size ++
              Array.replicate ((program.compile s.memory.heap symbols).symbols.globalCount -
                (s.memory.globals.shrink s.natives.size).size) .null } })

theorem compiles (s : Session ε τ) (parsed : Program) (file : String) (orders : CandidateOrders) :
    Compiles s parsed file orders (s.compile parsed file orders) := by
  unfold compile
  split
  · next hcheck => exact .unresolved hcheck
  · next hcheck =>
    dsimp only
    split
    · next hempty => exact .compiled hcheck (List.isEmpty_iff.1 hempty)
    · next hnonempty =>
      exact .refused hcheck fun herrors => hnonempty (List.isEmpty_iff.2 herrors)

/-- A source text compiles if there is a program in it that does. -/
theorem compileSource_eq_ok_iff {s s' : Session ε τ} {file source : String}
    {orders : CandidateOrders} {script : Handle} :
    s.compileSource file source orders = (.ok script, s') ↔
      ∃ parsed, Program.ofSource file source = .ok parsed ∧
        s.compile parsed file orders = (.ok script, s') := by
  unfold compileSource
  cases Program.ofSource file source with
  | error diagnostics => simp
  | ok parsed => simp

end Session

end ScriptMachine
