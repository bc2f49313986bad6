import ScriptMachine.Proofs.Session.Start

/-!
# Every run ends

A script stops after finitely many instructions, whatever its code and its
constants are and whatever native code does, as long as that leaves the code of
functions alone (`every_run_stops`). What it gives is the outcome of a finite run, in
which the code of a frame is read from the heap before every instruction. A machine
whose frames keep their code comes to the same outcome (`exists_ends_kept`).
-/

namespace ScriptMachine

variable {κ σ ε τ : Type}

/-- Runs whose last steps differ only in the names of functions have the same
outcome. -/
theorem RunResult.outcome_eq_of_bare {result result' : RunResult κ σ}
    (h : result.last.bare = result'.last.bare) : result.outcome = result'.outcome := by
  cases result with
  | finished m =>
    cases result' with
    | finished m' =>
      cases h
      rfl
    | faulted fault' frames' m' => cases h
  | faulted fault frames m =>
    cases result' with
    | finished m' => cases h
    | faulted fault' frames' m' =>
      obtain ⟨rfl, hframes, rfl⟩ := StepResult.faulted.inj h
      simp only [RunResult.outcome]
      rw [← traceOf_bare, hframes, traceOf_bare]

/-- A run has the outcome of the machine whose frames keep their code. -/
theorem UpToDate.ends_of_reading {env : Environment κ σ} {frames : Array Frame} {m : Memory κ σ}
    (h : UpToDate env.call frames m.heap) (hcall : LeavesCode env.call) {result : RunResult κ σ}
    (hends : Ends (ScriptMachine.stepReading env) frames m result) :
    ∃ result', Ends (step env) frames m result' ∧ result'.outcome = result.outcome := by
  obtain ⟨frames₁, m₁, hsteps, hlast⟩ := hends
  obtain ⟨hdate, frames₁', hsteps', hbare⟩ := h.steps_of_reading hcall hsteps
  have hsame := (bare_step env hbare m₁).trans (hdate.bare_stepReading hcall).symm
  rw [hlast] at hsame
  cases hnext : step env frames₁' m₁ with
  | running frames₂ m₂ =>
    rw [hnext] at hsame
    cases result <;> cases hsame
  | finished m₂ =>
    rw [hnext] at hsame
    exact ⟨.finished m₂, ⟨frames₁', m₁, hsteps', hnext⟩, RunResult.outcome_eq_of_bare hsame⟩
  | faulted fault frames₂ m₂ =>
    rw [hnext] at hsame
    exact ⟨.faulted fault frames₂ m₂, ⟨frames₁', m₁, hsteps', hnext⟩,
      RunResult.outcome_eq_of_bare hsame⟩

/-- A script stops with an outcome: it is not a function on the heap, or it ends
after finitely many instructions. -/
inductive Stops (env : Environment κ σ) (script : Handle) (m : Memory κ σ) :
    Except RuntimeError Unit × Memory κ σ → Prop
  | missing {fault : HeapFault} (h : m.heap.function script = .error fault) :
      Stops env script m (.error ⟨.heap fault, []⟩, { m with stack := #[] })
  | ended {function : Function} {result : RunResult κ σ}
      (h : m.heap.function script = .ok function)
      (hends : Ends (stepReading env) #[⟨script, function, 1, 0⟩] (m.start script) result) :
      Stops env script m result.outcome

theorem stops_runScript {env : Environment κ σ} {m : Memory κ σ} (hwf : m.heap.WF)
    (hcall : LeavesCode env.call) (script : Handle) :
    Stops env script m (runScript env script m) := by
  cases hfound : m.heap.function script with
  | error fault =>
    rw [runScript_missing hfound]
    exact .missing hfound
  | ok function =>
    obtain ⟨result, hends⟩ := exists_ends_script hwf hcall hfound
    rw [runScript_eq hfound hends]
    exact .ended hfound hends

/-- What a script gives is what the machine gives whose frames keep their code. -/
theorem exists_ends_kept {env : Environment κ σ} {m : Memory κ σ} (hwf : m.heap.WF)
    (hcall : LeavesCode env.call) {script : Handle} {function : Function}
    (hfound : m.heap.function script = .ok function) :
    ∃ result, Ends (step env) #[⟨script, function, 1, 0⟩] (m.start script) result ∧
      runScript env script m = result.outcome := by
  obtain ⟨result, hends⟩ := exists_ends_script hwf hcall hfound
  have hdate : UpToDate env.call #[⟨script, function, 1, 0⟩] (m.start script).heap :=
    .start hwf hfound
  obtain ⟨kept, hkept, houtcome⟩ := hdate.ends_of_reading hcall hends
  exact ⟨kept, hkept, by rw [runScript_eq hfound hends, houtcome]⟩

/-- Every script stops, on every heap and with every configuration, if native code
leaves the code of functions alone. So every source text stops: it has errors, or
its script is on the heap and stops. -/
theorem every_run_stops :
    (∀ (env : Environment κ σ) (m : Memory κ σ) (script : Handle), m.heap.WF →
      LeavesCode env.call → Stops env script m (runScript env script m)) ∧
    ∀ (s : Session ε τ) (host : Host ε τ) (file source : String) (orders : CandidateOrders),
      s.memory.heap.WF → LeavesCode host.call →
      (∃ diagnostics s',
        s.runSource host file source orders = (.error (.compile diagnostics), s')) ∨
      ∃ script s' function result, s.compileSource file source orders = (.ok script, s') ∧
        s'.memory.heap.function script = .ok function ∧
        Ends (stepReading (s'.environment host)) #[⟨script, function, 1, 0⟩]
          (s'.memory.start script) result ∧
        s.runSource host file source orders =
          (result.outcome.1.mapError .runtime, { s' with memory := result.outcome.2 }) := by
  refine ⟨fun env m script hwf hcall => stops_runScript hwf hcall script,
    fun s host file source orders hwf hcall => ?_⟩
  rw [Session.runSource_eq]
  generalize hcompile : s.compileSource file source orders = compiled
  obtain ⟨outcome, s'⟩ := compiled
  cases outcome with
  | error error =>
    obtain ⟨diagnostics, rfl⟩ := Session.compileSource_error hcompile
    exact .inl ⟨diagnostics, s', rfl⟩
  | ok script =>
    obtain ⟨hwf', function, hget⟩ := Session.get_script_of_compileSource hwf hcompile
    have hstops : Stops (s'.environment host) script s'.memory _ :=
      stops_runScript hwf' hcall script
    dsimp only
    unfold Session.execute
    generalize runScript (s'.environment host) script s'.memory = r at hstops
    cases hstops with
    | missing h =>
      rw [Heap.function_eq_ok.2 hget] at h
      cases h
    | @ended function' result h hends =>
      refine .inr ⟨script, s', function', result, rfl, h, hends, ?_⟩
      generalize result.outcome = r
      obtain ⟨outcome, m⟩ := r
      cases outcome <;> rfl

/-- A source text without an end to its calls. -/
def endless : String :=
  "fn main() { main(); }"

/-- The theorem applies: the built-in functions leave code alone, and a source that
compiles is run to an end. -/
theorem every_run_stops_demo : ∃ script, ∃ s' : Session Empty Unit, ∃ function result,
    (Session.new Config.default ()).compileSource "demo" endless = (.ok script, s') ∧
    s'.memory.heap.function script = .ok function ∧
    Ends (stepReading (s'.environment (.plain fun _ => 0))) #[⟨script, function, 1, 0⟩]
      (s'.memory.start script) result ∧
    (Session.new Config.default ()).runSource (.plain fun _ => 0) "demo" endless =
      (result.outcome.1.mapError .runtime, { s' with memory := result.outcome.2 }) := by
  let s : Session Empty Unit := Session.new Config.default ()
  have hok : (s.compileSource "demo" endless).1.isOk = true := by decide +kernel
  have hcall : LeavesCode (Host.plain fun _ => 0).call :=
    KeepsObjects.leavesCode (Host.plain_keepsObjects _)
  rcases (@every_run_stops (NativeCode Empty) (HostState Unit) Empty Unit).2 s (.plain fun _ => 0)
    "demo" endless .asGiven (Session.new_closed _ _).heap.wf hcall with
    ⟨diagnostics, s', herror⟩ | hstops
  · rw [Session.runSource_eq] at herror
    split at herror
    · next hcompile =>
      rw [hcompile] at hok
      cases hok
    · unfold Session.execute at herror
      split at herror <;> cases herror
  · exact hstops

end ScriptMachine
