import ScriptMachine.Proofs.Session.Start

/-!
# When garbage is collected does not show

A program gives the same output, the same result and the same globals whatever
the policy of collection (`Session.runSource_policy`). Both runs are aligned with
the one that never collects, so they cannot be told apart.
-/

namespace ScriptMachine

variable {κ σ : Type} {β : Renaming}

/-! ## What can be seen of a run -/

/-- Aligned states have the same calls in progress. -/
theorem AlignedBy.traceOf_eq {env env' : Environment κ σ} {frames frames' : Array Frame}
    {m m' : Memory κ σ} (h : AlignedBy β env env' frames m frames' m') :
    traceOf m.heap frames = traceOf m'.heap frames' := by
  unfold traceOf
  rw [h.active.size_eq]
  have hcalls := List.rel_reverse
    (List.forall₂_drop (if 1 < frames'.size then 1 else 0) h.active.forall₂)
  rw [← List.forall₂_eq_eq_eq]
  refine List.rel_filterMap (fun frame frame' hframe => ?_) hcalls
  have hfunction := h.memory.heap.function hframe.handle
  generalize m.heap.function frame.handle = found at hfunction
  generalize m'.heap.function frame'.handle = found' at hfunction
  cases hfunction with
  | error fault => exact .none
  | ok hfg => exact .some (by rw [hfg.1, hfg.lineAt_eq, hframe.ip])

/-- The text of every global. -/
def Memory.shownGlobals (m : Memory κ σ) : Array String := m.globals.map m.heap.display

/-- Matching memories show the same globals. -/
theorem Memory.Matches.shownGlobals_eq {m m' : Memory κ σ} (h : Memory.Matches β m m') :
    m.shownGlobals = m'.shownGlobals := by
  refine Array.ext_getElem? fun i => ?_
  simp only [Memory.shownGlobals, Array.getElem?_map]
  have hglobal := h.globals i
  generalize m.globals[i]? = found at hglobal
  generalize m'.globals[i]? = found' at hglobal
  cases hglobal with
  | none => rfl
  | some hvw => simp only [Option.map_some, h.heap.display hvw]

/-- What can be seen of a script that has run: its result, what it has printed,
and the text of every global. -/
def seen (r : Except RuntimeError Unit × Memory κ σ) :
    Except RuntimeError Unit × String × Array String :=
  (r.1, r.2.output, r.2.shownGlobals)

/-- What can be seen of a run is seen of every run that is aligned with it. -/
def RunResult.seen : RunResult κ σ → Except RuntimeError Unit × String × Array String
  | .finished m => (.ok (), m.output, m.shownGlobals)
  | .faulted fault frames m =>
    (.error ⟨fault, traceOf m.heap frames⟩, m.output, m.shownGlobals)

theorem StepResult.Aligned.seen_eq {env env' : Environment κ σ} {r r' : RunResult κ σ}
    (h : StepResult.Aligned env env' r.last r'.last) : r.seen = r'.seen := by
  cases r with
  | finished m =>
    cases r' with
    | finished m' =>
      cases h with
      | finished hm => simp only [RunResult.seen, hm.output, hm.shownGlobals_eq]
    | faulted fault frames m' => cases h
  | faulted fault frames m =>
    cases r' with
    | finished m' => cases h
    | faulted fault' frames' m' =>
      cases h with
      | faulted _ h =>
        obtain ⟨β, h⟩ := h
        simp only [RunResult.seen, h.traceOf_eq, h.memory.output, h.memory.shownGlobals_eq]

theorem seen_runScript {env : Environment κ σ} {script : Handle} {m : Memory κ σ}
    {function : Function} (h : m.heap.function script = .ok function) {result : RunResult κ σ}
    (hends : Ends (stepReading env) #[⟨script, function, 1, 0⟩] (m.start script) result) :
    seen (runScript env script m) = result.seen := by
  rw [runScript_eq h hends]
  cases result <;> rfl

/-- When garbage is collected cannot be seen of a script. -/
theorem Memory.Closed.seen_eq (env env' : Environment κ σ) {m : Memory κ σ}
    (h : m.Closed env.methods) (hframes : env.config.maxFrames = env'.config.maxFrames)
    (hstack : env.config.maxStack = env'.config.maxStack) (hmethods : env.methods = env'.methods)
    (hcall : env.call = env'.call) (hrespects : RespectsRenaming Function.Matches env.call env.call)
    (hkeeps : KeepsObjects env.call) (script : Handle) (collectAt : Nat) :
    seen (runScript env script m) = seen (runScript env' script { m with collectAt }) := by
  cases hfound : m.heap.function script with
  | error fault =>
    rw [runScript_missing hfound, runScript_missing (m := { m with collectAt }) hfound]
    rfl
  | ok function =>
    have hscript := Heap.function_eq_ok.1 hfound
    have hleft := h.aligned rfl rfl rfl hrespects hkeeps hscript m.collectAt
    have hclosed : ({ m with collectAt } : Memory κ σ).Closed env'.methods :=
      ⟨h.heap, h.globals, hmethods ▸ h.methods⟩
    have hright := hclosed.aligned hframes.symm hstack.symm hmethods.symm (hcall ▸ hrespects)
      (hcall ▸ hkeeps) hscript m.collectAt
    obtain ⟨ended, hended⟩ := hleft.exists_ends
    obtain ⟨ended', hended'⟩ := hright.exists_ends
    obtain ⟨result, hends, hseen⟩ := hleft.ends hended
    obtain ⟨result', hends', hseen'⟩ := hright.ends hended'
    obtain rfl := hends.unique hends'
    rw [seen_runScript hfound hended, seen_runScript (m := { m with collectAt }) hfound hended',
      hseen.seen_eq, hseen'.seen_eq]

/-! ## Sessions -/

namespace Session

variable {ε τ : Type}

/-- The session under another policy of collection. -/
def withPolicy (s : Session ε τ) (policy : CollectPolicy) (collectAt : Nat) : Session ε τ :=
  { s with config := { s.config with policy }, memory := { s.memory with collectAt } }

theorem new_withPolicy (config : Config) (policy : CollectPolicy) (state : τ) :
    (new { config with policy } state : Session ε τ) =
      (new config state).withPolicy policy policy.initial := rfl

/-- Compiling does not look at the policy. -/
theorem compile_withPolicy (s : Session ε τ) (policy : CollectPolicy) (collectAt : Nat)
    (program : Program) (file : String) (orders : CandidateOrders) :
    (s.withPolicy policy collectAt).compile program file orders =
      ((s.compile program file orders).1,
        (s.compile program file orders).2.withPolicy policy collectAt) := by
  obtain ⟨config, memory, natives, methods⟩ := s
  unfold compile withPolicy
  dsimp only
  split
  · rfl
  · split <;> rfl

/-- What can be seen of a session that has run a source text. -/
def seenOf (r : Except SessionError Unit × Session ε τ) :
    Except SessionError Unit × String × Array String :=
  (r.1, r.2.memory.output, r.2.memory.shownGlobals)

theorem seenOf_execute (s : Session ε τ) (host : Host ε τ) (script : Handle) :
    seenOf (s.execute host script) =
      ((seen (runScript (s.environment host) script s.memory)).1.mapError .runtime,
        (seen (runScript (s.environment host) script s.memory)).2) := by
  unfold execute
  split <;> next heq => rw [heq]; rfl

/-- The policy of collection cannot be seen of a session that runs a source
text. -/
theorem seenOf_runSource_withPolicy {s : Session Empty Unit} (h : s.Closed)
    (policy : CollectPolicy) (collectAt : Nat) (clock : Nat → Float) (file source : String)
    (orders : CandidateOrders) :
    seenOf ((s.withPolicy policy collectAt).runSource (.plain clock) file source orders) =
      seenOf (s.runSource (.plain clock) file source orders) := by
  unfold runSource
  split
  · rfl
  · next program _ =>
    rw [compile_withPolicy]
    have hcompiled := h.compile program file orders
    generalize s.compile program file orders = compiled at hcompiled
    obtain ⟨result, s'⟩ := compiled
    cases result with
    | error error => rfl
    | ok script =>
      dsimp only at hcompiled ⊢
      rw [seenOf_execute, seenOf_execute]
      have hseen := Memory.Closed.seen_eq (s'.environment (.plain clock))
        ((s'.withPolicy policy collectAt).environment (.plain clock)) hcompiled rfl rfl rfl rfl
        (Host.plain_respectsRenaming clock) (Host.plain_keepsObjects clock) script collectAt
      exact congrArg (fun seen => (seen.1.mapError SessionError.runtime, seen.2)) hseen.symm

/-- Under any two policies of collection, a source text that is run in a fresh
session with the built-in functions gives the same result (success, diagnostics,
or fault and trace), the same output, and the same text of every global. What is
suggested for an unknown name depends on the order in which candidates are tried,
which may be another one in every run, and on nothing else: with the same orders
results are equal, and with others they are the same but for the suggestions. -/
theorem runSource_policy (maxFrames maxStack : Nat) (policy policy' : CollectPolicy)
    (orders orders' : CandidateOrders) (clock : Nat → Float) (file source : String) :
    let run (policy : CollectPolicy) (orders : CandidateOrders) :
        Except SessionError Unit × Session Empty Unit :=
      (new { maxFrames, maxStack, policy } ()).runSource (.plain clock) file source orders
    (run policy orders).1 = (run policy' orders).1 ∧
      (run policy orders).1.mapError SessionError.withoutSuggestions =
        (run policy' orders').1.mapError SessionError.withoutSuggestions ∧
      (run policy orders).2.memory.output = (run policy' orders').2.memory.output ∧
      (run policy orders).2.memory.globals.map (run policy orders).2.memory.heap.display =
        (run policy' orders').2.memory.globals.map
          (run policy' orders').2.memory.heap.display := by
  intro run
  have hseen : seenOf (run policy' orders) = seenOf (run policy orders) := by
    dsimp only [run]
    rw [new_withPolicy { maxFrames, maxStack, policy } policy' ()]
    exact seenOf_runSource_withPolicy (new_closed _ ()) policy' policy'.initial clock file source
      orders
  obtain ⟨hresult, houtput⟩ := Prod.ext_iff.1 hseen
  obtain ⟨houtput, hglobals⟩ := Prod.ext_iff.1 houtput
  have horders : SameButSuggestions (run policy' orders) (run policy' orders') :=
    (new { maxFrames, maxStack, policy := policy' } ()).runSource_orders file orders orders'
      (.plain clock) source
  refine ⟨hresult.symm, ?_, ?_, ?_⟩
  · rw [← horders.result]
    exact congrArg (Except.mapError SessionError.withoutSuggestions) hresult.symm
  · rw [← horders.session]
    exact houtput.symm
  · rw [← horders.session]
    exact hglobals.symm

end Session

end ScriptMachine
