import ScriptMachine.Proofs.Machine.Resuming
import ScriptMachine.Proofs.Machine.Sparing
import ScriptMachine.Proofs.Session.Dangling
import ScriptMachine.Proofs.Session.Policy
import ScriptMachine.Proofs.Session.Resemblance
import ScriptMachine.Proofs.Session.Safety

/-!
# Runs of one session are isolated

What a session has run before does not show in what it runs next (`Session.runs_isolated`):
a source text gives the result and the output that it gives in a fresh session, provided
that no earlier source text assigns to a native.

A script runs in a session that resembles a fresh one as it runs in the fresh one, whose
run ends in a session that still has what the fresh one had (`Session.StartsAlike.spares`).
So the first session resembles the fresh one again, whatever the script has left behind.
-/

namespace ScriptMachine

variable {κ σ ε τ : Type} {β γ : Renaming}

/-! ## Scripts that start alike -/

/-- The script `a` with the function `f` starts in a state that is aligned with the one in
which the script `b` with the function `g` starts. -/
structure StartsAlike (env env' : Environment κ σ) (m m' : Memory κ σ) (a b : Handle)
    (f g : Function) : Prop where
  left : m.heap.get a = .ok (.function f)
  right : m'.heap.get b = .ok (.function g)
  aligned : Aligned env env' #[⟨a, f, 1, 0⟩] (m.start a) #[⟨b, g, 1, 0⟩] (m'.start b)

section StartsAlike

variable {env env' : Environment κ σ} {m m' : Memory κ σ} {a b : Handle} {f g : Function}

/-- Scripts that start alike cannot be told apart. -/
theorem StartsAlike.seen_eq (h : StartsAlike env env' m m' a b f g)
    (h' : StartsAlike env' env' m' m' b b g g) :
    seen (runScript env a m) = seen (runScript env' b m') := by
  obtain ⟨ended, hended⟩ := h.aligned.exists_ends
  obtain ⟨ended', hended'⟩ := h'.aligned.exists_ends
  obtain ⟨result, hends, hseen⟩ := h.aligned.ends hended
  obtain ⟨result', hends', hseen'⟩ := h'.aligned.ends hended'
  obtain rfl := hends.unique hends'
  rw [seen_runScript (Heap.function_eq_ok.2 h.left) hended,
    seen_runScript (Heap.function_eq_ok.2 h.right) hended', hseen.seen_eq, hseen'.seen_eq]

theorem RunResult.heap_outcome (result : RunResult κ σ) :
    result.outcome.2.heap = result.last.memory.heap := by
  cases result <;> rfl

theorem RunResult.globals_outcome (result : RunResult κ σ) :
    result.outcome.2.globals = result.last.memory.globals := by
  cases result <;> rfl

theorem StepResult.Aligned.exists_matches {r r' : StepResult κ σ}
    (h : StepResult.Aligned env env' r r') :
    ∃ γ, Environment.Matches γ env env' ∧ Memory.Matches γ r.memory r'.memory := by
  cases h with
  | running h =>
    obtain ⟨γ, h⟩ := h
    exact ⟨γ, h.environment, h.memory⟩
  | finished hm henv => exact ⟨_, henv, hm⟩
  | faulted fault h =>
    obtain ⟨γ, h⟩ := h
    exact ⟨γ, h.environment, h.memory⟩

/-- A script that starts like one whose code stores into no global below `lo` leaves these
globals as they are. It ends like a run on a heap that only lists have changed on, with
these globals as well. -/
theorem StartsAlike.spares (h : StartsAlike env env' m m' a b f g) (hkeeps : KeepsObjects env'.call)
    (hwf : m'.heap.WF) {lo : Nat} (hsparing : Sparing lo #[⟨b, g, 1, 0⟩] m'.heap) :
    SameBelow lo m.globals (runScript env a m).2.globals ∧
      ∃ γ, ∃ m'' : Memory κ σ, Environment.Matches γ env env' ∧
      Heap.Matches Function.Matches γ (runScript env a m).2.heap m''.heap ∧
      Pointwise (Value.Matches γ) (runScript env a m).2.globals m''.globals ∧
      m'.heap.Evolves m''.heap ∧ SameBelow lo m'.globals m''.globals := by
  obtain ⟨ended, hrun⟩ := h.aligned.exists_ends
  obtain ⟨result, hends, haligned⟩ := h.aligned.ends hrun
  obtain ⟨γ, henv, hmemory⟩ := haligned.exists_matches
  rw [runScript_eq (Heap.function_eq_ok.2 h.left) hrun, RunResult.heap_outcome,
    RunResult.globals_outcome]
  have hstart : Sparing lo #[⟨b, g, 1, 0⟩] (m'.start b).heap := hsparing
  refine ⟨h.aligned.ends_sparing hstart hkeeps hwf hrun, γ, result.last.memory, henv,
    hmemory.heap, hmemory.globals, ?_, hstart.ends hkeeps hwf hends⟩
  have hevolves : m'.heap.Evolves (m'.start b).heap := .refl hwf
  exact Ends.maintains (hkeeps.stable m'.heap) hevolves hends

end StartsAlike

/-! ## Code that spares the natives -/

theorem Program.Code.spares {program : Program} {k : Site κ} {function : Function}
    {boundaries : List (Nat × Nat)} (h : program.Code k function boundaries)
    {lo hosts globals count : Nat} (hscoped : program.Scoped hosts globals count) (hlo : lo ≤ hosts)
    (ha : ∀ id ∈ program.assigns, lo ≤ id) : k.chunk.Spares lo 0 := by
  cases h with
  | script _ _ hfns h => exact h.spares hfns hscoped hlo ha
  | fn hd _ _ h =>
    refine h.spares fun id hid => ha id ?_
    exact List.mem_flatMap.2 ⟨_, Program.mem_fns.1 hd, hid⟩

/-- No assignment in the source text targets a name that resolves to a native. -/
def sparesNatives (natives : Array String) (file source : String) : Bool :=
  match Program.ofSource file source with
  | .error _ => true
  | .ok program => (program.resolve natives.toList).program.assigns.all (natives.size ≤ ·)

namespace Session

/-- When a program has compiled that assigns to no native, the code of all functions on the
heap spares the natives. -/
theorem Loaded.sparing {s s' : Session ε τ} {program : Program} {count : Nat} {script : Handle}
    {fns : List (FnDecl × Handle)} (h : s.Loaded s' program count script fns)
    (ha : ∀ id ∈ program.assigns, s.natives.size ≤ id) {function : Function}
    (hget : s'.memory.heap.get script = .ok (.function function)) :
    Sparing s.natives.size #[⟨script, function, 1, 0⟩] s'.memory.heap := by
  have hfunctions : ∀ {handle f}, s'.memory.heap.get handle = .ok (.function f) →
      f.chunk.Spares s.natives.size 0 := by
    intro handle f hget
    obtain ⟨_, _, hcode⟩ := h.code hget
    exact hcode.spares h.compiled.inScope (Nat.le_refl _) ha
  refine ⟨fun frame hframe => ?_, hfunctions⟩
  obtain rfl : frame = _ := by simpa using hframe
  exact hfunctions hget

variable {s s' s₀ s₀' : Session ε τ} {host : Host ε τ}
  (hrespects : RespectsRenaming Function.Matches host.call host.call)
  (hkeeps : KeepsObjects host.call)

include hrespects hkeeps

theorem Alike.starts (h : Alike γ s s₀)
    (hglobals : Pointwise (Value.Matches γ) s.memory.globals s₀.memory.globals)
    (houtput : s.memory.output = s₀.memory.output) (hhost : s.memory.host = s₀.memory.host)
    {a b : Handle} (hab : γ a b) {g : Function} (hget : s₀.memory.heap.get b = .ok (.function g)) :
    ∃ f, StartsAlike (s.environment host) (s₀.environment host) s.memory s₀.memory a b f g := by
  obtain ⟨x, y, hx, hy, hxy⟩ := h.heap.objects hab
  rw [hget] at hy
  cases hy
  cases hxy with
  | @function f _ hfg =>
    have hconfig := h.config_eq
    refine ⟨f, hx, hget, γ, ⟨congrArg Config.maxFrames hconfig, congrArg Config.maxStack hconfig,
      h.methods, hrespects⟩, hkeeps, .push .empty ⟨hab, hfg, rfl, rfl⟩, fun frame hframe => ?_, ?_⟩
    · obtain rfl : frame = _ := by simpa using hframe
      exact hx
    · exact ⟨h.heap, .push .empty (.object hab), hglobals, houtput, hhost⟩

theorem Closed.starts_self (h : s.Closed) {b : Handle} {g : Function}
    (hget : s.memory.heap.get b = .ok (.function g)) :
    StartsAlike (s.environment host) (s.environment host) s.memory s.memory b b g g :=
  have hclosed : s.memory.Closed (s.environment host).methods := h
  ⟨hget, hget, hclosed.aligned rfl rfl rfl hrespects hkeeps hget s.memory.collectAt⟩

end Session

namespace Session

/-! ## Runs in a session that resembles a fresh one -/

variable {s s' s₀ s₀' : Session ε τ}

/-- Compiling changes nothing in the memory but the heap and the globals. -/
theorem memory_compile (s : Session ε τ) (program : Program) (file : String)
    (orders : CandidateOrders) :
    (s.compile program file orders).2.memory = { s.memory with
      heap := (s.compile program file orders).2.memory.heap
      globals := (s.compile program file orders).2.memory.globals } := by
  have hcompiles := s.compiles program file orders
  generalize s.compile program file orders = result at hcompiles ⊢
  cases hcompiles <;> rfl

theorem snd_execute (s : Session ε τ) (host : Host ε τ) (script : Handle) :
    (s.execute host script).2 =
      { s with memory := (runScript (s.environment host) script s.memory).2 } := by
  unfold Session.execute
  split <;> next heq => rw [heq]

theorem fst_execute (s : Session ε τ) (host : Host ε τ) (script : Handle) :
    (s.execute host script).1 =
      (runScript (s.environment host) script s.memory).1.mapError .runtime := by
  unfold Session.execute
  split <;> next heq => rw [heq]; rfl

/-- What cannot be compiled in the fresh session cannot be compiled in one that resembles it,
for the same reasons. -/
theorem ResemblesBy.compile_error (h : ResemblesBy β s s₀) {program : Program} {file : String}
    {orders : CandidateOrders} {error : SessionError}
    (hcompile : s₀.compile program file orders = (.error error, s₀')) :
    ∃ s', s.compile program file orders = (.error error, s') := by
  obtain ⟨γ, -, hcompiled⟩ := h.compile program file orders
  rw [hcompile] at hcompiled
  generalize s.compile program file orders = r at hcompiled
  cases hcompiled with
  | error h error => exact ⟨_, rfl⟩

/-- What compiles in the fresh session starts in the same way in one that resembles it. -/
theorem ResemblesBy.compile_ok {host : Host ε τ}
    (hrespects : RespectsRenaming Function.Matches host.call host.call)
    (hkeeps : KeepsObjects host.call) (h : ResemblesBy β s s₀)
    (houtput : s.memory.output = s₀.memory.output) (hhost : s.memory.host = s₀.memory.host)
    {program : Program} {file : String} {orders : CandidateOrders} {b : Handle}
    (hcompile : s₀.compile program file orders = (.ok b, s₀')) {g : Function}
    (hget : s₀'.memory.heap.get b = .ok (.function g)) :
    ∃ a s' f, s.compile program file orders = (.ok a, s') ∧
      StartsAlike (s'.environment host) (s₀'.environment host) s'.memory s₀'.memory a b f g := by
  obtain ⟨γ, -, hcompiled⟩ := h.compile program file orders
  have hmemory := memory_compile s program file orders
  have hmemory₀ := memory_compile s₀ program file orders
  rw [hcompile] at hcompiled hmemory₀
  generalize s.compile program file orders = r at hcompiled hmemory
  cases hcompiled with
  | @ok s' _ halike hglobals a _ hab =>
    have houtput' : s'.memory.output = s₀'.memory.output := by rw [hmemory, hmemory₀]; exact houtput
    have hhost' : s'.memory.host = s₀'.memory.host := by rw [hmemory, hmemory₀]; exact hhost
    obtain ⟨f, hstarts⟩ := halike.starts hrespects hkeeps hglobals houtput' hhost' hab hget
    exact ⟨a, s', f, rfl, hstarts⟩

/-- The session with another output and another state of the host. -/
def withPast (s : Session ε τ) (output : String) (host : HostState τ) : Session ε τ :=
  { s with memory := { s.memory with output, host } }

theorem Fresh.withPast (h : s.Fresh) (output : String) (host : HostState τ) :
    (s.withPast output host).Fresh :=
  ⟨⟨h.closed.heap, h.closed.globals, h.closed.methods⟩, h.globals_eq, h.noFunction, h.methods⟩

theorem ResemblesBy.withPast (h : ResemblesBy β s s₀) (output : String) (host : HostState τ) :
    ResemblesBy β s (s₀.withPast output host) :=
  ⟨⟨h.config_eq, h.natives_eq, h.methods, h.heap⟩, h.globals⟩

section Runs

variable {host : Host ε τ} (hrespects : RespectsRenaming Function.Matches host.call host.call)
  (hkeeps : KeepsObjects host.call)

include hrespects hkeeps

/-- A source text gives the same result and the same output in a session that resembles a
fresh one, if the outputs and the hosts are the same. -/
theorem ResemblesBy.runSource_alike (h : ResemblesBy β s s₀) (hs₀ : s₀.Fresh)
    (houtput : s.memory.output = s₀.memory.output) (hhost : s.memory.host = s₀.memory.host)
    (file source : String) (orders : CandidateOrders) :
    (s.runSource host file source orders).1 = (s₀.runSource host file source orders).1 ∧
      (s.runSource host file source orders).2.memory.output =
        (s₀.runSource host file source orders).2.memory.output := by
  unfold Session.runSource
  split
  · exact ⟨rfl, houtput⟩
  · next program _ =>
    have hmemory := memory_compile s program file orders
    have hmemory₀ := memory_compile s₀ program file orders
    generalize hcompile : s₀.compile program file orders = compiled at hmemory₀ ⊢
    obtain ⟨outcome, s₀'⟩ := compiled
    cases outcome with
    | error error =>
      obtain ⟨s', hcompile'⟩ := h.compile_error hcompile
      rw [hcompile'] at hmemory ⊢
      refine ⟨rfl, ?_⟩
      dsimp only at hmemory hmemory₀ ⊢
      rw [hmemory, hmemory₀]
      exact houtput
    | ok b =>
      obtain ⟨_, _, fns, -, hloaded⟩ := hs₀.compile hcompile
      obtain ⟨chunk, _, hget, -⟩ := hloaded.compiled.scriptPlaced
      obtain ⟨a, s', f, hcompile', hstarts⟩ :=
        h.compile_ok hrespects hkeeps houtput hhost hcompile hget
      have hseen := hstarts.seen_eq (hloaded.closed.starts_self hrespects hkeeps hget)
      obtain ⟨hresult, hrest⟩ := Prod.ext_iff.1 hseen
      rw [hcompile']
      dsimp only
      rw [fst_execute, fst_execute, snd_execute, snd_execute]
      exact ⟨congrArg (Except.mapError SessionError.runtime) hresult, (Prod.ext_iff.1 hrest).1⟩

omit hrespects in
/-- Behind a script that starts like one of a session that has what `s₀` had, and that assigns to
no native, the session resembles `s₀`, and its natives are where they were. -/
theorem Keeps.execute (h : Keeps s₀ s₀') (hs₀ : s₀.Fresh) (hnatives : s₀.memory.heap.OnlyNatives)
    (hconfig : s'.config = s₀'.config) (hnames : s'.natives = s₀'.natives) {a b : Handle}
    {f g : Function}
    (hstarts : StartsAlike (s'.environment host) (s₀'.environment host) s'.memory
      s₀'.memory a b f g) (hsparing : Sparing s₀.natives.size #[⟨b, g, 1, 0⟩] s₀'.memory.heap) :
    (s'.execute host a).2.Resembles s₀ ∧
      SameBelow s₀.natives.size s'.memory.globals (s'.execute host a).2.memory.globals := by
  obtain ⟨hsame, γ, m, henv, hheap, hglobals, hevolves, hsame₀⟩ :=
    hstarts.spares hkeeps h.heap.wf hsparing
  rw [snd_execute]
  refine ⟨?_, hsame⟩
  let left : Session ε τ := { s' with memory := (runScript (s'.environment host) a s'.memory).2 }
  let right : Session ε τ := { s₀' with memory := m }
  have hkept : Keeps s₀ right := ⟨h.config_eq, h.natives_eq, h.methods_eq,
    h.heap.trans hevolves.toKept, h.globals.trans hsame₀⟩
  have halike : Alike γ left right := ⟨hconfig, hnames, henv.methods, hheap⟩
  exact halike.resembles hkept hs₀.closed hnatives fun i _ => hglobals i

/-- A session still resembles the fresh one when it has run a source text that assigns to no
native, and its natives are where they were. -/
theorem Resembles.runSource (h : s.Resembles s₀) (hs₀ : s₀.Fresh)
    (hnatives : s₀.memory.heap.OnlyNatives) {file source : String} (orders : CandidateOrders)
    (hspares : sparesNatives s.natives file source = true) :
    (s.runSource host file source orders).2.Resembles s₀ ∧
      SameBelow s.natives.size s.memory.globals
        (s.runSource host file source orders).2.memory.globals := by
  have hcompiled := fun program => h.compile hs₀ hnatives program file orders
  obtain ⟨β, h⟩ := h
  unfold sparesNatives at hspares
  unfold Session.runSource
  split
  · exact ⟨⟨β, h⟩, .refl _ _⟩
  · next program hparsed =>
    rw [hparsed] at hspares
    have hcompiled := hcompiled program
    have hleft := compile_keeps h.heap.left_wf (h.natives_le hs₀) program file orders
    -- The fresh session is given the past of `s`, so that both scripts start alike.
    have h₁ := h.withPast s.memory.output s.memory.host
    have hs₁ := hs₀.withPast s.memory.output s.memory.host
    generalize hcompile :
      (s₀.withPast s.memory.output s.memory.host).compile program file orders = compiled
    obtain ⟨outcome, s₁'⟩ := compiled
    cases outcome with
    | error error =>
      obtain ⟨s', hcompile'⟩ := h₁.compile_error hcompile
      rw [hcompile'] at hcompiled hleft ⊢
      exact ⟨hcompiled, hleft.globals⟩
    | ok b =>
      have hright :=
        compile_keeps hs₁.closed.heap.wf (Nat.le_of_eq hs₁.globals_eq.symm) program file orders
      rw [hcompile] at hright
      obtain ⟨resolved, _, fns, hcheck, hloaded⟩ := hs₁.compile hcompile
      obtain ⟨chunk, _, hget, -⟩ := hloaded.compiled.scriptPlaced
      obtain ⟨a, s', f, hcompile', hstarts⟩ :=
        h₁.compile_ok hrespects hkeeps rfl rfl hcompile hget
      have ha : ∀ id ∈ resolved.assigns, s₀.natives.size ≤ id := by
        obtain ⟨-, rfl, -⟩ := Resolution.check_eq_ok.1 hcheck
        rw [h.natives_eq] at hspares
        exact fun id hid => of_decide_eq_true (List.all_eq_true.1 hspares id hid)
      have hkept : Keeps s₀ s₁' := ⟨hright.config_eq, hright.natives_eq, hright.methods_eq,
        hright.heap, hright.globals⟩
      rw [hcompile'] at hleft ⊢
      have hconfig := hleft.config_eq.trans (h.config_eq.trans hright.config_eq.symm)
      have hnames := hleft.natives_eq.trans (h.natives_eq.trans hright.natives_eq.symm)
      obtain ⟨hresembles, hsame⟩ := hkept.execute hkeeps hs₀ hnatives hconfig hnames hstarts
        (hloaded.sparing ha hget)
      exact ⟨hresembles, hleft.globals.trans (h.natives_eq ▸ hsame)⟩

end Runs

/-! ## One call after the other -/

/-- No source text that the call runs assigns to a native. -/
def Call.sparesNatives (natives : Array String) : Call → Bool
  | .runSource file source _ => ScriptMachine.sparesNatives natives file source
  | _ => true

section Calls

variable {host : Host ε τ} (hrespects : RespectsRenaming Function.Matches host.call host.call)
  (hkeeps : KeepsObjects host.call)

include hrespects hkeeps

theorem Resembles.after (h : s.Resembles s₀) (hs₀ : s₀.Fresh)
    (hnatives : s₀.memory.heap.OnlyNatives) {call : Call}
    (hspares : call.sparesNatives s.natives = true) :
    (after host s call).Resembles s₀ ∧
      SameBelow s.natives.size s.memory.globals (Session.after host s call).memory.globals := by
  have hcompiled : ∀ program file orders, (s.compile program file orders).2.Resembles s₀ ∧
      SameBelow s.natives.size s.memory.globals
        (s.compile program file orders).2.memory.globals := by
    intro program file orders
    refine ⟨h.compile hs₀ hnatives program file orders, ?_⟩
    obtain ⟨β, h⟩ := h
    exact (compile_keeps h.heap.left_wf (h.natives_le hs₀) program file orders).globals
  cases call with
  | runSource file source orders => exact h.runSource hrespects hkeeps hs₀ hnatives orders hspares
  | compile program file orders => exact hcompiled program file orders
  | disassemble program file orders =>
    show (s.disassemble program file orders).2.Resembles s₀ ∧
      SameBelow _ _ (s.disassemble program file orders).2.memory.globals
    rw [snd_disassemble]
    exact hcompiled program file orders
  | collectGarbage => exact ⟨h.collectGarbage, .refl _ _⟩
  | takeOutput => exact ⟨h.of_parts rfl rfl rfl rfl rfl, .refl _ _⟩

theorem Resembles.foldl_after (h : s.Resembles s₀) (hs₀ : s₀.Fresh)
    (hnatives : s₀.memory.heap.OnlyNatives) (calls : List Call)
    (hcalls : ∀ call ∈ calls, call.sparesNatives s₀.natives = true) :
    (calls.foldl (Session.after host) s).Resembles s₀ := by
  induction calls generalizing s with
  | nil => exact h
  | cons call calls ih =>
    obtain ⟨hcall, hrest⟩ := List.forall_mem_cons.1 hcalls
    exact ih (h.after hrespects hkeeps hs₀ hnatives (h.natives_eq ▸ hcall)).1 hrest

end Calls

/-! ## A fresh session with a past -/

variable {before : String} {later : HostState τ → HostState τ}

/-- The session behind some output, with its host in a later state. -/
def resumed (before : String) (later : HostState τ → HostState τ) (s : Session ε τ) :
    Session ε τ :=
  { s with memory := s.memory.resumed before later }

/-- Compiling does not look at the past. -/
theorem compile_resumed (s : Session ε τ) (before : String) (later : HostState τ → HostState τ)
    (program : Program) (file : String) (orders : CandidateOrders) :
    (s.resumed before later).compile program file orders =
      ((s.compile program file orders).1,
        (s.compile program file orders).2.resumed before later) := by
  obtain ⟨config, memory, natives, methods⟩ := s
  unfold compile resumed
  dsimp only [Memory.resumed]
  split
  · rfl
  · split <;> rfl

/-- A source text gives the same result with a past, and appends the same output. -/
theorem runSource_resumed (s : Session ε τ) (before : String) {host host' : Host ε τ}
    (hhost : ∀ s : Session ε τ,
      Environment.Resumes later (s.environment host) (s.environment host'))
    (file source : String) (orders : CandidateOrders) :
    (s.resumed before later).runSource host' file source orders =
      ((s.runSource host file source orders).1,
        (s.runSource host file source orders).2.resumed before later) := by
  unfold runSource
  split
  · rfl
  · next program _ =>
    rw [compile_resumed]
    generalize s.compile program file orders = compiled
    obtain ⟨outcome, s'⟩ := compiled
    cases outcome with
    | error error => rfl
    | ok script =>
      have hrun := (hhost s').runScript before script s'.memory
      dsimp only
      refine Prod.ext ?_ ?_
      · rw [fst_execute, fst_execute]
        exact congrArg (fun r => r.1.mapError SessionError.runtime) hrun
      · rw [snd_execute, snd_execute]
        exact congrArg (fun r => { s' with memory := r.2 }) hrun

/-- Runs of one session are isolated. After any calls none of which runs a source text that
assigns to a native, a source text gives the result that it gives in a fresh session with the
same limits and the same readings of the clock, and appends what it prints there. Candidates for
suggestions may be tried in other orders in the fresh session: then the results are the same
but for the suggestions. -/
theorem runs_isolated (config : Config) (clock : Nat → Float) (calls : List Call)
    (hcalls : ∀ call ∈ calls,
      call.sparesNatives (new config () : Session Empty Unit).natives = true)
    (file source : String) (orders orders' : CandidateOrders) :
    let s : Session Empty Unit := calls.foldl (after (.plain clock)) (new config ())
    let later : Nat → Float := fun n => clock (s.memory.host.readings + n)
    let run := s.runSource (.plain clock) file source orders
    let fresh (orders : CandidateOrders) :=
      (new config () : Session Empty Unit).runSource (.plain later) file source orders
    run.1 = (fresh orders).1 ∧
      run.1.mapError SessionError.withoutSuggestions =
        (fresh orders').1.mapError SessionError.withoutSuggestions ∧
      run.2.memory.output = s.memory.output ++ (fresh orders').2.memory.output := by
  intro s later run fresh
  have hrespects := Host.plain_respectsRenaming (φ := Function.Matches) clock
  have hkeeps : KeepsObjects (Host.plain clock).call := Host.plain_keepsObjects clock
  let s₀ : Session Empty Unit := new config ()
  have hs₀ : s₀.Fresh := new_fresh config ()
  have hresembles : s.Resembles s₀ := hs₀.closed.resembles.foldl_after hrespects hkeeps hs₀
    (new_onlyNatives config ()) calls hcalls
  obtain ⟨β, h⟩ := hresembles
  let past := s₀.resumed s.memory.output (HostState.behind s.memory.host.readings)
  have hpast : past = s₀.withPast s.memory.output s.memory.host := by
    have houtput : s.memory.output ++ "" = s.memory.output := String.append_empty
    exact congrArg (s₀.withPast · s.memory.host) houtput
  have hresumed : past.runSource (.plain clock) file source orders =
      ((fresh orders).1,
        (fresh orders).2.resumed s.memory.output (HostState.behind s.memory.host.readings)) :=
    runSource_resumed s₀ s.memory.output
      (fun s' => Host.plain_resumes clock s.memory.host.readings s'.config s'.methods) file source
      orders
  obtain ⟨hresult, houtput⟩ := (h.withPast s.memory.output s.memory.host).runSource_alike hrespects
    hkeeps (hs₀.withPast _ _) rfl rfl file source orders
  rw [← hpast, hresumed] at hresult houtput
  have horders : SameButSuggestions (fresh orders) (fresh orders') :=
    s₀.runSource_orders file orders orders' (.plain later) source
  refine ⟨hresult, ?_, ?_⟩
  · rw [← horders.result]
    exact congrArg (Except.mapError SessionError.withoutSuggestions) hresult
  · rw [← horders.session]
    exact houtput

/-- The theorem applies: behind a list that holds itself and a source text that does not
compile, a source text is run as in a fresh session. -/
theorem runs_isolated_demo :
    let calls : List Call := [.runSource "first" "var x = [1]; fn main() { x[0] = x; print x; }",
      .runSource "second" "fn main() { print y; }", .collectGarbage]
    let s : Session Empty Unit := calls.foldl (after (.plain fun _ => 0)) (new Config.default ())
    let source := "var x; fn main() { print type(x); }"
    let run := s.runSource (.plain fun _ => 0) "third" source
    let fresh := (new Config.default () : Session Empty Unit).runSource (.plain fun _ => 0) "third"
      source
    run.1 = fresh.1 ∧
      run.1.mapError SessionError.withoutSuggestions =
        fresh.1.mapError SessionError.withoutSuggestions ∧
      run.2.memory.output = s.memory.output ++ fresh.2.memory.output := by
  intro calls
  have hcalls : ∀ call ∈ calls, call.sparesNatives
      (new Config.default () : Session Empty Unit).natives = true := by decide +kernel
  exact runs_isolated Config.default (fun _ => 0) calls hcalls "third" _ .asGiven .asGiven

end Session

end ScriptMachine
