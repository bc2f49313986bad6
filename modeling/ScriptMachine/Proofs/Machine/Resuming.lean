import ScriptMachine.Proofs.Machine.Actions
import ScriptMachine.Proofs.Machine.Lockstep
import ScriptMachine.Proofs.Session.Start

/-!
# Machines with a past

What a machine has printed and what its host has gone through before a run decide
nothing in the run. A machine that starts behind some output, with its host in a later
state, takes the steps of one that starts without a past (`Environment.Resumes.step`):
its output is longer by what was there, and its host is later throughout. So scripts end
in the same way on both (`Environment.Resumes.runScript`).
-/

namespace ScriptMachine

variable {κ σ α δ : Type} {before : String} {later : σ → σ}

/-- The memory with a past: behind the output `before`, and with the host in the later
state. -/
def Memory.resumed (before : String) (later : σ → σ) (m : Memory κ σ) : Memory κ σ :=
  { m with output := before ++ m.output, host := later m.host }

section Resumed

variable (m : Memory κ σ)

@[simp] theorem heap_resumed : (m.resumed before later).heap = m.heap := rfl

@[simp] theorem stack_resumed : (m.resumed before later).stack = m.stack := rfl

@[simp] theorem globals_resumed : (m.resumed before later).globals = m.globals := rfl

@[simp] theorem collectAt_resumed : (m.resumed before later).collectAt = m.collectAt := rfl

end Resumed

/-- The environment `env'` does for hosts in the later state what `env` does. -/
structure Environment.Resumes (later : σ → σ) (env env' : Environment κ σ) : Prop where
  config : env'.config = env.config
  methods : env'.methods = env.methods
  call : ∀ code args heap host, env'.call code args (heap, later host) =
    ((env.call code args (heap, host)).1, (env.call code args (heap, host)).2.1,
      later (env.call code args (heap, host)).2.2)

/-! ## Computations -/

/-- The outcome with a past. -/
def resumedResult (before : String) (later : σ → σ) :
    EStateM.Result Fault (Memory κ σ) α → EStateM.Result Fault (Memory κ σ) α
  | .ok a m => .ok a (m.resumed before later)
  | .error fault m => .error fault (m.resumed before later)

/-- The computation `y` does on memories with a past what `x` does without. -/
def Resuming (before : String) (later : σ → σ) (x y : Act κ σ α) : Prop :=
  ∀ m, y (m.resumed before later) = resumedResult before later (x m)

namespace Resuming

theorem pure (a : α) : Resuming (κ := κ) before later (Pure.pure a) (Pure.pure a) := fun _ => rfl

theorem throw (fault : Fault) :
    Resuming (κ := κ) (α := α) before later (throwThe Fault fault) (throwThe Fault fault) :=
  fun _ => rfl

theorem bind {x y : Act κ σ α} {k l : α → Act κ σ δ} (hxy : Resuming before later x y)
    (hkl : ∀ a, Resuming before later (k a) (l a)) : Resuming before later (x >>= k) (y >>= l) := by
  intro m
  rw [act_bind, act_bind, hxy m]
  cases x m with
  | ok a m' => exact hkl a m'
  | error fault m' => rfl

theorem ite {p : Prop} [Decidable p] {x x' y y' : Act κ σ α} (hxy : Resuming before later x y)
    (hxy' : Resuming before later x' y') :
    Resuming before later (if p then x else x') (if p then y else y') := by
  by_cases hp : p
  · rwa [if_pos hp, if_pos hp]
  · rwa [if_neg hp, if_neg hp]

/-- Looking at the memory. -/
theorem get {k l : Memory κ σ → Act κ σ δ}
    (h : ∀ m, Resuming before later (k m) (l (m.resumed before later))) :
    Resuming before later (get >>= k) (get >>= l) := fun m => h m m

theorem modify {f : Memory κ σ → Memory κ σ}
    (h : ∀ m, f (m.resumed before later) = (f m).resumed before later) :
    Resuming before later (modify f) (modify f) := by
  intro m
  rw [act_modify, act_modify, h]
  rfl

theorem modifyGet {f : Memory κ σ → α × Memory κ σ}
    (h : ∀ m, f (m.resumed before later) = ((f m).1, (f m).2.resumed before later)) :
    Resuming before later (modifyGet f) (modifyGet f) := by
  intro m
  rw [act_modifyGet, act_modifyGet, h]
  rfl

theorem onHeap (x : Except HeapFault α) :
    Resuming (κ := κ) before later (onHeap x) (onHeap x) := by
  cases x <;> exact fun _ => rfl

theorem push (config : Config) (value : Value) :
    Resuming (κ := κ) before later (push config value) (push config value) := by
  intro m
  rw [push_apply, push_apply, stack_resumed]
  split <;> rfl

theorem pop : Resuming (κ := κ) before later pop pop := by
  refine get fun m => ?_
  simp only [stack_resumed]
  cases m.stack.back? with
  | none => exact throw _
  | some value => exact .bind (modify fun _ => rfl) fun _ => pure _

theorem peek (distance : Nat) : Resuming (κ := κ) before later (peek distance) (peek distance) := by
  intro m
  rw [peek_apply, peek_apply, stack_resumed]
  generalize (if distance < m.stack.size then m.stack[m.stack.size - (distance + 1)]? else none) =
    found
  cases found <;> rfl

theorem popMany (count : Nat) : Resuming (κ := κ) before later (popMany count) (popMany count) := by
  intro m
  rw [popMany_apply, popMany_apply, stack_resumed]
  split <;> rfl

theorem numericBinary (config : Config) (op : Float → Float → Value) :
    Resuming (κ := κ) before later (numericBinary config op) (numericBinary config op) := by
  refine pop.bind fun right => pop.bind fun left => ?_
  split
  · exact push _ _
  · exact throw _

theorem subscript (base : Value) :
    Resuming (κ := κ) before later (subscript base) (subscript base) := by
  cases base with
  | object handle =>
    refine get fun m => (onHeap _).bind fun kind => ?_
    split
    · exact pure _
    · exact throw _
  | null => exact throw _
  | bool _ => exact throw _
  | number _ => exact throw _

theorem getElement (base index : Value) :
    Resuming (κ := κ) before later (getElement base index) (getElement base index) := by
  refine (subscript base).bind fun handle => get fun m => (onHeap _).bind fun items => ?_
  split
  · exact pure _
  · exact throw _

theorem setElement (base index value : Value) :
    Resuming (κ := κ) before later (setElement base index value) (setElement base index value) := by
  refine (subscript base).bind fun handle => get fun m => (onHeap _).bind fun items => ?_
  dsimp only
  split
  · exact modify fun _ => rfl
  · exact throw _

theorem checkArity (name : String) (arity argc : Nat) :
    Resuming (κ := κ) before later (checkArity name arity argc) (checkArity name arity argc) := by
  unfold ScriptMachine.checkArity
  split
  · exact throw _
  · exact pure _

theorem constantAt (frame : Frame) (index : UInt8) :
    Resuming (κ := κ) before later (constantAt frame index) (constantAt frame index) := by
  unfold ScriptMachine.constantAt
  split
  · exact pure _
  · exact throw _

theorem jumpIf (expected : Bool) (distance : Nat) :
    Resuming (κ := κ) before later (jumpIf expected distance) (jumpIf expected distance) := by
  refine (peek 0).bind fun value => ?_
  split
  · exact pure _
  · exact throw _

section Environment

variable {env env' : Environment κ σ} (henv : Environment.Resumes later env env')

include henv

theorem callNative (code : κ) (popped argc : Nat) :
    Resuming before later (callNative env code popped argc) (callNative env' code popped argc) := by
  intro m
  have hcall := henv.call code (m.stack.extract (m.stack.size - argc) m.stack.size).toList m.heap
    m.host
  rw [callNative_apply, callNative_apply]
  dsimp only [Memory.resumed]
  rw [hcall, henv.config]
  generalize env.call code _ (m.heap, m.host) = outcome
  obtain ⟨result, heap, host⟩ := outcome
  cases result with
  | ok value =>
    exact push env.config value
      { m with heap, stack := m.stack.shrink (m.stack.size - popped), host }
  | error message => rfl

theorem callValue (argc : Nat) :
    Resuming before later (callValue env argc) (callValue env' argc) := by
  refine (peek argc).bind fun callee => ?_
  split
  · refine get fun m => (onHeap _).bind fun object => ?_
    split
    · exact (checkArity _ _ _).bind fun _ => pure _
    · exact (checkArity _ _ _).bind fun _ => (callNative henv _ _ _).bind fun _ => pure _
    · exact throw _
  · exact get fun m => throw _

theorem findMethod (name : String) (receiver : Value) :
    Resuming before later (findMethod env name receiver) (findMethod env' name receiver) := by
  unfold ScriptMachine.findMethod
  rw [henv.methods]
  dsimp only
  split
  · refine get fun m => (onHeap _).bind fun kind => (pure _).bind fun found => ?_
    split
    · exact pure _
    · exact get fun m => throw _
  · refine (pure none).bind fun found => ?_
    split
    · exact pure _
    · exact get fun m => throw _

theorem invoke (name : Value) (argc : Nat) :
    Resuming before later (invoke env name argc) (invoke env' name argc) := by
  unfold ScriptMachine.invoke
  split
  · refine get fun m => (onHeap _).bind fun text => (peek argc).bind fun receiver => ?_
    refine (findMethod henv text receiver).bind fun method => get fun m => ?_
    refine (onHeap _).bind fun native => (checkArity _ _ _).bind fun _ => ?_
    exact callNative henv _ _ _
  · exact throw _

/-- An instruction does with a past what it does without. -/
theorem perform (frame : Frame) (i : Instruction) :
    Resuming before later (perform env frame i) (perform env' frame i) := by
  unfold ScriptMachine.perform
  rw [henv.config]
  cases i.opcode with
  | constant => exact (constantAt _ _).bind fun _ => (push _ _).bind fun _ => pure _
  | loadNull => exact (push _ _).bind fun _ => pure _
  | loadTrue => exact (push _ _).bind fun _ => pure _
  | loadFalse => exact (push _ _).bind fun _ => pure _
  | pop => exact pop.bind fun _ => pure _
  | popN => exact .bind (modify fun _ => rfl) fun _ => pure _
  | getLocal =>
    refine get fun m => ?_
    simp only [stack_resumed]
    split
    · exact (push _ _).bind fun _ => pure _
    · exact (throw _).bind fun _ => pure _
  | setLocal =>
    refine get fun m => ?_
    simp only [stack_resumed]
    exact .ite (throw _) ((peek 0).bind fun value => .bind (modify fun _ => rfl) fun _ => pure _)
  | getGlobal =>
    refine get fun m => ?_
    simp only [globals_resumed]
    split
    · exact (push _ _).bind fun _ => pure _
    · exact (throw _).bind fun _ => pure _
  | setGlobal =>
    refine (peek 0).bind fun value => get fun m => ?_
    simp only [globals_resumed]
    exact .ite (throw _) (.bind (modify fun _ => rfl) fun _ => pure _)
  | equal => exact pop.bind fun _ => pop.bind fun _ => (push _ _).bind fun _ => pure _
  | notEqual => exact pop.bind fun _ => pop.bind fun _ => (push _ _).bind fun _ => pure _
  | negate =>
    refine pop.bind fun _ => ?_
    dsimp only
    split
    · exact (push _ _).bind fun _ => pure _
    · exact (throw _).bind fun _ => pure _
  | invert =>
    refine pop.bind fun _ => ?_
    dsimp only
    split
    · exact (push _ _).bind fun _ => pure _
    · exact (throw _).bind fun _ => pure _
  | makeList =>
    exact (popMany _).bind fun items => .bind (modifyGet fun _ => rfl) fun _ =>
      (push _ _).bind fun _ => pure _
  | getIndex =>
    exact pop.bind fun _ => pop.bind fun _ => (getElement _ _).bind fun _ =>
      (push _ _).bind fun _ => pure _
  | setIndex =>
    exact pop.bind fun _ => pop.bind fun _ => pop.bind fun _ => (setElement _ _ _).bind fun _ =>
      (push _ _).bind fun _ => pure _
  | jump => exact pure _
  | jumpIfFalse => exact jumpIf _ _
  | jumpIfTrue => exact jumpIf _ _
  | call => exact callValue henv _
  | invoke => exact (constantAt _ _).bind fun _ => (invoke henv _ _).bind fun _ => pure _
  | ret => exact pop.bind fun _ => pure _
  | print =>
    refine pop.bind fun _ => get fun m => .bind (modify fun m' => ?_) fun _ => pure _
    simp only [Memory.resumed, String.append_assoc]
  | _ => exact (numericBinary _ _).bind fun _ => pure _

end Environment

end Resuming

/-! ## Steps and runs -/

/-- The outcome of a step with a past. -/
def StepResult.resumed (before : String) (later : σ → σ) : StepResult κ σ → StepResult κ σ
  | .running frames m => .running frames (m.resumed before later)
  | .finished m => .finished (m.resumed before later)
  | .faulted fault frames m => .faulted fault frames (m.resumed before later)

/-- The outcome of a run with a past. -/
def RunResult.resumed (before : String) (later : σ → σ) : RunResult κ σ → RunResult κ σ
  | .finished m => .finished (m.resumed before later)
  | .faulted fault frames m => .faulted fault frames (m.resumed before later)

theorem RunResult.last_resumed (result : RunResult κ σ) :
    (result.resumed before later).last = result.last.resumed before later := by
  cases result <;> rfl

theorem transfer_resumed (config : Config) (outer : Array Frame) (frame : Frame) (m : Memory κ σ)
    (t : Transfer) : transfer config outer frame (m.resumed before later) t =
      (transfer config outer frame m t).resumed before later := by
  cases t with
  | next => rfl
  | jump distance => rfl
  | enter handle function argc =>
    simp only [transfer]
    split <;> rfl
  | leave result =>
    simp only [transfer]
    split <;> rfl

theorem collectIfDue_resumed {env env' : Environment κ σ} (hconfig : env'.config = env.config)
    (hmethods : env'.methods = env.methods) (frames : Array Frame) (m : Memory κ σ) :
    (m.resumed before later).collectIfDue env' frames =
      (m.collectIfDue env frames).resumed before later := by
  unfold Memory.collectIfDue
  rw [hconfig, hmethods]
  split
  · rfl
  · rw [heap_resumed, collectAt_resumed]
    split <;> rfl

namespace Environment.Resumes

variable {env env' : Environment κ σ} {frames : Array Frame} {m : Memory κ σ}

theorem execute (henv : Environment.Resumes later env env') (before : String)
    (frames : Array Frame) (m : Memory κ σ) :
    execute env' frames (m.resumed before later) =
      (execute env frames m).resumed before later := by
  unfold ScriptMachine.execute
  cases frames.back? with
  | none => rfl
  | some frame =>
    dsimp only
    unfold executeIn
    rw [heap_resumed]
    cases m.heap.function frame.handle with
    | error fault => rfl
    | ok function =>
      dsimp only
      cases frame.function.chunk.fetch frame.ip with
      | fault fault ip => rfl
      | instruction i ip =>
        dsimp only
        rw [Resuming.perform henv { frame with ip } i m, henv.config]
        cases perform env { frame with ip } i m with
        | error fault m' => rfl
        | ok t m' => exact transfer_resumed _ _ _ m' t

/-- A step with a past. -/
theorem step (henv : Environment.Resumes later env env') (before : String) (frames : Array Frame)
    (m : Memory κ σ) :
    step env' frames (m.resumed before later) = (step env frames m).resumed before later := by
  unfold ScriptMachine.step
  rw [henv.execute before frames m]
  cases ScriptMachine.execute env frames m with
  | running frames' m' =>
    exact congrArg (StepResult.running frames')
      (collectIfDue_resumed henv.config henv.methods frames' m')
  | finished m' => rfl
  | faulted fault frames' m' => rfl

theorem stepReading (henv : Environment.Resumes later env env') (before : String)
    (frames : Array Frame) (m : Memory κ σ) :
    stepReading env' frames (m.resumed before later) =
      (stepReading env frames m).resumed before later :=
  henv.step before _ m

theorem steps (henv : Environment.Resumes later env env') {frames' : Array Frame}
    {m' : Memory κ σ} (h : Steps (ScriptMachine.stepReading env) frames m frames' m') :
    Steps (ScriptMachine.stepReading env') frames (m.resumed before later) frames'
      (m'.resumed before later) := by
  induction h with
  | refl => exact .refl
  | tail _ hstep ih =>
    refine ih.tail ?_
    rw [henv.stepReading, hstep]
    rfl

/-- With a past, nothing else happens. -/
theorem exists_steps (henv : Environment.Resumes later env env') {frames' : Array Frame}
    {m₁ : Memory κ σ}
    (h : Steps (ScriptMachine.stepReading env') frames (m.resumed before later) frames' m₁) :
    ∃ m', m₁ = m'.resumed before later ∧
      Steps (ScriptMachine.stepReading env) frames m frames' m' := by
  induction h with
  | refl => exact ⟨m, rfl, .refl⟩
  | tail _ hstep ih =>
    obtain ⟨m', rfl, hsteps⟩ := ih
    rw [henv.stepReading] at hstep
    generalize hnext : ScriptMachine.stepReading env _ m' = next at hstep
    cases next with
    | running frames₂ m₂ =>
      cases hstep
      exact ⟨m₂, rfl, hsteps.tail hnext⟩
    | finished m₂ => cases hstep
    | faulted fault frames₂ m₂ => cases hstep

theorem ends (henv : Environment.Resumes later env env') {result : RunResult κ σ}
    (h : Ends (ScriptMachine.stepReading env) frames m result) :
    Ends (ScriptMachine.stepReading env') frames (m.resumed before later)
      (result.resumed before later) := by
  obtain ⟨frames', m', hsteps, hlast⟩ := h
  refine ⟨frames', m'.resumed before later, henv.steps hsteps, ?_⟩
  rw [henv.stepReading, hlast, RunResult.last_resumed]

/-- A run with a past ends only if the run without it does. -/
theorem exists_ends (henv : Environment.Resumes later env env') {result' : RunResult κ σ}
    (h : Ends (ScriptMachine.stepReading env') frames (m.resumed before later) result') :
    ∃ result, Ends (ScriptMachine.stepReading env) frames m result := by
  obtain ⟨frames', m₁, hsteps, hlast⟩ := h
  obtain ⟨m', rfl, hsteps'⟩ := henv.exists_steps hsteps
  rw [henv.stepReading] at hlast
  generalize hnext : ScriptMachine.stepReading env frames' m' = next at hlast
  cases next with
  | running frames₂ m₂ => cases result' <;> cases hlast
  | finished m₂ => exact ⟨.finished m₂, frames', m', hsteps', hnext⟩
  | faulted fault frames₂ m₂ => exact ⟨.faulted fault frames₂ m₂, frames', m', hsteps', hnext⟩

/-- A script ends in the same way with a past. -/
theorem runScript (henv : Environment.Resumes later env env') (before : String) (script : Handle)
    (m : Memory κ σ) :
    runScript env' script (m.resumed before later) =
      ((runScript env script m).1, (runScript env script m).2.resumed before later) := by
  cases hfound : m.heap.function script with
  | error fault =>
    have hfound' : (m.resumed before later).heap.function script = .error fault := hfound
    unfold ScriptMachine.runScript
    dsimp only
    rw [hfound, hfound']
    rfl
  | ok function =>
    have hfound' : (m.resumed before later).heap.function script = .ok function := hfound
    by_cases hends : ∃ result, Ends (ScriptMachine.stepReading env) #[⟨script, function, 1, 0⟩]
        (m.start script) result
    · obtain ⟨result, hends⟩ := hends
      rw [runScript_eq hfound hends, runScript_eq hfound' (henv.ends hends)]
      cases result <;> rfl
    · rw [runScript_endless hfound (not_exists.1 hends), runScript_endless hfound']
      · rfl
      · exact fun result' hends' => hends (henv.exists_ends hends')

end Environment.Resumes

/-! ## Built-in functions with a past -/

section Builtins

variable {ε τ : Type}

/-- The host behind further readings of its clock. -/
def HostState.behind (readings : Nat) (host : HostState τ) : HostState τ :=
  { host with readings := readings + host.readings }

/-- A built-in function that is called behind some readings of the clock finds the clock as
it is there, and does the same otherwise. -/
theorem Builtin.call_behind (clock : Nat → Float) (readings : Nat) (builtin : Builtin)
    (args : List Value) (heap : Heap (NativeCode ε)) (host : HostState τ) :
    let r := builtin.call (fun n => clock (readings + n)) args (heap, host)
    builtin.call clock args (heap, host.behind readings) = (r.1, r.2.1, r.2.2.behind readings) := by
  intro r
  cases builtin with
  | clock => rfl
  | type => rcases args with _ | ⟨value, _ | ⟨_, _⟩⟩ <;> rfl
  | push =>
    rcases args with _ | ⟨_ | _ | _ | list, _ | ⟨value, _ | ⟨_, _⟩⟩⟩
    case cons.object.cons.nil =>
      simp only [r, Builtin.call]
      cases heap.list list <;> rfl
    all_goals rfl
  | pop =>
    rcases args with _ | ⟨_ | _ | _ | list, _ | ⟨value, _⟩⟩
    case cons.object.nil =>
      simp only [r, Builtin.call]
      cases heap.list list with
      | error fault => rfl
      | ok items =>
        dsimp only
        cases items.back? <;> rfl
    all_goals rfl
  | len =>
    rcases args with _ | ⟨_ | _ | _ | list, _ | ⟨value, _⟩⟩
    case cons.object.nil =>
      simp only [r, Builtin.call]
      cases heap.list list <;> rfl
    all_goals rfl

theorem Host.plain_resumes (clock : Nat → Float) (readings : Nat) (config : Config)
    (methods : MethodTable) :
    Environment.Resumes (HostState.behind readings)
      ⟨config, methods, (Host.plain fun n => clock (readings + n)).call⟩
      ⟨config, methods, (Host.plain clock).call⟩ := by
  refine ⟨rfl, rfl, fun code args heap host => ?_⟩
  cases code with
  | builtin builtin => exact builtin.call_behind clock readings args heap host
  | custom code => exact nomatch code

end Builtins

end ScriptMachine
