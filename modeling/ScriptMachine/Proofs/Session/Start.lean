import ScriptMachine.Proofs.Machine.Intact
import ScriptMachine.Proofs.Machine.Rereading
import ScriptMachine.Proofs.Session.Outcomes

/-!
# How a script starts

In a fresh session nothing dangles, and compiling a program keeps it so
(`Session.Closed.compile`). A script therefore starts in a state that is aligned
with itself (`Memory.Closed.aligned`), and its run with collections has a
counterpart without them.
-/

namespace ScriptMachine

variable {κ σ ε τ : Type}

/-! ## A state is aligned with itself -/

/-- Every live handle stands for itself. -/
def Heap.self (heap : Heap κ) : Renaming := fun a b => a = b ∧ heap.isLive a

section Self

variable {heap : Heap κ}

theorem Heap.Holds.self_matches {value : Value} (h : heap.Holds value) :
    Value.Matches heap.self value value := by
  cases value with
  | null => exact .null
  | bool value => exact .bool value
  | number value => exact .number value
  | object handle => exact .object ⟨rfl, h handle rfl⟩

theorem Heap.Closed.self_values (h : heap.Closed) {handle : Handle} {object : Object κ}
    (hget : heap.get handle = .ok object) {values : Array Value}
    (hvalues : object.children = values.toList.filterMap Value.handle?) :
    Pointwise (Value.Matches heap.self) values values := by
  refine .refl_of fun value hvalue => Heap.Holds.self_matches fun child hchild => ?_
  refine h.children hget child ?_
  rw [hvalues]
  exact List.mem_filterMap.2 ⟨value, Array.mem_toList_iff.2 hvalue, hchild⟩

theorem Heap.Closed.self_function (h : heap.Closed) {handle : Handle} {function : Function}
    (hget : heap.get handle = .ok (.function function)) :
    Function.Matches heap.self function function :=
  ⟨rfl, rfl, rfl, rfl, h.self_values hget rfl⟩

theorem Heap.Closed.self_matches (h : heap.Closed) :
    Heap.Matches Function.Matches heap.self heap heap := by
  refine ⟨h.wf, h.wf, ⟨?_, ?_⟩, ?_⟩
  · rintro a b c ⟨rfl, -⟩ ⟨rfl, -⟩
    rfl
  · rintro a b c ⟨rfl, -⟩ ⟨rfl, -⟩
    rfl
  · rintro a _ ⟨rfl, hlive⟩
    obtain ⟨object, hget⟩ := Heap.isLive_iff.1 hlive
    refine ⟨object, object, hget, hget, ?_⟩
    cases object with
    | function f => exact .function (h.self_function hget)
    | list items => exact .list (h.self_values hget rfl)
    | native native => exact .native native
    | string text => exact .string text

end Self

/-- The memory in which a script starts. -/
def Memory.start (m : Memory κ σ) (script : Handle) : Memory κ σ :=
  { m with stack := #[.object script] }

/-- What is left of a script when its run has ended. -/
def RunResult.outcome : RunResult κ σ → Except RuntimeError Unit × Memory κ σ
  | .finished m => (.ok (), m)
  | .faulted fault frames m =>
    (.error ⟨fault, traceOf m.heap frames⟩, { m with stack := #[] })

section RunScript

variable {env : Environment κ σ} {script : Handle} {m : Memory κ σ} {function : Function}

theorem runScript_missing {fault : HeapFault} (h : m.heap.function script = .error fault) :
    runScript env script m = (.error ⟨.heap fault, []⟩, { m with stack := #[] }) := by
  unfold runScript
  dsimp only
  rw [h]

/-- What a script gives is what the end of its run leaves. -/
theorem runScript_eq (h : m.heap.function script = .ok function) {result : RunResult κ σ}
    (hends : Ends (stepReading env) #[⟨script, function, 1, 0⟩] (m.start script) result) :
    runScript env script m = result.outcome := by
  have hrun : env.run #[⟨script, function, 1, 0⟩] { m with stack := #[.object script] } =
      some result := run_of_ends hends
  unfold runScript
  dsimp only
  rw [h]
  dsimp only
  rw [hrun]
  cases result <;> rfl

/-- A run that does not end leaves nothing. -/
theorem runScript_endless (h : m.heap.function script = .ok function)
    (hends : ∀ result, ¬Ends (stepReading env) #[⟨script, function, 1, 0⟩] (m.start script)
      result) :
    runScript env script m = (.error ⟨.noFrame, []⟩, { m with stack := #[] }) := by
  have hrun : env.run #[⟨script, function, 1, 0⟩] { m with stack := #[.object script] } = none :=
    Option.eq_none_iff_forall_ne_some.2 fun result hresult => hends result (ends_of_run hresult)
  unfold runScript
  dsimp only
  rw [h]
  dsimp only
  rw [hrun]

/-- A script ends if native code leaves the code of functions alone. -/
theorem exists_ends_script (hwf : m.heap.WF) (hcall : LeavesCode env.call)
    (h : m.heap.function script = .ok function) :
    ∃ result, Ends (stepReading env) #[⟨script, function, 1, 0⟩] (m.start script) result :=
  ends_stepReading hcall (UpToDate.start hwf h) (Nat.le_max_left _ _)

/-- A script whose start is aligned with another state ends. -/
theorem Aligned.exists_ends {env' : Environment κ σ} {frames' : Array Frame} {m' : Memory κ σ}
    (h : Aligned env env' #[⟨script, function, 1, 0⟩] (m.start script) frames' m') :
    ∃ result, Ends (stepReading env) #[⟨script, function, 1, 0⟩] (m.start script) result := by
  obtain ⟨β, h⟩ := h
  have hget := h.held ⟨script, function, 1, 0⟩ (by simp)
  exact exists_ends_script h.memory.heap.left_wf (KeepsObjects.leavesCode h.keeps)
    (Heap.function_eq_ok.2 hget)

end RunScript

/-- Whatever the outcome of a script, the stack is empty afterwards. -/
theorem stack_runScript (env : Environment κ σ) (script : Handle) (m : Memory κ σ) :
    (runScript env script m).2.stack = #[] := by
  cases hfound : m.heap.function script with
  | error fault => rw [runScript_missing hfound]
  | ok function =>
    by_cases hends : ∃ result,
        Ends (stepReading env) #[⟨script, function, 1, 0⟩] (m.start script) result
    · obtain ⟨result, hends⟩ := hends
      rw [runScript_eq hfound hends]
      obtain ⟨frames, m', -, hlast⟩ := hends
      cases result with
      | finished m' => exact (step_eq_finished hlast).2
      | faulted fault frames' m' => rfl
    · rw [runScript_endless hfound (not_exists.1 hends)]

/-- Two machines that start the same script, with the same contents of memory but
for when garbage is collected, are aligned. -/
theorem Memory.Closed.aligned {env env' : Environment κ σ} {m : Memory κ σ}
    (h : m.Closed env.methods) (hframes : env.config.maxFrames = env'.config.maxFrames)
    (hstack : env.config.maxStack = env'.config.maxStack) (hmethods : env.methods = env'.methods)
    (hcall : RespectsRenaming Function.Matches env.call env'.call) (hkeeps : KeepsObjects env.call)
    {script : Handle} {function : Function} (hscript : m.heap.get script = .ok (.function function))
    (collectAt : Nat) :
    Aligned env env' #[⟨script, function, 1, 0⟩] (m.start script) #[⟨script, function, 1, 0⟩]
      ({ m with collectAt }.start script) := by
  have hlive : m.heap.self script script := ⟨rfl, Heap.isLive_iff.2 ⟨_, hscript⟩⟩
  refine ⟨m.heap.self, ⟨hframes, hstack, ?_, hcall⟩, hkeeps, ?_, ?_, ?_⟩
  · rw [← hmethods]
    exact List.forall₂_same.2 fun method hmethod => ⟨rfl, rfl, h.methods method hmethod⟩
  · refine .refl_of fun frame hframe => ?_
    obtain rfl : frame = _ := by simpa using hframe
    exact ⟨hlive, h.heap.self_function hscript, rfl, rfl⟩
  · intro frame hframe
    obtain rfl : frame = _ := by simpa using hframe
    exact hscript
  · refine ⟨h.heap.self_matches, ?_, ?_, rfl, rfl⟩
    · exact Pointwise.empty.push (.object hlive)
    · exact .refl_of fun value hvalue => (h.globals value hvalue).self_matches

/-! ## Sessions -/

/-- A session in which nothing dangles. -/
def Session.Closed (s : Session ε τ) : Prop := s.memory.Closed s.methods

namespace Session

variable {s : Session ε τ}

theorem Closed.addNative (h : s.Closed) (name : String) (arity : Nat) (code : NativeCode ε) :
    (s.addNative name arity code).2.Closed ∧
      (s.addNative name arity code).2.memory.heap.isLive (s.addNative name arity code).1 := by
  have hwf := h.heap.wf
  refine ⟨⟨h.heap.alloc (by simp [Object.children]), fun value hvalue => ?_,
    fun method hmethod => ?_⟩, Heap.isLive_alloc_self hwf _⟩
  · exact (h.globals value hvalue).alloc hwf _
  · exact Heap.isLive_alloc hwf _ (h.methods method hmethod)

theorem Closed.defineNative (h : s.Closed) (name : String) (arity : Nat) (code : NativeCode ε) :
    (s.defineNative name arity code).Closed := by
  obtain ⟨hclosed, hlive⟩ := h.addNative name arity code
  refine ⟨hclosed.heap, fun value hvalue => ?_, hclosed.methods⟩
  rcases Array.mem_push.1 hvalue with hvalue | rfl
  · exact hclosed.globals value (mem_of_mem_shrink hvalue)
  · rintro _ ⟨⟩
    exact hlive

theorem Closed.defineMethod (h : s.Closed) (kind : ObjectKind) (name : String) (arity : Nat)
    (code : NativeCode ε) : (s.defineMethod kind name arity code).Closed := by
  obtain ⟨hclosed, hlive⟩ := h.addNative name arity code
  refine ⟨hclosed.heap, hclosed.globals, fun method hmethod => ?_⟩
  rcases List.mem_cons.1 hmethod with rfl | hmethod
  · exact hlive
  · exact hclosed.methods method (List.mem_of_mem_filter hmethod)

theorem new_closed (config : Config) (state : τ) : (new config state : Session ε τ).Closed := by
  have hstart : Session.Closed (ε := ε)
      { config
        memory :=
          { heap := {}, collectAt := config.policy.initial, host := { custom := state } } } :=
    ⟨.empty, fun value hvalue => by simp at hvalue, fun method hmethod => by simp at hmethod⟩
  exact ((((hstart.defineNative _ _ _).defineNative _ _ _).defineMethod _ _ _ _).defineMethod
    _ _ _ _).defineMethod _ _ _ _

theorem Closed.compile (h : s.Closed) (program : Program) (file : String)
    (orders : CandidateOrders) : (s.compile program file orders).2.Closed := by
  have hcompiles := s.compiles program file orders
  generalize s.compile program file orders = result at hcompiles ⊢
  cases hcompiles with
  | unresolved => exact h
  | @refused resolved symbols =>
    obtain ⟨hheap, hlive⟩ := resolved.compile_closed h.heap symbols
    exact ⟨hheap, fun value hvalue handle hhandle => hlive (h.globals value hvalue handle hhandle),
      fun method hmethod => hlive (h.methods method hmethod)⟩
  | @compiled resolved symbols =>
    obtain ⟨hheap, hlive⟩ := resolved.compile_closed h.heap symbols
    refine ⟨hheap, fun value hvalue => ?_, fun method hmethod => hlive (h.methods method hmethod)⟩
    rcases Array.mem_append.1 hvalue with hkept | hfresh
    · exact fun handle hhandle => hlive (h.globals value (mem_of_mem_shrink hkept) handle hhandle)
    · obtain rfl := (Array.mem_replicate.1 hfresh).2
      rintro _ ⟨⟩

theorem Closed.compileSource (h : s.Closed) (file source : String) (orders : CandidateOrders) :
    (s.compileSource file source orders).2.Closed := by
  unfold Session.compileSource
  split
  · exact h
  · exact h.compile _ file orders

section Compile

variable {s' : Session ε τ} {file source : String} {orders : CandidateOrders}

/-- To run a source text is to compile it and to run the script. -/
theorem runSource_eq (s : Session ε τ) (host : Host ε τ) (file source : String)
    (orders : CandidateOrders) :
    s.runSource host file source orders =
      match s.compileSource file source orders with
      | (.error error, s') => (.error error, s')
      | (.ok script, s') => s'.execute host script := by
  unfold Session.runSource Session.compileSource
  split <;> rfl

/-- Compiling reports diagnostics only. -/
theorem compileSource_error {error : SessionError}
    (h : s.compileSource file source orders = (.error error, s')) :
    ∃ diagnostics, error = .compile diagnostics := by
  unfold Session.compileSource at h
  split at h
  · cases h
    exact ⟨_, rfl⟩
  · next parsed _ =>
    have hcompiles := s.compiles parsed file orders
    rw [h] at hcompiles
    cases hcompiles with
    | unresolved => exact ⟨_, rfl⟩
    | refused => exact ⟨_, rfl⟩

/-- The script of a source text that compiles is on the heap. -/
theorem get_script_of_compileSource {script : Handle} (h : s.memory.heap.WF)
    (hcompile : s.compileSource file source orders = (.ok script, s')) :
    s'.memory.heap.WF ∧ ∃ function, s'.memory.heap.get script = .ok (.function function) := by
  obtain ⟨parsed, -, hparsed⟩ := compileSource_eq_ok_iff.1 hcompile
  have hcompiles := s.compiles parsed file orders
  rw [hparsed] at hcompiles
  cases hcompiles with
  | @compiled resolved symbols => exact resolved.get_script_compile h symbols

end Compile

end Session

end ScriptMachine
