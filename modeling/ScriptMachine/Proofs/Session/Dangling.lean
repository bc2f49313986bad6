import ScriptMachine.Proofs.Heap.Written
import ScriptMachine.Proofs.Session.Start

/-!
# Nothing dangles in a session

Whatever a session is asked to do, one thing after the other, nothing dangles in
between and at no instruction of a program that runs (`Session.nothing_dangles`).
A program therefore never ends with a stale handle, and what it prints is written
by the rules for live objects.
-/

namespace ScriptMachine

variable {κ σ ε τ : Type}

/-! ## What is seen of stale handles -/

/-- Only a stale handle is reported in the words for stale handles. -/
theorem Fault.not_isStaleMessage {fault : Fault} (h : ¬fault.Stale) :
    ¬IsStaleMessage fault.message := by
  cases fault with
  | heap fault =>
    cases fault with
    | stale handle => exact absurd trivial h
    | wrongKind expected found => exact HeapFault.not_isStaleMessage_wrongKind expected found
  | native message => exact h
  | fetch fault =>
    cases fault with
    | _ =>
      refine ScriptMachine.not_isStaleMessage ?_
      unfold Fault.message FetchFault.message
      dsimp only
      simp
  | _ =>
    refine ScriptMachine.not_isStaleMessage ?_
    unfold Fault.message
    dsimp only
    simp

/-- Nothing dangles: all that is reachable is live, and every active frame runs a
function. -/
structure NoDangling (methods : MethodTable) (frames : Array Frame) (m : Memory κ σ) : Prop where
  live : ∀ {handle}, m.heap.Reachable (m.roots methods frames) handle → m.heap.isLive handle
  function : ∀ frame ∈ frames, ∃ f, m.heap.function frame.handle = .ok f

theorem Undangling.noDangling {env : Environment κ σ} {frames : Array Frame} {m : Memory κ σ}
    (h : Undangling env frames m) : NoDangling env.methods frames m :=
  ⟨h.isLive_of_reachable, fun frame hframe => ⟨_, Heap.function_eq_ok.2 (h.held frame hframe)⟩⟩

/-- What is printed where nothing dangles is written by the rules for live
objects. -/
theorem Undangling.written_of_print {env : Environment κ σ} {frames frames' : Array Frame}
    {frame : Frame} {m m' : Memory κ σ} (h : Undangling env frames m) {i : Instruction} {ip : Nat}
    (hframe : frames.back? = some frame)
    (hfetch : frame.function.chunk.fetch frame.ip = .instruction i ip) (hprint : i.opcode = .print)
    (hstep : ScriptMachine.execute env frames m = .running frames' m') :
    ∃ value text, m.stack.back? = some value ∧ m.heap.Written [] value text ∧
      m'.output = m.output ++ text ++ "\n" := by
  obtain ⟨outer, rfl⟩ := Array.back?_eq_some_iff.1 hframe
  rw [execute_push] at hstep
  obtain ⟨i', ip', t, m₁, hfetch', hperform, hleads⟩ := executeIn_eq_running hstep
  rw [hfetch] at hfetch'
  cases hfetch'
  cases hlast : m.stack.back? with
  | none =>
    simp only [perform, hprint, act_bind, pop_apply, hlast] at hperform
    cases hperform
  | some value =>
    have hvalue := h.intact.stack value (Array.mem_of_back? hlast)
    refine ⟨value, m.heap.display value, rfl, h.intact.heap.written_display hvalue, ?_⟩
    simp only [perform, hprint, act_bind, pop_apply, hlast, act_get, act_modify,
      act_pure] at hperform
    cases hperform
    cases hleads
    rfl

/-! ## Sessions -/

namespace Session

/-- What a session can be asked to do. -/
inductive Call where
  | runSource (file source : String) (orders : CandidateOrders := .asGiven)
  | compile (program : Program) (file : String) (orders : CandidateOrders := .asGiven)
  | disassemble (program : Program) (file : String) (orders : CandidateOrders := .asGiven)
  | collectGarbage
  | takeOutput

/-- The session behind a call. -/
def after (host : Host ε τ) (s : Session ε τ) : Call → Session ε τ
  | .runSource file source orders => (s.runSource host file source orders).2
  | .compile program file orders => (s.compile program file orders).2
  | .disassemble program file orders => (s.disassemble program file orders).2
  | .collectGarbage => s.collectGarbage.2
  | .takeOutput => s.takeOutput.2

section Closed

variable {s s' : Session ε τ}

/-- A script starts in a state in which nothing dangles. -/
theorem Closed.undangling (h : s.Closed) (host : Host ε τ) {script : Handle} {function : Function}
    (hget : s.memory.heap.get script = .ok (.function function)) :
    Undangling (s.environment host) #[⟨script, function, 1, 0⟩] (s.memory.start script) := by
  refine ⟨⟨⟨h.heap, h.globals, h.methods⟩, fun value hvalue => ?_⟩, fun frame hframe => ?_⟩
  · obtain rfl : value = .object script := by simpa [Memory.start] using hvalue
    rintro _ ⟨⟩
    exact Heap.isLive_iff.2 ⟨_, hget⟩
  · obtain rfl : frame = ⟨script, function, 1, 0⟩ := by simpa using hframe
    exact hget

/-- A source text that compiles starts in a state in which nothing dangles. -/
theorem Closed.starts (h : s.Closed) (host : Host ε τ) {file source : String}
    {orders : CandidateOrders} {script : Handle}
    (hcompile : s.compileSource file source orders = (.ok script, s')) :
    ∃ function, s'.memory.heap.get script = .ok (.function function) ∧
      Undangling (s'.environment host) #[⟨script, function, 1, 0⟩] (s'.memory.start script) := by
  obtain ⟨-, function, hget⟩ := get_script_of_compileSource h.heap.wf hcompile
  have hclosed := h.compileSource file source orders
  rw [hcompile] at hclosed
  exact ⟨function, hget, hclosed.undangling host hget⟩

variable {host : Host ε τ} (hcall : KeepsIntact host.call) (hkeeps : KeepsObjects host.call)

include hcall hkeeps

/-- Running a script lets nothing dangle, and does not end with a stale handle. -/
theorem Closed.execute (h : s.Closed) {script : Handle} {function : Function}
    (hget : s.memory.heap.get script = .ok (.function function)) :
    (s.execute host script).2.Closed ∧
      ∀ {error}, (s.execute host script).1 = .error (.runtime error) → ¬error.fault.Stale := by
  have hleaves : LeavesCode (s.environment host).call := KeepsObjects.leavesCode hkeeps
  obtain ⟨result, hends⟩ := exists_ends_script h.heap.wf hleaves (Heap.function_eq_ok.2 hget)
  have houtcome := (h.undangling host hget).ends hcall hkeeps hends
  unfold Session.execute
  rw [runScript_eq (Heap.function_eq_ok.2 hget) hends]
  cases result with
  | finished m =>
    cases houtcome with
    | finished hm => exact ⟨⟨hm.heap, hm.globals, hm.methods⟩, nofun⟩
  | faulted fault frames m =>
    cases houtcome with
    | faulted hm hfault =>
      refine ⟨⟨hm.heap, hm.globals, hm.methods⟩, ?_⟩
      rintro _ ⟨⟩
      exact hfault

theorem Closed.runSource (h : s.Closed) (file source : String) (orders : CandidateOrders) :
    (s.runSource host file source orders).2.Closed ∧ ∀ {error},
      (s.runSource host file source orders).1 = .error (.runtime error) → ¬error.fault.Stale := by
  have hclosed := h.compileSource file source orders
  rw [runSource_eq]
  generalize hcompile : s.compileSource file source orders = compiled at hclosed
  obtain ⟨outcome, s'⟩ := compiled
  cases outcome with
  | error error =>
    obtain ⟨diagnostics, rfl⟩ := compileSource_error hcompile
    exact ⟨hclosed, nofun⟩
  | ok script =>
    obtain ⟨-, function, hget⟩ := get_script_of_compileSource h.heap.wf hcompile
    exact hclosed.execute hcall hkeeps hget

end Closed

/-! ## Between two calls -/

/-- A session that runs nothing. -/
structure Idle (s : Session ε τ) : Prop where
  closed : s.Closed
  stack : s.memory.stack = #[]

section Idle

variable {s s' : Session ε τ}

theorem new_idle (config : Config) (state : τ) : (new config state : Session ε τ).Idle :=
  ⟨new_closed config state, rfl⟩

theorem Idle.undangling (h : s.Idle) (host : Host ε τ) :
    Undangling (s.environment host) #[] s.memory := by
  refine ⟨⟨h.closed, fun value hvalue => ?_⟩, fun frame hframe => ?_⟩
  · rw [h.stack] at hvalue
    exact absurd hvalue (by simp)
  · exact absurd hframe (by simp)

theorem stack_compile (s : Session ε τ) (program : Program) (file : String)
    (orders : CandidateOrders) :
    (s.compile program file orders).2.memory.stack = s.memory.stack := by
  have hcompiles := s.compiles program file orders
  generalize s.compile program file orders = result at hcompiles ⊢
  cases hcompiles <;> rfl

theorem stack_compileSource (s : Session ε τ) (file source : String) (orders : CandidateOrders) :
    (s.compileSource file source orders).2.memory.stack = s.memory.stack := by
  unfold Session.compileSource
  split
  · rfl
  · exact stack_compile s _ file orders

theorem Idle.compile (h : s.Idle) (program : Program) (file : String)
    (orders : CandidateOrders) : (s.compile program file orders).2.Idle :=
  ⟨h.closed.compile program file orders, (stack_compile s program file orders).trans h.stack⟩

theorem snd_disassemble (s : Session ε τ) (program : Program) (file : String)
    (orders : CandidateOrders) :
    (s.disassemble program file orders).2 = (s.compile program file orders).2 := by
  unfold Session.disassemble
  split
  · next heq => rw [heq]
  · next heq =>
    rw [heq]
    split <;> rfl

theorem stack_execute (s : Session ε τ) (host : Host ε τ) (script : Handle) :
    (s.execute host script).2.memory.stack = #[] := by
  have hstack := stack_runScript (s.environment host) script s.memory
  unfold Session.execute
  generalize runScript (s.environment host) script s.memory = r at hstack
  obtain ⟨outcome, m⟩ := r
  cases outcome <;> exact hstack

variable {host : Host ε τ} (hcall : KeepsIntact host.call) (hkeeps : KeepsObjects host.call)

include hcall hkeeps

theorem Idle.runSource (h : s.Idle) (file source : String) (orders : CandidateOrders) :
    (s.runSource host file source orders).2.Idle := by
  refine ⟨(h.closed.runSource hcall hkeeps file source orders).1, ?_⟩
  have hstack := (stack_compileSource s file source orders).trans h.stack
  rw [runSource_eq]
  generalize s.compileSource file source orders = compiled at hstack
  obtain ⟨outcome, s'⟩ := compiled
  cases outcome with
  | error error => exact hstack
  | ok script => exact stack_execute _ _ _

/-- A session is idle after every call. -/
theorem Idle.after (h : s.Idle) (call : Call) : (after host s call).Idle := by
  cases call with
  | runSource file source orders => exact h.runSource hcall hkeeps file source orders
  | compile program file orders => exact h.compile program file orders
  | disassemble program file orders =>
    show (s.disassemble program file orders).2.Idle
    rw [snd_disassemble]
    exact h.compile program file orders
  | collectGarbage =>
    have hcollected := (h.undangling host).collect
    exact ⟨hcollected.intact.toClosed, h.stack⟩
  | takeOutput => exact ⟨⟨h.closed.heap, h.closed.globals, h.closed.methods⟩, h.stack⟩

theorem Idle.foldl_after (h : s.Idle) (calls : List Call) :
    (calls.foldl (Session.after host) s).Idle := by
  induction calls generalizing s with
  | nil => exact h
  | cons call calls ih => exact ih (h.after hcall hkeeps call)

end Idle

/-- In a session with the built-in functions, after any calls: nothing dangles;
when a source text is then run, nothing dangles in any state of its run, before
and after the collection of every instruction, and what it prints is written by
the rules for live objects; and its run does not end with a stale handle. -/
theorem nothing_dangles (config : Config) (clock : Nat → Float) (calls : List Call) :
    let host : Host Empty Unit := .plain clock
    let s := calls.foldl (after host) (new config ())
    NoDangling s.methods #[] s.memory ∧ ∀ file source orders,
      (∀ {script s'}, s.compileSource file source orders = (.ok script, s') →
        ∃ function, s'.memory.heap.function script = .ok function ∧
          ∀ {frames m}, Steps (stepReading (s'.environment host)) #[⟨script, function, 1, 0⟩]
              (s'.memory.start script) frames m →
            NoDangling s'.methods frames m ∧
            ∀ {frames' m'}, ScriptMachine.execute (s'.environment host) (m.heap.readCode frames) m =
                .running frames' m' →
              NoDangling s'.methods frames' m' ∧
              ∀ {frame i ip}, (m.heap.readCode frames).back? = some frame →
                frame.function.chunk.fetch frame.ip = .instruction i ip → i.opcode = .print →
                ∃ value text, m.stack.back? = some value ∧ m.heap.Written [] value text ∧
                  m'.output = m.output ++ text ++ "\n") ∧
      ∀ {error}, (s.runSource host file source orders).1 = .error (.runtime error) →
        ∀ handle, error.fault.message ≠ (HeapFault.stale handle).message := by
  intro host s
  have hcall : KeepsIntact host.call := Host.plain_keepsIntact clock
  have hkeeps : KeepsObjects host.call := Host.plain_keepsObjects clock
  have hidle : s.Idle := (new_idle config ()).foldl_after hcall hkeeps calls
  refine ⟨(hidle.undangling host).noDangling, fun file source orders => ⟨?_, ?_⟩⟩
  · intro script s' hcompile
    obtain ⟨function, hget, hstart⟩ := hidle.closed.starts host hcompile
    refine ⟨function, Heap.function_eq_ok.2 hget, fun {frames m} hsteps => ?_⟩
    have hstate := hstart.steps hcall hkeeps hsteps
    rw [hstate.held.readCode_eq]
    refine ⟨hstate.noDangling, fun {frames' m'} hexecute =>
      ⟨?_, fun hlast hfetch hprint => hstate.written_of_print hlast hfetch hprint hexecute⟩⟩
    have houtcome := hstate.execute hcall hkeeps
    rw [hexecute] at houtcome
    cases houtcome with
    | running hnext => exact hnext.noDangling
  · intro error herror handle hmessage
    have hfault := (hidle.closed.runSource hcall hkeeps file source orders).2 herror
    exact Fault.not_isStaleMessage hfault ⟨handle, hmessage⟩

end Session

end ScriptMachine
