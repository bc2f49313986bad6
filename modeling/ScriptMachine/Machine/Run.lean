import ScriptMachine.Diagnostic
import ScriptMachine.Machine.Perform

/-! # Runs

A run executes one instruction after the other until the outermost function
returns or a fault occurs. Frames hold the handles of functions, and the code is
read from the heap before every instruction. -/

namespace ScriptMachine

variable {κ σ : Type}

/-- The state after an instruction: still running, finished, or stopped by a
fault. The innermost frame is the last. -/
inductive StepResult (κ σ : Type) where
  | running (frames : Array Frame) (memory : Memory κ σ)
  | finished (memory : Memory κ σ)
  | faulted (fault : Fault) (frames : Array Frame) (memory : Memory κ σ)

/-- Drops the locals and arguments of a frame from the stack and puts the result
of the call in the place of the callee. -/
def Memory.returnTo (m : Memory κ σ) (base : Nat) (result : Value) : Memory κ σ :=
  let stack := m.stack.shrink base
  { m with stack := stack.setIfInBounds (stack.size - 1) result }

/-- Carries out a transfer from the frame `frame`, whose callers are `outer`. -/
def transfer (config : Config) (outer : Array Frame) (frame : Frame) (m : Memory κ σ) :
    Transfer → StepResult κ σ
  | .next => .running (outer.push frame) m
  | .jump distance => .running (outer.push { frame with ip := frame.ip + distance }) m
  | .enter handle function argc =>
    if config.maxFrames ≤ outer.size + 1 then .faulted .stackOverflow (outer.push frame) m
    else .running ((outer.push frame).push ⟨handle, function, m.stack.size - argc, 0⟩) m
  | .leave result =>
    if outer.isEmpty then .finished { m with stack := #[] }
    else .running outer (m.returnTo frame.base result)

/-- Executes one instruction of the frame `frame`, whose callers are `outer`, in the code that the
frame has. Its function must still be on the heap. -/
def executeIn (env : Environment κ σ) (outer : Array Frame) (frame : Frame) (m : Memory κ σ) :
    StepResult κ σ :=
  match m.heap.function frame.handle with
  | .error fault => .faulted (.heap fault) (outer.push frame) m
  | .ok _ =>
    match frame.function.chunk.fetch frame.ip with
    | .fault fault ip => .faulted (.fetch fault) (outer.push { frame with ip }) m
    | .instruction i next =>
      let frame := { frame with ip := next }
      match perform env frame i m with
      | .error fault m => .faulted fault (outer.push frame) m
      | .ok t m => transfer env.config outer frame m t

/-- Executes one instruction of the innermost frame. -/
def execute (env : Environment κ σ) (frames : Array Frame) (m : Memory κ σ) : StepResult κ σ :=
  match frames.back? with
  | none => .faulted .noFrame frames m
  | some frame => executeIn env frames.pop frame m

/-- One instruction in the code that the innermost frame has, and a collection if it is due. -/
def step (env : Environment κ σ) (frames : Array Frame) (m : Memory κ σ) : StepResult κ σ :=
  match execute env frames m with
  | .running frames m => .running frames (m.collectIfDue env frames)
  | result => result

/-- The frame with the code that its function has on the heap now. -/
def Frame.reread (heap : Heap κ) (frame : Frame) : Frame :=
  match heap.function frame.handle with
  | .ok function => { frame with function }
  | .error _ => frame

/-- The frames with the code of the innermost read from the heap. -/
def Heap.readCode (heap : Heap κ) (frames : Array Frame) : Array Frame :=
  frames.modify (frames.size - 1) (Frame.reread heap)

/-- One step of a run: the code is read from the heap, and an instruction executed. -/
def stepReading (env : Environment κ σ) (frames : Array Frame) (m : Memory κ σ) :
    StepResult κ σ :=
  step env (m.heap.readCode frames) m

@[simp] theorem Heap.size_readCode (heap : Heap κ) (frames : Array Frame) :
    (heap.readCode frames).size = frames.size := Array.size_modify

@[simp] theorem Heap.readCode_push (heap : Heap κ) (outer : Array Frame) (frame : Frame) :
    heap.readCode (outer.push frame) = outer.push (frame.reread heap) := by
  rw [readCode, Array.size_push, Nat.add_sub_cancel]
  refine Array.ext_getElem? fun i => ?_
  rw [Array.getElem?_modify, Array.getElem?_push, Array.getElem?_push]
  by_cases h : outer.size = i
  · simp [h]
  · simp [h, Ne.symm h]

theorem stepReading_push (env : Environment κ σ) (outer : Array Frame) (frame : Frame)
    (m : Memory κ σ) :
    stepReading env (outer.push frame) m = step env (outer.push (frame.reread m.heap)) m := by
  rw [stepReading, Heap.readCode_push]

@[simp] theorem execute_push (env : Environment κ σ) (outer : Array Frame) (frame : Frame)
    (m : Memory κ σ) : execute env (outer.push frame) m = executeIn env outer frame m := by
  simp [execute]

/-! ## What a step comes from -/

section Inversion

variable {env : Environment κ σ} {frames frames' : Array Frame} {m m' : Memory κ σ}

/-- Only where there is a frame, an instruction is executed. -/
theorem exists_executeIn (h : execute env frames m = .running frames' m') :
    ∃ outer frame, frames = outer.push frame ∧
      executeIn env outer frame m = .running frames' m' := by
  unfold execute at h
  split at h
  · cases h
  · next frame hlast =>
    obtain ⟨outer, rfl⟩ := Array.back?_eq_some_iff.1 hlast
    rw [Array.pop_push] at h
    exact ⟨outer, frame, rfl, h⟩

/-- A step that goes on executes an instruction, and collects garbage behind it if that is due. -/
theorem step_eq_running (h : step env frames m = .running frames' m') :
    ∃ m₁, execute env frames m = .running frames' m₁ ∧ m' = m₁.collectIfDue env frames' := by
  unfold step at h
  split at h
  · next hexecute =>
    cases h
    exact ⟨_, hexecute, rfl⟩
  · next hrunning => exact absurd h (hrunning _ _)

/-- A step of a run needs a frame. -/
theorem ne_empty_of_stepReading (h : stepReading env frames m = .running frames' m') :
    frames ≠ #[] := by
  rintro rfl
  cases h

/-- A step fails where its instruction does. -/
theorem step_eq_faulted {fault : Fault} (h : step env frames m = .faulted fault frames' m') :
    execute env frames m = .faulted fault frames' m' := by
  unfold step at h
  split at h
  · cases h
  · exact h

end Inversion

/-! ## Runs -/

/-- How a run ends. -/
inductive RunResult (κ σ : Type) where
  | finished (memory : Memory κ σ)
  | faulted (fault : Fault) (frames : Array Frame) (memory : Memory κ σ)

/-- Runs to the end. There need not be one: native code can always put longer code under the
handle of a function that is running. -/
def Environment.run (env : Environment κ σ) (frames : Array Frame) (m : Memory κ σ) :
    Option (RunResult κ σ) :=
  match stepReading env frames m with
  | .running frames m => env |>.run frames m
  | .finished m => some (.finished m)
  | .faulted fault frames m => some (.faulted fault frames m)
partial_fixpoint

/-! ## Running a script -/

/-- The calls in progress, from the innermost, each with the line it has come
to. The script itself shows only when nothing else is active, and a function
that is no longer on the heap does not. -/
def traceOf (heap : Heap κ) (frames : Array Frame) : List TraceEntry :=
  let calls := frames.toList.drop (if 1 < frames.size then 1 else 0)
  calls.reverse.filterMap fun frame =>
    match heap.function frame.handle with
    | .ok function => some ⟨function.name, function.chunk.lineAt (frame.ip - 1)⟩
    | .error _ => none

/-- A fault with the calls that were in progress. -/
structure RuntimeError where
  fault : Fault
  trace : List TraceEntry
  deriving Repr, Inhabited

/-- The line that a runtime error points at is that of its innermost call. -/
def RuntimeError.diagnostic (file : String) (e : RuntimeError) : Diagnostic :=
  let line := match e.trace with
    | entry :: _ => entry.line
    | [] => 1
  { code := e.fault.code, message := e.fault.message, file, span := .ofLine line,
    trace := e.trace }

/-- Runs a script from an empty stack. Whatever the outcome, the stack is empty
afterwards. A run without an end has no outcome, and nothing can be seen of the one that
stands for it here. -/
def runScript (env : Environment κ σ) (script : Handle) (m : Memory κ σ) :
    Except RuntimeError Unit × Memory κ σ :=
  let m := { m with stack := #[.object script] }
  match m.heap.function script with
  | .error fault => (.error ⟨.heap fault, []⟩, { m with stack := #[] })
  | .ok function =>
    match env.run #[⟨script, function, 1, 0⟩] m with
    | some (.finished m) => (.ok (), m)
    | some (.faulted fault frames m) =>
      (.error ⟨fault, traceOf m.heap frames⟩, { m with stack := #[] })
    | none => (.error ⟨.noFrame, []⟩, { m with stack := #[] })

end ScriptMachine
