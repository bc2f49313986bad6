import ScriptMachine.Proofs.Machine.Unguarded
import ScriptMachine.Proofs.Session.Start

/-!
# The machine is robust

Whatever code a script has and whatever native code does, the machine makes no
access that is out of range, it stays within its limits, and it leaves an empty
stack and no frame (`machine_robust`).
-/

namespace ScriptMachine

variable {κ σ : Type}

/-- A state within the limits of the machine: even without room for calls or
values, the script has its frame and its slot on the stack. -/
structure WithinLimits (config : Config) (frames : Array Frame) (m : Memory κ σ) : Prop where
  frames : frames.size ≤ max 1 config.maxFrames
  stack : m.stack.size ≤ max 1 config.maxStack

section Limits

variable {env : Environment κ σ} {frames frames' : Array Frame} {m m' : Memory κ σ}

/-- The limit of the stack survives whatever instructions do. -/
theorem stable_stackLimit (env : Environment κ σ) :
    Stable env fun m => m.stack.size ≤ max 1 env.config.maxStack where
  stack hm hsize := by
    dsimp only
    omega
  globals _ _ hm := hm
  output _ hm := hm
  newList _ hm := hm
  setItem _ _ _ hm := hm
  native _ _ hm := hm

theorem WithinLimits.step (h : WithinLimits env.config frames m)
    (hstep : step env frames m = .running frames' m') : WithinLimits env.config frames' m' := by
  refine ⟨(shortens_of_step h.frames hstep).1, ?_⟩
  have hexecuted := execute_maintains (stable_stackLimit env) h.stack frames
  obtain ⟨m₁, hexecute, rfl⟩ := step_eq_running hstep
  rw [hexecute] at hexecuted
  rw [Memory.stack_collectIfDue]
  exact hexecuted

/-- The limits hold in every state of a run. -/
theorem WithinLimits.steps (h : WithinLimits env.config frames m)
    (hsteps : Steps (stepReading env) frames m frames' m') :
    WithinLimits env.config frames' m' := by
  induction hsteps with
  | refl => exact h
  | @tail frames₁ frames₂ m₁ m₂ _ hstep ih =>
    have hread : WithinLimits env.config (m₁.heap.readCode frames₁) m₁ :=
      ⟨by rw [Heap.size_readCode]; exact ih.frames, ih.stack⟩
    exact hread.step hstep

end Limits

/-- The machine is robust on any code. No step in any state makes an access that is
out of range, nor does the trace of a fault, as long as lists have less than 2^53
elements. Every state that a script comes to, also when native code changes code,
is within the limits; a step that finishes drops the only frame that is left; and
whatever the outcome, the stack is empty afterwards. -/
theorem machine_robust (env : Environment κ σ) :
    (∀ (frames : Array Frame) (m : Memory κ σ), m.heap.ShortLists →
      Unguarded.step env frames m = some (step env frames m)) ∧
    (∀ (heap : Heap κ) (frames : Array Frame),
      Unguarded.traceOf heap frames = some (traceOf heap frames)) ∧
    ∀ (script : Handle) (m : Memory κ σ),
      (runScript env script m).2.stack = #[] ∧
      ∀ {function frames m'}, Steps (stepReading env) #[⟨script, function, 1, 0⟩] (m.start script)
          frames m' →
        WithinLimits env.config frames m' ∧
        ∀ {m''}, stepReading env frames m' = .finished m'' →
          frames.pop = #[] ∧ m''.stack = #[] := by
  refine ⟨fun frames m hshort => Unguarded.step_eq env frames hshort, Unguarded.traceOf_eq,
    fun script m => ⟨stack_runScript env script m, fun hsteps => ⟨?_, fun {m''} hlast => ?_⟩⟩⟩
  · exact WithinLimits.steps ⟨Nat.le_max_left _ _, Nat.le_max_left _ _⟩ hsteps
  · obtain ⟨hone, hstack⟩ := step_eq_finished hlast
    refine ⟨Array.eq_empty_of_size_eq_zero ?_, hstack⟩
    rw [Heap.size_readCode] at hone
    rw [Array.size_pop, hone]

/-- The theorem applies, also to code that no compiler makes: a machine without room for
frames or values reads an item of a list that is there. -/
theorem machine_robust_demo :
    let f : Function := ⟨"f", 0, { code := #[Opcode.getIndex.toByte] }⟩
    let made := ({} : Heap Empty).alloc (.function f)
    let listed := made.2.alloc (.list #[.bool true, .null])
    let env : Environment Empty Unit := ⟨⟨0, 0, .always⟩, [], fun code => nomatch code⟩
    let m : Memory Empty Unit :=
      { heap := listed.2, stack := #[.object listed.1, .number 1], collectAt := 0, host := () }
    m.heap.list listed.1 = .ok #[.bool true, .null] ∧ m.heap.ShortLists ∧
      Unguarded.step env #[⟨made.1, f, 0, 0⟩] m = some (step env #[⟨made.1, f, 0, 0⟩] m) := by
  intro f made listed env m
  have hwf : made.2.WF := Heap.WF.empty.alloc _
  have hmade : made.2.ShortLists :=
    Heap.ShortLists.empty.alloc Heap.WF.empty fun items heq => by cases heq
  have hshort : m.heap.ShortLists :=
    Heap.ShortLists.alloc hmade hwf fun items heq => by
      cases heq
      decide
  exact ⟨Heap.list_eq_ok.2 (Heap.get_alloc_self hwf _), hshort, (machine_robust env).1 _ m hshort⟩

end ScriptMachine
