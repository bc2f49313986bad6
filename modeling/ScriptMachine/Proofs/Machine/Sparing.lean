import ScriptMachine.Proofs.Codegen.Sparing
import ScriptMachine.Proofs.Machine.Rereading
import ScriptMachine.Proofs.Machine.Safety

/-!
# Runs that leave the first globals as they are

Code that stores into no global below `lo` leaves these globals as they are. That every
frame is about to run such code is kept by each instruction, if all functions on the heap
have such code (`Sparing.execute`), and then no run changes these globals
(`Sparing.ends`).

A run on a heap that also holds other functions leaves them as they are when it is
aligned with such a run (`Aligned.ends_sparing`): frames that match run the same code.
-/

namespace ScriptMachine

variable {κ σ : Type} {lo : Nat}

/-! ## One instruction -/

/-- Where an instruction at `p` goes on within its function is one of its targets. -/
def Transfer.StaysIn (i : Instruction) (p : Nat) (t : Transfer) : Prop :=
  ∀ distance, t.distance? = some distance → p + i.length + distance ∈ i.targets p

theorem staysIn_next {i : Instruction} {p : Nat} (h : p + i.length ∈ i.targets p) :
    Transfer.next.StaysIn i p := by
  rintro _ ⟨⟩
  exact h

theorem staysIn_jumpIf {i : Instruction} {p : Nat} (expected : Bool)
    (htargets : i.targets p = [p + i.length, p + i.length + i.distance]) :
    Returns (κ := κ) (σ := σ) (Transfer.StaysIn i p) (jumpIf expected i.distance) := by
  refine .bind fun value => ?_
  split
  · refine .pure ?_
    rintro distance hdistance
    rw [htargets]
    split at hdistance
    · cases hdistance
      exact .tail _ (.head _)
    · cases hdistance
      exact .head _
  · exact .throw _

theorem staysIn_callValue {env : Environment κ σ} {i : Instruction} {p argc : Nat}
    (h : p + i.length ∈ i.targets p) : Returns (Transfer.StaysIn i p) (callValue env argc) := by
  unfold callValue
  refine .bind fun callee => ?_
  split
  · refine .bind fun m => .bind fun object => ?_
    split
    · exact .bind fun _ => .pure nofun
    · exact .bind fun _ => .bind fun _ => .pure (staysIn_next h)
    · exact .throw _
  · exact .bind fun m => .throw _

/-- An instruction goes on where its targets say. -/
theorem staysIn_perform (env : Environment κ σ) (frame : Frame) (i : Instruction) (p : Nat) :
    Returns (Transfer.StaysIn i p) (perform env frame i) := by
  unfold perform
  cases hop : i.opcode with
  | call => exact staysIn_callValue (by simp [Instruction.targets, hop])
  | jump =>
    refine .pure ?_
    rintro _ ⟨⟩
    simp [Instruction.targets, hop]
  | jumpIfFalse => exact staysIn_jumpIf _ (by simp [Instruction.targets, hop])
  | jumpIfTrue => exact staysIn_jumpIf _ (by simp [Instruction.targets, hop])
  | ret => exact .bind fun _ => .pure nofun
  | _ =>
    -- Whatever comes first, the last thing done is to go on with the next instruction.
    have hnext : Transfer.next.StaysIn i p := staysIn_next (by simp [Instruction.targets, hop])
    repeat first
      | exact .pure hnext
      | exact .throw _
      | refine .bind fun _ => ?_
      | split

/-! ## Frames that spare globals -/

/-- Frames that are about to run code which stores into no global below `lo`, on a heap
all of whose functions have such code. -/
structure Sparing (lo : Nat) (frames : Array Frame) (heap : Heap κ) : Prop where
  frames : ∀ frame ∈ frames, frame.function.chunk.Spares lo frame.ip
  functions : ∀ {handle f}, heap.get handle = .ok (.function f) → f.chunk.Spares lo 0

/-- The next instruction stores into no global below `lo`. -/
def SparesNext (lo : Nat) (frames : Array Frame) : Prop :=
  ∀ frame ∈ frames.back?, ∀ {i next},
    frame.function.chunk.fetch frame.ip = .instruction i next → i.opcode = .setGlobal →
      lo ≤ i.first.toNat

section Sparing

variable {env env' : Environment κ σ} {frames frames' : Array Frame} {m m' : Memory κ σ}

theorem Sparing.next {heap : Heap κ} (h : Sparing lo frames heap) : SparesNext lo frames := by
  intro frame hlast i next hfetch hset
  cases h.frames frame (Array.mem_of_back? hlast) with
  | intro hfetch' hglobal =>
    rw [hfetch] at hfetch'
    cases hfetch'
    exact hglobal hset

theorem steady_globals (env : Environment κ σ) (lo : Nat) (globals : Array Value) :
    Steady env fun m => SameBelow lo globals m.globals where
  stack hm _ := hm
  output _ hm := hm
  newList _ hm := hm
  setItem _ _ _ hm := hm
  native _ _ hm := hm

/-- An instruction that stores into no global below `lo` leaves these as they are. -/
theorem SparesNext.execute (h : SparesNext lo frames) (env : Environment κ σ) (m : Memory κ σ) :
    SameBelow lo m.globals (execute env frames m).memory.globals := by
  refine execute_maintains_of (steady_globals env lo m.globals) (.refl lo m.globals) frames ?_
  intro frame hlast i next hfetch hset m₁ value hm₁
  exact hm₁.trans (.set (h frame hlast hfetch hset) value)

theorem SparesNext.step (h : SparesNext lo frames) (env : Environment κ σ) (m : Memory κ σ) :
    SameBelow lo m.globals (step env frames m).memory.globals := by
  have hexecute := h.execute env m
  unfold ScriptMachine.step
  generalize ScriptMachine.execute env frames m = r at hexecute
  cases r with
  | running frames' m' =>
    dsimp only [StepResult.memory] at hexecute ⊢
    rwa [Memory.globals_collectIfDue]
  | finished m' => exact hexecute
  | faulted fault frames' m' => exact hexecute

/-- An instruction leads from frames that spare globals to such frames. -/
theorem Sparing.execute (h : Sparing lo frames m.heap) (hkeeps : KeepsObjects env.call)
    (hwf : m.heap.WF) (hexecute : execute env frames m = .running frames' m') :
    Sparing lo frames' m'.heap ∧ m'.heap.WF := by
  obtain ⟨outer, frame, i, ip, t, m₁, rfl, hfetch, hperform, hleads⟩ := execute_eq_running hexecute
  have hevolves := perform_keeps hkeeps m.heap { frame with ip } i m (.refl hwf)
  rw [hperform] at hevolves
  have hstays := staysIn_perform env { frame with ip } i frame.ip m t m₁ hperform
  have hfunctions : ∀ {handle f}, m₁.heap.get handle = .ok (.function f) →
      f.chunk.Spares lo 0 := fun hget => h.functions (hevolves.function hget)
  have houter : ∀ other ∈ outer, other.function.chunk.Spares lo other.ip :=
    fun other hother => h.frames other (Array.mem_push_of_mem _ hother)
  cases h.frames frame Array.mem_push_self with
  | intro hfetch' hglobal hnext =>
    rw [hfetch] at hfetch'
    cases hfetch'
    have hframe : ∀ distance, t.distance? = some distance →
        ∀ other ∈ outer.push { frame with ip := frame.ip + i.length + distance },
          other.function.chunk.Spares lo other.ip := by
      intro distance hdistance other hother
      rcases Array.mem_push.1 hother with hother | rfl
      · exact houter other hother
      · exact hnext _ (hstays distance hdistance)
    cases hleads with
    | next => exact ⟨⟨hframe 0 rfl, hfunctions⟩, hevolves.wf⟩
    | jump distance => exact ⟨⟨hframe distance rfl, hfunctions⟩, hevolves.wf⟩
    | enter handle function argc =>
      have hop : i.opcode = .call := by
        by_contra hne
        exact not_isCall_of_perform hne m _ _ hperform trivial
      refine ⟨⟨fun other hother => ?_, hfunctions⟩, hevolves.wf⟩
      rcases Array.mem_push.1 hother with hother | rfl
      · rcases Array.mem_push.1 hother with hother | rfl
        · exact houter other hother
        · exact hnext _ (by simp [Instruction.targets, hop])
      · exact hfunctions (get_of_enter hperform)
    | leave result => exact ⟨⟨houter, hfunctions⟩, hevolves.wf⟩

/-! ## Whole runs -/

theorem Sparing.steps (h : Sparing lo frames m.heap) (hkeeps : KeepsObjects env.call)
    (hwf : m.heap.WF) (hsteps : Steps (ScriptMachine.execute env) frames m frames' m') :
    Sparing lo frames' m'.heap ∧ m'.heap.WF ∧ SameBelow lo m.globals m'.globals := by
  induction hsteps with
  | refl => exact ⟨h, hwf, .refl _ _⟩
  | @tail _ _ m₁ _ _ hstep ih =>
    obtain ⟨hsparing, hwf', hsame⟩ := ih
    obtain ⟨hsparing', hwf''⟩ := hsparing.execute hkeeps hwf' hstep
    have hstepped := hsparing.next.execute env m₁
    rw [hstep] at hstepped
    exact ⟨hsparing', hwf'', hsame.trans hstepped⟩

/-- A run without collections of code that stores into no global below `lo`. -/
theorem Sparing.ends (h : Sparing lo frames m.heap) (hkeeps : KeepsObjects env.call)
    (hwf : m.heap.WF) {result : RunResult κ σ}
    (hends : Ends (ScriptMachine.execute env) frames m result) :
    SameBelow lo m.globals result.last.memory.globals := by
  obtain ⟨frames₁, m₁, hsteps, hlast⟩ := hends
  obtain ⟨hsparing, -, hsame⟩ := h.steps hkeeps hwf hsteps
  have hstepped := hsparing.next.execute env m₁
  rw [hlast] at hstepped
  exact hsame.trans hstepped

/-- Frames that match run the same code. -/
theorem Aligned.sparesNext (h : Aligned env env' frames m frames' m')
    (hspares : SparesNext lo frames') : SparesNext lo frames := by
  obtain ⟨β, h⟩ := h
  have hback := h.active.back?
  intro frame hlast i next hfetch hset
  rw [Option.mem_def.1 hlast] at hback
  generalize hlast' : frames'.back? = last' at hback
  cases hback with
  | some hframe =>
    rw [hframe.function.fetch_eq, hframe.ip] at hfetch
    exact hspares _ hlast' hfetch hset

theorem Aligned.spares_step (h : Aligned env env' frames m frames' m')
    (hspares : SparesNext lo frames') :
    SameBelow lo m.globals (stepReading env frames m).memory.globals := by
  rw [h.held.stepReading_eq]
  exact (h.sparesNext hspares).step env m

/-- A run that is aligned with such a run leaves the globals below `lo` as they are, too. -/
theorem Aligned.ends_sparing (h : Aligned env env' frames m frames' m')
    (hsparing : Sparing lo frames' m'.heap) (hkeeps : KeepsObjects env'.call)
    (hwf : m'.heap.WF) {result : RunResult κ σ}
    (hends : Ends (stepReading env) frames m result) :
    SameBelow lo m.globals result.last.memory.globals := by
  obtain ⟨frames₁, m₁, hsteps, hlast⟩ := hends
  have hkept : ∃ frames₁' m₁', Aligned env env' frames₁ m₁ frames₁' m₁' ∧
      Sparing lo frames₁' m₁'.heap ∧ m₁'.heap.WF ∧ SameBelow lo m.globals m₁.globals := by
    clear hlast
    induction hsteps with
    | refl => exact ⟨frames', m', h, hsparing, hwf, .refl _ _⟩
    | @tail _ _ m₁ _ _ hstep ih =>
      obtain ⟨frames₂, m₂, haligned, hsparing', hwf', hsame⟩ := ih
      have hstepped := haligned.spares_step hsparing'.next
      rw [hstep] at hstepped
      have hresult := haligned.step
      rw [hstep] at hresult
      generalize hr : ScriptMachine.execute env' frames₂ m₂ = r at hresult
      cases hresult with
      | running haligned' =>
        obtain ⟨hsparing'', hwf''⟩ := hsparing'.execute hkeeps hwf' hr
        exact ⟨_, _, haligned', hsparing'', hwf'', hsame.trans hstepped⟩
  obtain ⟨frames₁', m₁', haligned, hsparing', -, hsame⟩ := hkept
  have hstepped := haligned.spares_step hsparing'.next
  rw [hlast] at hstepped
  exact hsame.trans hstepped

end Sparing

end ScriptMachine
