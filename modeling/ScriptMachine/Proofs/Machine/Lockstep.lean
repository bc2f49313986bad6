import ScriptMachine.Proofs.Machine.Persistence
import ScriptMachine.Proofs.Machine.Renaming

/-!
# Runs with and without collections

A machine that collects garbage and one that never does run in lockstep. Their
states stay aligned (`Aligned`): the same code, the same stack and globals up to
handles. An instruction keeps states aligned, since it respects renamings; a
collection on one side keeps them aligned because it frees nothing that the
state refers to (`Aligned.collectIfDue`).

So every run has a counterpart without collections (`Aligned.steps`,
`Aligned.ends`), which does not depend on when garbage is collected. A run is a
sequence of steps, and it has a result exactly if they come to an end
(`run_eq_some_iff`); while native code leaves functions as they are, reading their
code again changes nothing (`Held.stepReading_eq`).
-/

namespace ScriptMachine

variable {κ σ : Type} {β γ : Renaming}

/-! ## Runs as sequences of steps -/

/-- The states that come one after the other. -/
inductive Steps (next : Array Frame → Memory κ σ → StepResult κ σ) (frames : Array Frame)
    (m : Memory κ σ) : Array Frame → Memory κ σ → Prop
  | refl : Steps next frames m frames m
  | tail {frames₁ frames₂ : Array Frame} {m₁ m₂ : Memory κ σ}
      (h : Steps next frames m frames₁ m₁) (hstep : next frames₁ m₁ = .running frames₂ m₂) :
      Steps next frames m frames₂ m₂

/-- The last step of a run that ends so. -/
def RunResult.last : RunResult κ σ → StepResult κ σ
  | .finished m => .finished m
  | .faulted fault frames m => .faulted fault frames m

/-- Going on step by step ends in the given way. -/
def Ends (next : Array Frame → Memory κ σ → StepResult κ σ) (frames : Array Frame)
    (m : Memory κ σ) (result : RunResult κ σ) : Prop :=
  ∃ frames' m', Steps next frames m frames' m' ∧ next frames' m' = result.last

section Steps

variable {next : Array Frame → Memory κ σ → StepResult κ σ} {frames frames₁ frames₂ : Array Frame}
  {m m₁ m₂ : Memory κ σ}

theorem Steps.head (hstep : next frames m = .running frames₁ m₁)
    (h : Steps next frames₁ m₁ frames₂ m₂) : Steps next frames m frames₂ m₂ := by
  induction h with
  | refl => exact .tail .refl hstep
  | tail _ hstep' ih => exact .tail ih hstep'

/-- A run reaches one state after the other without a choice. -/
theorem Steps.cases_head (h : Steps next frames m frames₂ m₂) :
    frames = frames₂ ∧ m = m₂ ∨
      ∃ frames₁ m₁, next frames m = .running frames₁ m₁ ∧ Steps next frames₁ m₁ frames₂ m₂ := by
  induction h with
  | refl => exact .inl ⟨rfl, rfl⟩
  | tail _ hstep ih =>
    rcases ih with ⟨rfl, rfl⟩ | ⟨frames₁, m₁, hfirst, hrest⟩
    · exact .inr ⟨_, _, hstep, .refl⟩
    · exact .inr ⟨frames₁, m₁, hfirst, .tail hrest hstep⟩

theorem Ends.head (hstep : next frames m = .running frames₁ m₁) {result : RunResult κ σ}
    (h : Ends next frames₁ m₁ result) : Ends next frames m result := by
  obtain ⟨frames', m', hsteps, hlast⟩ := h
  exact ⟨frames', m', hsteps.head hstep, hlast⟩

theorem Ends.of_running (hstep : next frames m = .running frames₁ m₁) {result : RunResult κ σ}
    (h : Ends next frames m result) : Ends next frames₁ m₁ result := by
  obtain ⟨frames', m', hsteps, hlast⟩ := h
  rcases hsteps.cases_head with ⟨rfl, rfl⟩ | ⟨frames₂, m₂, hfirst, hrest⟩
  · rw [hstep] at hlast
    cases result <;> cases hlast
  · rw [hstep] at hfirst
    cases hfirst
    exact ⟨frames', m', hrest, hlast⟩

theorem RunResult.last_injective {r r' : RunResult κ σ} (h : r.last = r'.last) : r = r' := by
  cases r <;> cases r' <;> cases h <;> rfl

theorem Ends.unique {result result' : RunResult κ σ} (h : Ends next frames m result)
    (h' : Ends next frames m result') : result = result' := by
  obtain ⟨frames₁, m₁, hsteps, hlast⟩ := h
  -- Both runs take the steps of the first, and then its last step decides.
  have hrest : Ends next frames₁ m₁ result' := by
    clear hlast
    induction hsteps with
    | refl => exact h'
    | tail _ hstep ih => exact ih.of_running hstep
  obtain ⟨frames₂, m₂, hsteps', hlast'⟩ := hrest
  rcases hsteps'.cases_head with ⟨rfl, rfl⟩ | ⟨frames₃, m₃, hfirst, -⟩
  · exact RunResult.last_injective (hlast.symm.trans hlast')
  · rw [hlast] at hfirst
    cases result <;> cases hfirst

end Steps

/-- What a run gives is where its steps lead it. -/
theorem ends_of_run {env : Environment κ σ} {frames : Array Frame} {m : Memory κ σ}
    {result : RunResult κ σ} (h : env.run frames m = some result) :
    Ends (stepReading env) frames m result := by
  refine Environment.run.partial_correctness env (Ends (stepReading env)) ?_ frames m result h
  intro next ih frames m result h
  split at h
  · next hstep => exact (ih _ _ _ h).head hstep
  · next hstep =>
    cases h
    exact ⟨frames, m, .refl, hstep⟩
  · next hstep =>
    cases h
    exact ⟨frames, m, .refl, hstep⟩

theorem run_of_ends {env : Environment κ σ} {frames : Array Frame} {m : Memory κ σ}
    {result : RunResult κ σ} (h : Ends (stepReading env) frames m result) :
    env.run frames m = some result := by
  obtain ⟨frames', m', hsteps, hlast⟩ := h
  have hend : env.run frames' m' = some result := by
    rw [Environment.run, hlast]
    cases result <;> rfl
  clear hlast
  induction hsteps with
  | refl => exact hend
  | tail _ hstep ih =>
    refine ih ?_
    rw [Environment.run, hstep]
    exact hend

/-- A run gives a result exactly if its steps come to an end, and then it is this end. -/
theorem run_eq_some_iff {env : Environment κ σ} {frames : Array Frame} {m : Memory κ σ}
    {result : RunResult κ σ} :
    env.run frames m = some result ↔ Ends (stepReading env) frames m result :=
  ⟨ends_of_run, run_of_ends⟩

/-! ## Runs that can be computed -/

/-- How a run ends that takes at most the given number of steps. -/
def endWithin (next : Array Frame → Memory κ σ → StepResult κ σ) :
    Nat → Array Frame → Memory κ σ → Option (RunResult κ σ)
  | 0, _, _ => none
  | n + 1, frames, m =>
    match next frames m with
    | .running frames m => endWithin next n frames m
    | .finished m => some (.finished m)
    | .faulted fault frames m => some (.faulted fault frames m)

theorem ends_of_endWithin {next : Array Frame → Memory κ σ → StepResult κ σ} {n : Nat}
    {frames : Array Frame} {m : Memory κ σ} {result : RunResult κ σ}
    (h : endWithin next n frames m = some result) : Ends next frames m result := by
  induction n generalizing frames m with
  | zero => cases h
  | succ n ih =>
    unfold endWithin at h
    split at h
    · next hstep => exact (ih h).head hstep
    · next hstep =>
      cases h
      exact ⟨_, _, .refl, hstep⟩
    · next hstep =>
      cases h
      exact ⟨_, _, .refl, hstep⟩

/-! ## Aligned states -/

/-- The function of every frame is on the heap, with the code that the frame
runs. -/
def Held (frames : Array Frame) (heap : Heap κ) : Prop :=
  ∀ frame ∈ frames, heap.get frame.handle = .ok (.function frame.function)

/-- Where every frame has the code that is on the heap, reading it changes nothing. -/
theorem Held.reread_eq {frames : Array Frame} {heap : Heap κ} (h : Held frames heap)
    {frame : Frame} (hframe : frame ∈ frames) : frame.reread heap = frame := by
  rw [Frame.reread, Heap.function_eq_ok.2 (h frame hframe)]

theorem Held.readCode_eq {frames : Array Frame} {heap : Heap κ} (h : Held frames heap) :
    heap.readCode frames = frames := by
  by_cases hempty : frames = #[]
  · subst hempty
    rfl
  · obtain ⟨outer, frame, rfl⟩ := Array.exists_push_of_ne_empty hempty
    rw [Heap.readCode_push, h.reread_eq Array.mem_push_self]

theorem Held.stepReading_eq {env : Environment κ σ} {frames : Array Frame} {m : Memory κ σ}
    (h : Held frames m.heap) : stepReading env frames m = step env frames m := by
  rw [stepReading, h.readCode_eq]

/-- Two machines whose states agree up to handles. -/
structure AlignedBy (β : Renaming) (env env' : Environment κ σ) (frames : Array Frame)
    (m : Memory κ σ) (frames' : Array Frame) (m' : Memory κ σ) : Prop where
  environment : Environment.Matches β env env'
  keeps : KeepsObjects env.call
  active : Pointwise (Frame.Matches β) frames frames'
  held : Held frames m.heap
  memory : Memory.Matches β m m'

def Aligned (env env' : Environment κ σ) (frames : Array Frame) (m : Memory κ σ)
    (frames' : Array Frame) (m' : Memory κ σ) : Prop :=
  ∃ β, AlignedBy β env env' frames m frames' m'

inductive StepResult.Aligned (env env' : Environment κ σ) :
    StepResult κ σ → StepResult κ σ → Prop
  | running {frames frames' : Array Frame} {m m' : Memory κ σ}
      (h : ScriptMachine.Aligned env env' frames m frames' m') :
      Aligned env env' (.running frames m) (.running frames' m')
  | finished {β : Renaming} {m m' : Memory κ σ} (hm : Memory.Matches β m m')
      (henv : Environment.Matches β env env') : Aligned env env' (.finished m) (.finished m')
  | faulted (fault : Fault) {frames frames' : Array Frame} {m m' : Memory κ σ}
      (h : ScriptMachine.Aligned env env' frames m frames' m') :
      Aligned env env' (.faulted fault frames m) (.faulted fault frames' m')

theorem Held.push {frames : Array Frame} {heap : Heap κ} (h : Held frames heap) {frame : Frame}
    (hframe : heap.get frame.handle = .ok (.function frame.function)) :
    Held (frames.push frame) heap := by
  intro other hother
  rcases Array.mem_push.1 hother with hother | rfl
  · exact h other hother
  · exact hframe

theorem Held.kept {frames : Array Frame} {heap heap' : Heap κ} (h : Held frames heap)
    (hkept : heap.Evolves heap') : Held frames heap' :=
  fun frame hframe => hkept.get (h frame hframe) (by simp [Object.kind])

section Execute

variable {env env' : Environment κ σ} {outer outer' : Array Frame} {frame frame' : Frame}
  {m m' : Memory κ σ}

theorem Memory.Matches.returnTo (hm : Memory.Matches β m m') (base : Nat) {v w : Value}
    (hvw : Value.Matches β v w) : Memory.Matches β (m.returnTo base v) (m'.returnTo base w) := by
  have hstack := hm.stack.shrink base
  have hindex : (m.stack.shrink base).size - 1 = (m'.stack.shrink base).size - 1 := by
    rw [hstack.size_eq]
  refine hm.withStack ?_
  rw [hindex]
  exact hstack.setIfInBounds _ hvw

theorem AlignedBy.callers (h : AlignedBy β env env' (outer.push frame) m (outer'.push frame') m') :
    AlignedBy β env env' outer m outer' m' :=
  ⟨h.environment, h.keeps, by simpa using h.active.pop,
    fun other hother => h.held other (by simp [hother]), h.memory⟩

theorem AlignedBy.transfer (h : AlignedBy β env env' (outer.push frame) m (outer'.push frame') m')
    {t t' : Transfer}
    (ht : Transfer.Matches β t t')
    (henter : ∀ {a f n}, t = .enter a f n → m.heap.get a = .ok (.function f)) :
    StepResult.Aligned env env' (transfer env.config outer frame m t)
      (ScriptMachine.transfer env'.config outer' frame' m' t') := by
  have hframe : Frame.Matches β frame frame' := by
    simpa using h.active.back?
  have hheld := h.held frame (by simp)
  have houter := h.callers
  cases ht with
  | next => exact .running ⟨β, h⟩
  | jump distance =>
    refine .running ⟨β, h.environment, h.keeps, houter.active.push ?_,
      houter.held.push hheld, h.memory⟩
    exact ⟨hframe.handle, hframe.function, hframe.base, congrArg (· + distance) hframe.ip⟩
  | enter hab hfg argc =>
    simp only [ScriptMachine.transfer, h.environment.maxFrames, houter.active.size_eq,
      h.memory.stack.size_eq]
    split
    · exact .faulted _ ⟨β, h⟩
    · refine .running ⟨β, h.environment, h.keeps, h.active.push ⟨hab, hfg, rfl, rfl⟩, ?_, h.memory⟩
      exact h.held.push (henter rfl)
  | leave hvw =>
    simp only [ScriptMachine.transfer, Array.isEmpty, houter.active.size_eq, hframe.base]
    by_cases hempty : outer'.size = 0
    · simp only [hempty, decide_true, if_true]
      exact .finished (h.memory.withStack .empty) h.environment
    · simp only [hempty, decide_false, Bool.false_eq_true, if_false]
      exact .running ⟨β, h.environment, h.keeps, houter.active, houter.held,
        h.memory.returnTo _ hvw⟩

theorem AlignedBy.of_kept {frames frames' : Array Frame} {n n' : Memory κ σ}
    (h : AlignedBy β env env' frames m frames' m') (hle : β ≤ γ) (hm : Memory.Matches γ n n')
    (hkept : m.heap.Evolves n.heap) : AlignedBy γ env env' frames n frames' n' :=
  ⟨h.environment.mono hle, h.keeps, h.active.mono (Frame.Matches.mono hle), h.held.kept hkept, hm⟩

theorem AlignedBy.withIp (h : AlignedBy β env env' (outer.push frame) m (outer'.push frame') m')
    (ip : Nat) :
    AlignedBy β env env' (outer.push { frame with ip }) m (outer'.push { frame' with ip }) m' := by
  have hframe : Frame.Matches β frame frame' := by simpa using h.active.back?
  refine ⟨h.environment, h.keeps, ?_, ?_, h.memory⟩
  · have houter : Pointwise (Frame.Matches β) outer outer' := by simpa using h.active.pop
    exact houter.push ⟨hframe.handle, hframe.function, hframe.base, rfl⟩
  · have houter : Held outer m.heap := fun other hother => h.held other (by simp [hother])
    exact houter.push (h.held frame (by simp))

/-- An instruction keeps states aligned. -/
theorem AlignedBy.executeIn
    (h : AlignedBy β env env' (outer.push frame) m (outer'.push frame') m') :
    StepResult.Aligned env env' (executeIn env outer frame m)
      (ScriptMachine.executeIn env' outer' frame' m') := by
  have hframe : Frame.Matches β frame frame' := by simpa using h.active.back?
  have hfunction := h.memory.heap.function hframe.handle
  unfold ScriptMachine.executeIn
  generalize m.heap.function frame.handle = found at hfunction
  generalize m'.heap.function frame'.handle = found' at hfunction
  cases hfunction with
  | error fault => exact .faulted _ ⟨β, h⟩
  | ok _ =>
    dsimp only
    rw [hframe.function.fetch_eq, hframe.ip]
    split
    · next fault ip _ => exact .faulted _ ⟨β, h.withIp ip⟩
    · next i ip _ =>
      have h' := h.withIp ip
      have hframe' : Frame.Matches β { frame with ip } { frame' with ip } := by
        simpa using h'.active.back?
      have houtcome := perform_respects h.environment hframe' i β m m' (le_refl β) h.memory
      have hkept := perform_keeps h.keeps m.heap { frame with ip } i m
        (.refl h.memory.heap.left_wf)
      have henter := @get_of_enter _ _ env { frame with ip } i m
      generalize perform env { frame with ip } i m = r at houtcome hkept henter
      generalize perform env' { frame' with ip } i m' = r' at houtcome
      cases houtcome with
      | error hle hn fault => exact .faulted _ ⟨_, h'.of_kept hle hn hkept⟩
      | ok hle hn ht =>
        have h'' := h'.of_kept hle hn hkept
        refine h''.transfer ht fun heq => henter (by rw [heq])

end Execute

theorem Memory.reachable_frame (m : Memory κ σ) (methods : MethodTable) {frames : Array Frame}
    {frame : Frame} (h : frame ∈ frames) :
    m.heap.Reachable (m.roots methods frames) frame.handle := by
  refine .root ?_
  simp only [Roots.handles, List.mem_append]
  exact .inr (List.mem_map.2 ⟨frame, by simpa using h, rfl⟩)

theorem Memory.reachable_method (m : Memory κ σ) {methods : MethodTable} (frames : Array Frame)
    {method : (ObjectKind × String) × Handle} (h : method ∈ methods) :
    m.heap.Reachable (m.roots methods frames) method.2 := by
  refine .root ?_
  simp only [Roots.handles, List.mem_append, List.mem_filterMap]
  exact .inl (.inr ⟨.object method.2, List.mem_map.2 ⟨method, h, rfl⟩, rfl⟩)

section Collect

variable {env env' : Environment κ σ} {frames frames' : Array Frame} {m m' : Memory κ σ}

theorem Aligned.execute (h : Aligned env env' frames m frames' m') :
    StepResult.Aligned env env' (execute env frames m) (ScriptMachine.execute env' frames' m') := by
  obtain ⟨β, h⟩ := h
  have hback := h.active.back?
  unfold ScriptMachine.execute
  generalize hlast : frames.back? = last at hback
  generalize hlast' : frames'.back? = last' at hback
  cases hback with
  | none => exact .faulted _ ⟨β, h⟩
  | some hframe =>
    obtain ⟨outer, rfl⟩ := Array.back?_eq_some_iff.1 hlast
    obtain ⟨outer', rfl⟩ := Array.back?_eq_some_iff.1 hlast'
    simp only [Array.pop_push]
    exact h.executeIn

/-- Nothing that a state refers to is freed by a collection, so states that
were aligned before it are aligned afterwards. -/
theorem Aligned.collect (h : Aligned env env' frames m frames' m') :
    Aligned env env' frames (m.collect env.methods frames).2 frames' m' := by
  obtain ⟨β, h⟩ := h
  let roots := m.roots env.methods frames
  -- What the stack and the globals refer to are roots, as frames and methods are.
  have hroot : ∀ {a}, a ∈ roots.handles → m.heap.Reachable roots a := .root
  have hstack : ∀ {v a}, v ∈ m.stack → v.handle? = some a → m.heap.Reachable roots a := by
    intro v a hv ha
    refine hroot ?_
    simp only [Roots.handles, List.mem_append, List.mem_filterMap]
    exact .inl (.inl (.inl ⟨v, by simpa [roots, Memory.roots] using hv, ha⟩))
  have hglobals : ∀ {v a}, v ∈ m.globals → v.handle? = some a → m.heap.Reachable roots a := by
    intro v a hv ha
    refine hroot ?_
    simp only [Roots.handles, List.mem_append, List.mem_filterMap]
    exact .inl (.inl (.inr ⟨v, by simpa [roots, Memory.roots] using hv, ha⟩))
  have hframes : ∀ {frame}, frame ∈ frames → m.heap.Reachable roots frame.handle :=
    m.reachable_frame env.methods
  have hmethods : ∀ {method}, method ∈ env.methods → m.heap.Reachable roots method.2 :=
    m.reachable_method frames
  have hvalues : ∀ {vs ws : Array Value}, Pointwise (Value.Matches β) vs ws →
      (∀ {v a}, v ∈ vs → v.handle? = some a → m.heap.Reachable roots a) →
      Pointwise (Value.Matches (β.restrict (m.heap.Reachable roots))) vs ws := by
    intro vs ws hvw hreach i
    exact rel_imp (hvw i) fun hv hvw => hvw.restrict (hreach (Array.mem_of_getElem? hv))
  refine ⟨β.restrict (m.heap.Reachable roots), ?_, h.keeps, fun i => ?_, ?_, ?_⟩
  · refine ⟨h.environment.maxFrames, h.environment.maxStack, ?_, h.environment.call⟩
    exact List.forall₂_iff_get.2 ⟨h.environment.methods.length_eq, fun i hi hi' =>
      have hmatch := (List.forall₂_iff_get.1 h.environment.methods).2 i hi hi'
      ⟨hmatch.1, hmatch.2, hmethods (List.get_mem _ _)⟩⟩
  · refine rel_imp (h.active i) fun {frame frame'} hi hmatch => ?_
    have hmem := Array.mem_of_getElem? hi
    refine ⟨⟨hmatch.handle, hframes hmem⟩, ?_, hmatch.base, hmatch.ip⟩
    -- The constants of the running function are reached through its object.
    exact FunctionMatch.Lawful.restrict hmatch.function fun a ha =>
      (hframes hmem).child (h.held frame hmem) ha
  · intro frame hframe
    exact (Heap.get_collect_of_reachable h.memory.heap.left_wf (hframes hframe)).trans
      (h.held frame hframe)
  · exact ⟨h.memory.heap.collect roots, hvalues h.memory.stack hstack,
      hvalues h.memory.globals hglobals, h.memory.output, h.memory.host⟩

theorem Aligned.withCollectAt (h : Aligned env env' frames m frames' m') (collectAt : Nat) :
    Aligned env env' frames { m with collectAt } frames' m' := by
  obtain ⟨β, h⟩ := h
  exact ⟨β, h.environment, h.keeps, h.active, h.held, h.memory.heap, h.memory.stack,
    h.memory.globals, h.memory.output, h.memory.host⟩

theorem Aligned.collectIfDue (h : Aligned env env' frames m frames' m') :
    Aligned env env' frames (m.collectIfDue env frames) frames' m' := by
  unfold Memory.collectIfDue
  split
  · exact h.collect
  · split
    · exact h.collect.withCollectAt _
    · exact h

theorem Aligned.held (h : Aligned env env' frames m frames' m') : Held frames m.heap := by
  obtain ⟨β, h⟩ := h
  exact h.held

/-- A step with a collection behind it and an instruction without one. -/
theorem Aligned.step (h : Aligned env env' frames m frames' m') :
    StepResult.Aligned env env' (stepReading env frames m)
      (ScriptMachine.execute env' frames' m') := by
  have hresult := h.execute
  rw [h.held.stepReading_eq]
  unfold ScriptMachine.step
  generalize ScriptMachine.execute env frames m = r at hresult
  generalize ScriptMachine.execute env' frames' m' = r' at hresult
  cases hresult with
  | running h => exact .running h.collectIfDue
  | finished hm henv => exact .finished hm henv
  | faulted fault h => exact .faulted fault h

end Collect

/-! ## Aligned runs -/

section Runs

variable {env env' : Environment κ σ} {frames frames₁ frames' : Array Frame}
  {m m₁ m' : Memory κ σ}

/-- Every state of a run has a counterpart in the run without collections. -/
theorem Aligned.steps (h : Aligned env env' frames m frames' m')
    (hsteps : Steps (stepReading env) frames m frames₁ m₁) :
    ∃ frames₁' m₁', Steps (ScriptMachine.execute env') frames' m' frames₁' m₁' ∧
      Aligned env env' frames₁ m₁ frames₁' m₁' := by
  induction hsteps with
  | refl => exact ⟨frames', m', .refl, h⟩
  | tail _ hstep ih =>
    obtain ⟨frames₂, m₂, hsteps, haligned⟩ := ih
    have hresult := haligned.step
    rw [hstep] at hresult
    generalize hr : ScriptMachine.execute env' frames₂ m₂ = r at hresult
    cases hresult with
    | running haligned' => exact ⟨_, _, .tail hsteps hr, haligned'⟩

/-- Runs end in the same way with and without collections. -/
theorem Aligned.ends (h : Aligned env env' frames m frames' m') {result : RunResult κ σ}
    (hends : Ends (stepReading env) frames m result) :
    ∃ result' : RunResult κ σ, Ends (ScriptMachine.execute env') frames' m' result' ∧
      StepResult.Aligned env env' result.last result'.last := by
  obtain ⟨frames₁, m₁, hsteps, hlast⟩ := hends
  obtain ⟨frames₂, m₂, hsteps', haligned⟩ := h.steps hsteps
  have hresult := haligned.step
  rw [hlast] at hresult
  generalize hr : ScriptMachine.execute env' frames₂ m₂ = r at hresult
  cases result with
  | finished m =>
    cases hresult with
    | finished hm henv => exact ⟨.finished _, ⟨frames₂, m₂, hsteps', hr⟩, .finished hm henv⟩
  | faulted fault frames m =>
    cases hresult with
    | faulted _ h => exact ⟨.faulted fault _ _, ⟨frames₂, m₂, hsteps', hr⟩, .faulted fault h⟩

end Runs

end ScriptMachine
