import ScriptMachine.Proofs.Machine.Countdown
import ScriptMachine.Proofs.Machine.Lockstep

/-!
# Code that is read from the heap at every instruction

A run reads code from the heap before every instruction (`stepReading`), and native code
works on the heap too. As long as native code leaves the code of functions alone
(`LeavesCode`), a run finds what it found before or, where the function has been freed,
nothing. So it ends (`ends_stepReading`), and it passes through the states of a machine
whose frames keep the code that they were called with (`UpToDate.steps_of_reading`).

What one instruction can do to frames and memory is said once
(`executeIn_eq_running`, `Transfer.Leads`, `execute_maintains`), and carried over to runs
(`Ends.maintains`).
-/

namespace ScriptMachine

variable {κ σ : Type}

/-! ## What a step can do -/

/-- Where a transfer leads: to the frames `frames'` and the memory `m'`. -/
inductive Transfer.Leads (config : Config) (outer : Array Frame) (frame : Frame)
    (m : Memory κ σ) : Transfer → Array Frame → Memory κ σ → Prop
  | next : Leads config outer frame m .next (outer.push frame) m
  | jump (distance : Nat) : Leads config outer frame m (.jump distance)
      (outer.push { frame with ip := frame.ip + distance }) m
  | enter (handle : Handle) (function : Function) (argc : Nat)
      (room : outer.size + 1 < config.maxFrames) :
      Leads config outer frame m (.enter handle function argc)
        ((outer.push frame).push ⟨handle, function, m.stack.size - argc, 0⟩) m
  | leave (result : Value) (hcaller : outer ≠ #[]) :
      Leads config outer frame m (.leave result) outer (m.returnTo frame.base result)

section Step

variable {env : Environment κ σ} {outer frames frames' : Array Frame} {frame : Frame}
  {m m' : Memory κ σ}

theorem transfer_eq_running {config : Config} {t : Transfer}
    (h : transfer config outer frame m t = .running frames' m') :
    t.Leads config outer frame m frames' m' := by
  cases t with
  | next =>
    cases h
    exact .next
  | jump distance =>
    cases h
    exact .jump distance
  | enter handle function argc =>
    simp only [transfer] at h
    split at h
    · cases h
    · next hroom =>
      cases h
      exact .enter handle function argc (by omega)
  | leave result =>
    simp only [transfer] at h
    split at h
    · cases h
    · next hcaller =>
      cases h
      refine .leave result ?_
      rintro rfl
      exact hcaller rfl

/-- A step that goes on fetches an instruction, performs it and transfers. -/
theorem executeIn_eq_running (h : executeIn env outer frame m = .running frames' m') :
    ∃ i ip t m₁, frame.function.chunk.fetch frame.ip = .instruction i ip ∧
      perform env { frame with ip } i m = .ok t m₁ ∧
      t.Leads env.config outer { frame with ip } m₁ frames' m' := by
  unfold executeIn at h
  split at h
  · cases h
  · split at h
    · cases h
    · next i ip hfetch =>
      dsimp only at h
      split at h
      · cases h
      · next t m₁ hperform => exact ⟨i, ip, t, m₁, hfetch, hperform, transfer_eq_running h⟩

/-- The same of the innermost frame. -/
theorem execute_eq_running {frames : Array Frame}
    (h : execute env frames m = .running frames' m') :
    ∃ outer frame i ip t m₁, frames = outer.push frame ∧
      frame.function.chunk.fetch frame.ip = .instruction i ip ∧
      perform env { frame with ip } i m = .ok t m₁ ∧
      t.Leads env.config outer { frame with ip } m₁ frames' m' := by
  obtain ⟨outer, frame, rfl, hframe⟩ := exists_executeIn h
  obtain ⟨i, ip, t, m₁, hfetch, hperform, hleads⟩ := executeIn_eq_running hframe
  exact ⟨outer, frame, i, ip, t, m₁, rfl, hfetch, hperform, hleads⟩

/-- A step that finishes returns from the only frame and leaves an empty stack. -/
theorem execute_eq_finished (h : execute env frames m = .finished m') :
    frames.size = 1 ∧ m'.stack = #[] := by
  unfold execute at h
  split at h
  · cases h
  · next frame hlast =>
    obtain ⟨outer, rfl⟩ := Array.back?_eq_some_iff.1 hlast
    rw [Array.pop_push] at h
    unfold executeIn at h
    split at h
    · cases h
    · split at h
      · cases h
      · dsimp only at h
        split at h
        · cases h
        · next t m₁ _ =>
          cases t with
          | next => cases h
          | jump distance => cases h
          | enter handle function argc =>
            simp only [transfer] at h
            split at h <;> cases h
          | leave result =>
            simp only [transfer] at h
            split at h
            · next hcaller =>
              cases h
              rw [Array.isEmpty_iff.1 hcaller]
              exact ⟨rfl, rfl⟩
            · cases h

theorem step_eq_finished (h : step env frames m = .finished m') :
    frames.size = 1 ∧ m'.stack = #[] := by
  unfold step at h
  split at h
  · cases h
  · exact execute_eq_finished h

/-- The memory that a step leaves. -/
def StepResult.memory : StepResult κ σ → Memory κ σ
  | .running _ m => m
  | .finished m => m
  | .faulted _ _ m => m

/-- What is steady survives the instruction of a step, if that does not assign to a global
or the assignment leaves it as well. -/
theorem execute_maintains_of {P : Memory κ σ → Prop} (hP : Steady env P) (h : P m)
    (frames : Array Frame)
    (hglobals : ∀ frame ∈ frames.back?, ∀ {i next},
      frame.function.chunk.fetch frame.ip = .instruction i next → i.opcode = .setGlobal →
        ∀ m value, P m → P { m with globals := m.globals.setIfInBounds i.first.toNat value }) :
    P (execute env frames m).memory := by
  unfold execute
  split
  · exact h
  · next frame hlast =>
    unfold executeIn
    split
    · exact h
    · split
      · exact h
      · next i ip hfetch =>
        have hperformed := perform_maintains_of hP { frame with ip } i (hglobals frame hlast hfetch)
          m h
        dsimp only
        generalize perform env { frame with ip } i m = r at hperformed
        cases r with
        | error fault m₁ => exact hperformed
        | ok t m₁ =>
          dsimp only [memoryOf] at hperformed ⊢
          cases t with
          | next => exact hperformed
          | jump distance => exact hperformed
          | enter handle function argc =>
            simp only [transfer]
            split <;> exact hperformed
          | leave result =>
            simp only [transfer]
            split
            · exact hP.stack hperformed (by simp)
            · refine hP.stack hperformed ?_
              rw [Array.size_setIfInBounds, Array.size_shrink]
              omega

/-- What is stable survives the instruction of a step. -/
theorem execute_maintains {P : Memory κ σ → Prop} (hP : Stable env P) (h : P m)
    (frames : Array Frame) : P (execute env frames m).memory :=
  execute_maintains_of hP.toSteady h frames fun _ _ {_ _} _ _ _ value => hP.globals _ value

/-- What is stable survives a run without collections. -/
theorem Ends.maintains {P : Memory κ σ → Prop} (hP : Stable env P) (h : P m)
    {result : RunResult κ σ} (hends : Ends (ScriptMachine.execute env) frames m result) :
    P result.last.memory := by
  obtain ⟨frames₁, m₁, hsteps, hlast⟩ := hends
  have hm₁ : P m₁ := by
    clear hlast
    induction hsteps with
    | refl => exact h
    | @tail frames₂ _ m₂ _ _ hstep ih =>
      have hmaintained := execute_maintains hP ih frames₂
      rwa [hstep] at hmaintained
  have hmaintained := execute_maintains hP hm₁ frames₁
  rwa [hlast] at hmaintained

end Step

/-! ## Looking code up again -/

/-- The handle reaches a function with the given code. -/
def Heap.HasCode (heap : Heap κ) (handle : Handle) (chunk : Chunk) : Prop :=
  ∃ f, heap.get handle = .ok (.function f) ∧ f.chunk = chunk

theorem Heap.Kept.hasCode {origin heap : Heap κ} (h : origin.Kept heap) {handle : Handle}
    {chunk : Chunk} (hcode : origin.HasCode handle chunk) : heap.HasCode handle chunk := by
  obtain ⟨f, hget, hchunk⟩ := hcode
  exact ⟨f, h.get hget (by simp [Object.kind]), hchunk⟩

/-- How a heap goes on while a call of the function at a handle is in progress: native code
runs, lists are made and changed, and garbage is collected with the function as a root. -/
inductive Heap.During (call : NativeCall κ σ) (handle : Handle) (heap : Heap κ) : Heap κ → Prop
  | refl : During call handle heap heap
  | native {heap' : Heap κ} (code : κ) (args : List Value) (host : σ)
      (h : During call handle heap heap') : During call handle heap
        (call code args (heap', host)).2.1
  | newList {heap' : Heap κ} (items : Array Value) (h : During call handle heap heap') :
      During call handle heap (heap'.alloc (.list items)).2
  | setItem {heap' : Heap κ} (list : Handle) (position : Nat) (value : Value)
      (h : During call handle heap heap') :
      During call handle heap (heap'.modifyList list (·.setIfInBounds position value))
  | collect {heap' : Heap κ} {roots : Roots} (hroot : handle ∈ roots.frames)
      (h : During call handle heap heap') : During call handle heap (heap'.collect roots).2

/-- Native code that works on the heap through its operations, and neither changes nor
replaces the code of a function that is called: it may free the function, but if there is one
at its handle, it has the code that it had. -/
structure LeavesCode (call : NativeCall κ σ) : Prop where
  wf : ∀ {heap : Heap κ}, heap.WF → ∀ code args host, (call code args (heap, host)).2.1.WF
  code : ∀ {heap : Heap κ}, heap.WF → ∀ {handle chunk}, heap.HasCode handle chunk →
    ∀ {heap'}, heap.During call handle heap' → ∀ {chunk'}, heap'.HasCode handle chunk' →
      chunk' = chunk

section LeavesCode

variable {call : NativeCall κ σ} {handle : Handle} {chunk : Chunk} {heap heap' : Heap κ}

theorem Heap.HasCode.unique {chunk' : Chunk} (h : heap.HasCode handle chunk)
    (h' : heap.HasCode handle chunk') : chunk' = chunk := by
  obtain ⟨f, hget, rfl⟩ := h
  obtain ⟨f', hget', rfl⟩ := h'
  rw [hget] at hget'
  cases hget'
  rfl

/-- What the operations of the machine keep, and native code as well, holds for as long as the
call is in progress. -/
theorem Heap.During.keeps {P : Heap κ → Prop} (h : heap.During call handle heap') (hwf : heap.WF)
    (hcall : ∀ {heap : Heap κ}, heap.WF → ∀ code args host, (call code args (heap, host)).2.1.WF)
    (hstart : P heap)
    (hnative : ∀ {heap}, heap.WF → P heap → ∀ code args host, P (call code args (heap, host)).2.1)
    (hnew : ∀ {heap}, heap.WF → P heap → ∀ items, P (heap.alloc (.list items)).2)
    (hset : ∀ {heap}, heap.WF → P heap → ∀ list f, P (heap.modifyList list f))
    (hcollect : ∀ {heap}, heap.WF → P heap → ∀ {roots}, heap.Reachable roots handle →
      P (heap.collect roots).2) : P heap' := by
  suffices hboth : heap'.WF ∧ P heap' from hboth.2
  induction h with
  | refl => exact ⟨hwf, hstart⟩
  | native code args host _ ih => exact ⟨hcall ih.1 _ _ _, hnative ih.1 ih.2 _ _ _⟩
  | newList items _ ih => exact ⟨ih.1.alloc _, hnew ih.1 ih.2 _⟩
  | setItem list position value _ ih =>
    exact ⟨((Kept.refl ih.1).modifyList _ _).wf, hset ih.1 ih.2 _ _⟩
  | collect hroot _ ih =>
    exact ⟨ih.1.collect _, hcollect ih.1 ih.2 (.root (List.mem_append_right _ hroot))⟩

/-- Native code may add functions if it takes none away. -/
theorem LeavesCode.of_keeps
    (hwf : ∀ {heap : Heap κ}, heap.WF → ∀ code args host, (call code args (heap, host)).2.1.WF)
    (hkeeps : ∀ {heap : Heap κ}, heap.WF → ∀ code args host {handle chunk},
      heap.HasCode handle chunk → (call code args (heap, host)).2.1.HasCode handle chunk) :
    LeavesCode call where
  wf := hwf
  code := by
    intro heap hheap handle chunk hcode heap' hduring chunk' hcode'
    have hkept := hduring.keeps (P := fun heap => heap.HasCode handle chunk) hheap hwf hcode
      (fun hwf h code args host => hkeeps hwf code args host h)
      (fun hwf h items => ((Heap.Kept.refl hwf).alloc (.list items)).hasCode h)
      (fun hwf h list f => ((Heap.Kept.refl hwf).modifyList list f).hasCode h)
      (fun hwf h _ hreach => by
        obtain ⟨f, hget, hchunk⟩ := h
        exact ⟨f, (Heap.get_collect_of_reachable hwf hreach).trans hget, hchunk⟩)
    exact hkept.unique hcode'

/-- Native code may take functions away if it adds none. -/
theorem LeavesCode.of_frees
    (hwf : ∀ {heap : Heap κ}, heap.WF → ∀ code args host, (call code args (heap, host)).2.1.WF)
    (hfrees : ∀ {heap : Heap κ}, heap.WF → ∀ code args host {handle chunk},
      (call code args (heap, host)).2.1.HasCode handle chunk → heap.HasCode handle chunk) :
    LeavesCode call where
  wf := hwf
  code := by
    intro heap hheap handle chunk hcode heap' hduring chunk' hcode'
    refine hduring.keeps (P := fun heap => ∀ {chunk'}, heap.HasCode handle chunk' → chunk' = chunk)
      hheap hwf (fun h => hcode.unique h) (fun hwf h code args host _ h' => h (hfrees hwf _ _ _ h'))
      (fun hwf h items _ h' => h ?_) (fun hwf h list f _ h' => h ?_)
      (fun hwf h _ hreach _ h' => h ?_) hcode'
    · obtain ⟨f, hget, hchunk⟩ := h'
      rcases Heap.get_of_get_alloc hwf hget with ⟨-, heq⟩ | hget
      · cases heq
      · exact ⟨f, hget, hchunk⟩
    · obtain ⟨g, hget, hchunk⟩ := h'
      rcases Heap.get_of_get_modifyList hget with hget | ⟨items, -, -, heq⟩
      · exact ⟨g, hget, hchunk⟩
      · cases heq
    · obtain ⟨f, hget, hchunk⟩ := h'
      rw [Heap.get_collect_of_reachable hwf hreach] at hget
      exact ⟨f, hget, hchunk⟩

/-- Native code that collects garbage without roots frees what it can and leaves code alone. -/
example : LeavesCode (fun _ _ (heap, host) => (.ok .null, ((heap.collect {}).2, host)) :
    NativeCall Unit Unit) := by
  refine .of_frees (fun hwf _ _ _ => hwf.collect _) ?_
  rintro heap hwf _ _ _ handle chunk ⟨f, hget, hchunk⟩
  have hlive := (Heap.isLive_collect hwf {} handle).1 (Heap.isLive_iff.2 ⟨_, hget⟩)
  exact ⟨f, (Heap.get_collect_of_reachable hwf hlive.2).symm.trans hget, hchunk⟩

theorem KeepsObjects.leavesCode (h : KeepsObjects call) : LeavesCode call := by
  refine .of_keeps (fun hwf code args host => (h (.refl hwf) code args host).wf) ?_
  rintro heap hwf code args host handle chunk ⟨f, hget, hchunk⟩
  exact ⟨f, (h (.refl hwf) code args host).get hget (by simp [Object.kind]), hchunk⟩

end LeavesCode

/-- The frame has the code that its function had when it was called. -/
def Frame.Runs (call : NativeCall κ σ) (heap : Heap κ) (frame : Frame) : Prop :=
  ∃ origin : Heap κ, origin.WF ∧ origin.HasCode frame.handle frame.function.chunk ∧
    origin.During call frame.handle heap

/-- Every frame has the code that its function had when it was called. -/
structure UpToDate (call : NativeCall κ σ) (frames : Array Frame) (heap : Heap κ) : Prop where
  wf : heap.WF
  runs : ∀ frame ∈ frames, frame.Runs call heap

section Rereading

variable {env : Environment κ σ} {outer frames frames' : Array Frame} {frame : Frame}
  {m m' : Memory κ σ} {heap : Heap κ}

theorem Frame.runs_of_get {call : NativeCall κ σ} (hwf : heap.WF) {f : Function}
    (hget : heap.get frame.handle = .ok (.function f)) (hchunk : f.chunk = frame.function.chunk) :
    frame.Runs call heap := ⟨heap, hwf, ⟨f, hget, hchunk⟩, .refl⟩

theorem UpToDate.stable (hcall : LeavesCode env.call) (frames : Array Frame) :
    Stable env fun m => UpToDate env.call frames m.heap where
  stack hm _ := hm
  globals _ _ hm := hm
  output _ hm := hm
  newList items hm := by
    refine ⟨hm.wf.alloc _, fun frame hframe => ?_⟩
    obtain ⟨origin, hwf, hcode, hduring⟩ := hm.runs frame hframe
    exact ⟨origin, hwf, hcode, .newList items hduring⟩
  setItem list position value hm := by
    refine ⟨((Heap.Kept.refl hm.wf).modifyList _ _).wf, fun frame hframe => ?_⟩
    obtain ⟨origin, hwf, hcode, hduring⟩ := hm.runs frame hframe
    exact ⟨origin, hwf, hcode, .setItem list position value hduring⟩
  native code args hm := by
    refine ⟨hcall.wf hm.wf _ _ _, fun frame hframe => ?_⟩
    obtain ⟨origin, hwf, hcode, hduring⟩ := hm.runs frame hframe
    exact ⟨origin, hwf, hcode, .native code args _ hduring⟩

theorem chunk_reread (hcall : LeavesCode env.call) (h : frame.Runs env.call heap) :
    (frame.reread heap).function.chunk = frame.function.chunk := by
  obtain ⟨origin, hwf, hcode, hduring⟩ := h
  unfold Frame.reread
  split
  · next f hfunction =>
    exact hcall.code hwf hcode hduring ⟨f, Heap.function_eq_ok.1 hfunction, rfl⟩
  · rfl

@[simp] theorem handle_reread : (frame.reread heap).handle = frame.handle := by
  unfold Frame.reread
  split <;> rfl

@[simp] theorem ip_reread : (frame.reread heap).ip = frame.ip := by
  unfold Frame.reread
  split <;> rfl

theorem remaining_reread (hcall : LeavesCode env.call) (h : frame.Runs env.call heap) :
    (frame.reread heap).remaining = frame.remaining := by
  simp only [Frame.remaining, chunk_reread hcall h, ip_reread]

namespace UpToDate

/-- Code that has just been called is up to date. -/
theorem start {call : NativeCall κ σ} (hwf : heap.WF) {handle : Handle} {f : Function}
    (hfound : heap.function handle = .ok f) {base : Nat} :
    UpToDate call #[⟨handle, f, base, 0⟩] heap := by
  refine ⟨hwf, fun frame hframe => ?_⟩
  obtain rfl := Array.mem_singleton.1 hframe
  exact Frame.runs_of_get hwf (Heap.function_eq_ok.1 hfound) rfl

theorem callers (h : UpToDate env.call (outer.push frame) heap) : UpToDate env.call outer heap :=
  ⟨h.wf, fun other hother => h.runs other (by simp [hother])⟩

theorem push (h : UpToDate env.call outer heap) (hruns : frame.Runs env.call heap) :
    UpToDate env.call (outer.push frame) heap := by
  refine ⟨h.wf, fun other hother => ?_⟩
  rcases Array.mem_push.1 hother with hother | rfl
  · exact h.runs other hother
  · exact hruns

theorem reread (h : UpToDate env.call (outer.push frame) heap) (hcall : LeavesCode env.call) :
    UpToDate env.call (outer.push (frame.reread heap)) heap := by
  have hruns := h.runs frame (by simp)
  refine h.callers.push ?_
  rw [Frame.Runs, handle_reread, chunk_reread hcall hruns]
  exact hruns

/-- Reading code does not change what the frames have before them. -/
theorem countdown_reread (h : UpToDate env.call (outer.push frame) heap)
    (hcall : LeavesCode env.call) (config : Config) :
    countdown config (outer.push (frame.reread heap)) = countdown config (outer.push frame) := by
  simp only [countdown, Array.toList_push, List.map_append, List.map_cons, List.map_nil,
    remaining_reread hcall (h.runs frame (by simp))]

theorem execute (h : UpToDate env.call frames m.heap) (hcall : LeavesCode env.call)
    (hstep : execute env frames m = .running frames' m') : UpToDate env.call frames' m'.heap := by
  obtain ⟨outer, frame, i, ip, t, m₁, rfl, -, hperform, hleads⟩ := execute_eq_running hstep
  have hdate := perform_maintains (UpToDate.stable hcall (outer.push frame)) { frame with ip } i m h
  rw [hperform] at hdate
  have hframe := hdate.runs frame (by simp)
  have houter := hdate.callers
  cases hleads with
  | next => exact houter.push hframe
  | jump distance => exact houter.push hframe
  | enter handle function argc =>
    have hcaller : UpToDate env.call (outer.push { frame with ip }) m'.heap := houter.push hframe
    exact hcaller.push (Frame.runs_of_get hdate.wf (get_of_enter hperform) rfl)
  | leave result => exact ⟨houter.wf, houter.runs⟩

theorem collect (h : UpToDate env.call frames m.heap) (methods : MethodTable) :
    UpToDate env.call frames (m.collect methods frames).2.heap := by
  refine ⟨h.wf.collect _, fun frame hframe => ?_⟩
  obtain ⟨origin, hwf, hcode, hduring⟩ := h.runs frame hframe
  have hroot : frame.handle ∈ (m.roots methods frames).frames :=
    List.mem_map_of_mem (Array.mem_toList_iff.2 hframe)
  exact ⟨origin, hwf, hcode, .collect hroot hduring⟩

theorem collectIfDue (h : UpToDate env.call frames m.heap) :
    UpToDate env.call frames (m.collectIfDue env frames).heap := by
  unfold Memory.collectIfDue
  split
  · exact h.collect _
  · split
    · exact h.collect _
    · exact h

/-- Frames stay up to date. -/
theorem stepReading (h : UpToDate env.call frames m.heap) (hcall : LeavesCode env.call)
    (hstep : stepReading env frames m = .running frames' m') :
    UpToDate env.call frames' m'.heap := by
  obtain ⟨outer, frame, rfl⟩ := Array.exists_push_of_ne_empty (ne_empty_of_stepReading hstep)
  rw [stepReading_push] at hstep
  obtain ⟨m₁, hexecute, rfl⟩ := step_eq_running hstep
  exact ((h.reread hcall).execute hcall hexecute).collectIfDue

end UpToDate

/-- A run ends, if native code leaves the code of functions alone. -/
theorem ends_stepReading (hcall : LeavesCode env.call) (h : UpToDate env.call frames m.heap)
    (bounded : frames.size ≤ env.config.frameBound) :
    ∃ result, Ends (stepReading env) frames m result := by
  -- By induction on what the frames have before them, outermost first.
  induction hcount : countdown env.config frames using
    (Countdown.wellFounded env.config.frameBound).wf.induction generalizing frames m with
  | _ count ih =>
    subst hcount
    cases hstep : stepReading env frames m with
    | finished m' => exact ⟨.finished m', frames, m, .refl, hstep⟩
    | faulted fault frames' m' => exact ⟨.faulted fault frames' m', frames, m, .refl, hstep⟩
    | running frames' m' =>
      obtain ⟨outer, frame, rfl⟩ := Array.exists_push_of_ne_empty (ne_empty_of_stepReading hstep)
      have hshortens : Shortens env.config frames' (outer.push (frame.reread m.heap)) :=
        shortens_of_step (by simpa using bounded) ((stepReading_push ..).symm.trans hstep)
      have hdescends := hshortens.2
      rw [h.countdown_reread hcall] at hdescends
      obtain ⟨result, hends⟩ :=
        ih _ hdescends (h.stepReading hcall hstep) hshortens.1 rfl
      exact ⟨result, hends.head hstep⟩

end Rereading

/-! ## Both machines agree -/

/-- The frame without the name and the arity of its function, which play no part in
how it runs. -/
def Frame.bare (frame : Frame) : Frame :=
  { frame with function := ⟨"", 0, frame.function.chunk⟩ }

/-- The outcome of a step with bare frames. -/
def StepResult.bare : StepResult κ σ → StepResult κ σ
  | .running frames m => .running (frames.map Frame.bare) m
  | .finished m => .finished m
  | .faulted fault frames m => .faulted fault (frames.map Frame.bare) m

section Bare

variable {env : Environment κ σ} {outer outer' frames frames' : Array Frame}
  {frame frame' : Frame} {m m' : Memory κ σ}

theorem bare_transfer (config : Config) (houter : outer.map Frame.bare = outer'.map Frame.bare)
    (hframe : frame.bare = frame'.bare) (m : Memory κ σ) (t : Transfer) :
    (transfer config outer frame m t).bare = (transfer config outer' frame' m t).bare := by
  have hsize : outer.size = outer'.size := by simpa using congrArg Array.size houter
  cases t with
  | next => simp only [transfer, StepResult.bare, Array.map_push, houter, hframe]
  | jump distance =>
    have hjump : Frame.bare { frame with ip := frame.ip + distance } =
        Frame.bare { frame' with ip := frame'.ip + distance } :=
      congrArg (fun f : Frame => { f with ip := f.ip + distance }) hframe
    simp only [transfer, StepResult.bare, Array.map_push, houter, hjump]
  | enter handle function argc =>
    simp only [transfer, hsize]
    split <;> simp only [StepResult.bare, Array.map_push, houter, hframe]
  | leave result =>
    have hbase : frame.bare.base = frame'.bare.base := by rw [hframe]
    have hempty : outer.isEmpty = outer'.isEmpty := by simp only [Array.isEmpty, hsize]
    simp only [Frame.bare] at hbase
    simp only [transfer, hempty, hbase]
    cases outer'.isEmpty <;> simp [StepResult.bare, houter]

theorem bare_executeIn (env : Environment κ σ)
    (houter : outer.map Frame.bare = outer'.map Frame.bare) (hframe : frame.bare = frame'.bare)
    (m : Memory κ σ) : (executeIn env outer frame m).bare =
      (executeIn env outer' frame' m).bare := by
  obtain ⟨handle, ⟨name, arity, chunk⟩, base, ip⟩ := frame
  obtain ⟨handle', ⟨name', arity', chunk'⟩, base', ip'⟩ := frame'
  cases hframe
  unfold executeIn
  dsimp only
  cases m.heap.function handle with
  | error fault => simp only [StepResult.bare, Array.map_push, houter, Frame.bare]
  | ok _ =>
    dsimp only
    cases chunk.fetch ip with
    | fault fault ip => simp only [StepResult.bare, Array.map_push, houter, Frame.bare]
    | instruction i ip =>
      dsimp only
      -- No instruction reads the name or the arity of the function.
      have hperform : perform env ⟨handle, ⟨name, arity, chunk⟩, base, ip⟩ i m =
          perform env ⟨handle, ⟨name', arity', chunk⟩, base, ip⟩ i m := rfl
      rw [hperform]
      cases perform env ⟨handle, ⟨name', arity', chunk⟩, base, ip⟩ i m with
      | error fault m => simp only [StepResult.bare, Array.map_push, houter, Frame.bare]
      | ok t m =>
        have hnext : Frame.bare ⟨handle, ⟨name, arity, chunk⟩, base, ip⟩ =
            Frame.bare ⟨handle, ⟨name', arity', chunk⟩, base, ip⟩ := rfl
        exact bare_transfer env.config houter hnext m t

theorem bare_execute (env : Environment κ σ)
    (h : frames.map Frame.bare = frames'.map Frame.bare) (m : Memory κ σ) :
    (execute env frames m).bare = (execute env frames' m).bare := by
  have hsize : frames.size = frames'.size := by simpa using congrArg Array.size h
  by_cases hempty : frames = #[]
  · subst hempty
    rw [Array.eq_empty_of_size_eq_zero hsize.symm]
  · have hempty' : frames' ≠ #[] := by
      rintro rfl
      exact hempty (Array.eq_empty_of_size_eq_zero hsize)
    obtain ⟨outer, frame, rfl⟩ := Array.exists_push_of_ne_empty hempty
    obtain ⟨outer', frame', rfl⟩ := Array.exists_push_of_ne_empty hempty'
    rw [Array.map_push, Array.map_push, Array.push_eq_push] at h
    rw [execute_push, execute_push]
    exact bare_executeIn env h.2 h.1 m

theorem collectIfDue_bare (env : Environment κ σ)
    (h : frames.map Frame.bare = frames'.map Frame.bare) (m : Memory κ σ) :
    m.collectIfDue env frames = m.collectIfDue env frames' := by
  have hhandles : ∀ fs : Array Frame, fs.toList.map (·.handle) =
      (fs.map Frame.bare).toList.map (·.handle) := fun fs => by
    rw [Array.toList_map, List.map_map]
    rfl
  have hroots : m.roots env.methods frames = m.roots env.methods frames' := by
    simp only [Memory.roots]
    rw [hhandles, h, ← hhandles]
  simp only [Memory.collectIfDue, Memory.collect, hroots]

/-- Frames with the same code take the same steps. -/
theorem bare_step (env : Environment κ σ) (h : frames.map Frame.bare = frames'.map Frame.bare)
    (m : Memory κ σ) : (step env frames m).bare = (step env frames' m).bare := by
  have hexecute := bare_execute env h m
  unfold step
  generalize execute env frames m = r at hexecute
  generalize execute env frames' m = r' at hexecute
  cases r with
  | running next m₁ =>
    cases r' with
    | running next' m₂ =>
      obtain ⟨hnext, rfl⟩ := StepResult.running.inj hexecute
      simp only [StepResult.bare, hnext, collectIfDue_bare env hnext]
    | finished m₂ => cases hexecute
    | faulted fault next' m₂ => cases hexecute
  | finished m₁ =>
    cases r' with
    | running next' m₂ => cases hexecute
    | finished m₂ => exact hexecute
    | faulted fault next' m₂ => cases hexecute
  | faulted fault next m₁ =>
    cases r' with
    | running next' m₂ => cases hexecute
    | finished m₂ => cases hexecute
    | faulted fault' next' m₂ => exact hexecute

theorem bare_reread {heap : Heap κ}
    (h : (frame.reread heap).function.chunk = frame.function.chunk) :
    (frame.reread heap).bare = frame.bare := by
  unfold Frame.reread at h ⊢
  split at h
  · exact congrArg (fun chunk => { frame with function := ⟨"", 0, chunk⟩ }) h
  · rfl

/-- Reading code changes nothing when it is up to date. -/
theorem UpToDate.bare_stepReading (h : UpToDate env.call frames m.heap)
    (hcall : LeavesCode env.call) :
    (ScriptMachine.stepReading env frames m).bare = (step env frames m).bare := by
  by_cases hempty : frames = #[]
  · subst hempty
    rfl
  · obtain ⟨outer, frame, rfl⟩ := Array.exists_push_of_ne_empty hempty
    rw [stepReading_push]
    refine bare_step env ?_ m
    rw [Array.map_push, Array.map_push, bare_reread (chunk_reread hcall (h.runs frame (by simp)))]

/-- The calls in progress do not depend on the names that frames have. -/
theorem traceOf_bare (heap : Heap κ) (frames : Array Frame) :
    traceOf heap (frames.map Frame.bare) = traceOf heap frames := by
  simp only [traceOf, Array.size_map, Array.toList_map, ← List.map_drop, ← List.map_reverse,
    List.filterMap_map]
  rfl

/-- A run passes through the states of the machine whose frames keep their code. -/
theorem UpToDate.steps_of_reading (h : UpToDate env.call frames m.heap)
    (hcall : LeavesCode env.call)
    (hsteps : Steps (ScriptMachine.stepReading env) frames m frames' m') :
    UpToDate env.call frames' m'.heap ∧ ∃ frames₁, Steps (step env) frames m frames₁ m' ∧
      frames₁.map Frame.bare = frames'.map Frame.bare := by
  induction hsteps with
  | refl => exact ⟨h, frames, .refl, rfl⟩
  | @tail frames₁ frames₂ m₁ m₂ _ hstep ih =>
    obtain ⟨hdate, frames₁', hsteps', hbare⟩ := ih
    refine ⟨hdate.stepReading hcall hstep, ?_⟩
    have hsame := (bare_step env hbare m₁).trans (hdate.bare_stepReading hcall).symm
    rw [hstep] at hsame
    cases hnext : step env frames₁' m₁ with
    | running frames₂' m₂' =>
      rw [hnext] at hsame
      obtain ⟨hbare', rfl⟩ := StepResult.running.inj hsame
      exact ⟨frames₂', hsteps'.tail hnext, hbare'⟩
    | finished m₂' =>
      rw [hnext] at hsame
      cases hsame
    | faulted fault frames₂' m₂' =>
      rw [hnext] at hsame
      cases hsame

end Bare

end ScriptMachine
