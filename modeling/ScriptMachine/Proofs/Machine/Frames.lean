import ScriptMachine.Proofs.Machine.Lockstep
import ScriptMachine.Proofs.Machine.Safety

/-!
# Frames above one another

What a single step of a frame with safe code may do (`Moved`), and how the frames
of a run lie above one another on the stack (`Linked`): each frame starts where
its caller will find the result, and the innermost one reaches to the top.
`Sound` states hold code that is safe on paper; an instruction and a collection
keep a state sound (`Sound.step`), so that every state of a run is.
-/

namespace ScriptMachine

variable {κ σ : Type}

/-! ## One step -/

/-- What one step of the innermost frame may do, whose code stands at the site
`k`. -/
inductive Moved (k : Site κ) (env : Environment κ σ) (outer : Array Frame) (frame : Frame)
    (m : Memory κ σ) : StepResult κ σ → Prop
  | faulted {fault : Fault} {frames : Array Frame} {m' : Memory κ σ} (h : fault.Proper env) :
      Moved k env outer frame m (.faulted fault frames m')
  | stays {ip n : Nat} {m' : Memory κ σ} (hruns : k.Runs ip n)
      (hsize : m'.stack.size = frame.base + n) (hbelow : SameBelow frame.base m.stack m'.stack)
      (hglobals : m'.globals.size = m.globals.size) (hheap : m.heap.Evolves m'.heap) :
      Moved k env outer frame m (.running (outer.push { frame with ip }) m')
  | enters {ip n : Nat} {handle : Handle} {function : Function} (hruns : k.Runs ip n)
      (hpos : 0 < n) (hsize : m.stack.size = frame.base + n + function.arity)
      (hcallee : m.stack[frame.base + n - 1]? = some (.object handle))
      (hget : m.heap.get handle = .ok (.function function)) :
      Moved k env outer frame m
        (.running ((outer.push { frame with ip }).push ⟨handle, function, frame.base + n, 0⟩) m)
  | leaves {value : Value} {rest : Array Value} (houter : outer ≠ #[])
      (hstack : m.stack = rest.push value) (hsize : frame.base ≤ rest.size) :
      Moved k env outer frame m
        (.running outer (Memory.returnTo { m with stack := rest } frame.base value))
  | finished {m' : Memory κ σ} (houter : outer = #[]) : Moved k env outer frame m (.finished m')

section Moved

variable {k : Site κ} {env : Environment κ σ} {outer : Array Frame} {frame : Frame} {n : Nat}
  {m : Memory κ σ}

theorem Site.Ready.withIp (h : k.Ready env frame n m) (ip : Nat) :
    k.Ready env { frame with ip } n m :=
  ⟨h.chunk, h.heap, h.globals, h.size, h.live, h.methods⟩

/-- A step of a frame whose code is safe and whose memory fits it. -/
theorem executeIn_moved (hready : k.Ready env frame n m) (hruns : k.Runs frame.ip n)
    (hheld : m.heap.get frame.handle = .ok (.function frame.function))
    (hkeeps : KeepsObjects env.call) :
    Moved k env outer frame m (executeIn env outer frame m) := by
  obtain ⟨i, hholds, hpops, hoperand, hnext⟩ : ∃ i : Instruction, k.Holds frame.ip n i ∧
      i.pops ≤ n ∧ i.OperandOk k n ∧
      ∀ q ∈ i.targets frame.ip, k.Runs q (n - i.pops + i.pushes) := by
    cases hruns with
    | intro h hpops hoperand hnext => exact ⟨_, h, hpops, hoperand, hnext⟩
  have hfetch := hholds.fetch
  rw [← hready.chunk] at hfetch
  have hsize := hready.size
  let next : Frame := { frame with ip := frame.ip + i.length }
  have hperformed := perform_performed (hready.withIp (frame.ip + i.length)) hpops hoperand frame.ip
  have hevolves := perform_keeps hkeeps m.heap next i m (.refl hready.heap.wf)
  rw [executeIn_fetched (Heap.function_eq_ok.2 hheld) hfetch]
  change Performed env frame.base frame.ip n i m (perform env next i m) at hperformed
  generalize perform env next i m = result at hperformed hevolves
  cases hperformed with
  | fault h => exact .faulted h
  | @stays t distance m' ht htarget hsize' hbelow hglobals =>
    have hruns' := hnext _ htarget
    cases t with
    | next =>
      cases ht
      exact .stays hruns' hsize' hbelow hglobals hevolves
    | jump d =>
      cases ht
      exact .stays hruns' hsize' hbelow hglobals hevolves
    | enter => cases ht
    | leave => cases ht
  | @enters handle function hop harity hcallee hget =>
    dsimp only [transfer]
    split
    · exact .faulted (.own ⟨id, id⟩)
    · have htargets : i.targets frame.ip = [frame.ip + i.length] := by
        rw [Instruction.targets, hop]
      have hcount : i.pops = i.first.toNat + 1 := by rw [Instruction.pops, hop]
      have hresult : i.pushes = 1 := by rw [Instruction.pushes, hop]
      have hruns' := hnext (frame.ip + i.length) (by simp [htargets])
      have hbase : m.stack.size - i.first.toNat = frame.base + (n - i.pops + i.pushes) := by omega
      have hslot : m.stack.size - (i.first.toNat + 1) =
          frame.base + (n - i.pops + i.pushes) - 1 := by omega
      rw [hslot] at hcallee
      rw [hbase]
      exact .enters hruns' (by omega) (by omega) hcallee hget
  | @leaves value rest hop hstack =>
    have hcount : i.pops = 1 := by rw [Instruction.pops, hop]
    have hrest : m.stack.size = rest.size + 1 := by rw [hstack, Array.size_push]
    dsimp only [transfer]
    split
    · next hempty => exact .finished (Array.isEmpty_iff.1 hempty)
    · next hempty =>
      exact .leaves (fun h => hempty (Array.isEmpty_iff.2 h)) hstack (by omega)

end Moved

/-! ## Code on a heap -/

/-- The same code, with its names on another heap. -/
def Site.on (k : Site κ) (heap : Heap κ) : Site κ := { k with heap }

/-- Code is safe on every heap that has the strings among its constants. -/
theorem Site.Runs.on {k : Site κ} {heap : Heap κ} {p n : Nat} (h : k.Runs p n)
    (hstrings : ∀ {handle text}, .object handle ∈ k.chunk.constants →
      k.heap.get handle = .ok (.string text) → heap.get handle = .ok (.string text)) :
    (k.on heap).Runs p n := by
  induction h with
  | @intro p n i hholds hpops hoperand _ ih =>
    refine .intro (i := i) ⟨hholds.fetch, hholds.height⟩ hpops ?_ ih
    unfold Instruction.OperandOk at hoperand ⊢
    cases hop : i.opcode with
    | invoke =>
      rw [hop] at hoperand
      obtain ⟨name, handle, hconstant, hget⟩ := hoperand
      exact ⟨name, handle, hconstant, hstrings (Array.mem_of_getElem? hconstant) hget⟩
    | _ =>
      rw [hop] at hoperand
      exact hoperand

/-- The code of a function stands at a site that satisfies `code`, and is safe on
the heap from `ip` on, on a stack of height `n`. -/
def Placed (code : Site κ → Function → Prop) (globals : Nat) (heap : Heap κ) (f : Function)
    (ip n : Nat) : Prop :=
  ∃ k, code k f ∧ k.chunk = f.chunk ∧ k.globals = globals ∧ (k.on heap).Runs ip n

/-- All functions on a heap have safe code. -/
def Heap.Coded (heap : Heap κ) (code : Site κ → Function → Prop) (globals : Nat) : Prop :=
  ∀ {handle f}, heap.get handle = .ok (.function f) → Placed code globals heap f 0 f.arity

section Placed

variable {code : Site κ → Function → Prop} {globals : Nat} {heap heap' : Heap κ} {f : Function}
  {ip n : Nat}

theorem Placed.on (h : Placed code globals heap f ip n)
    (hstrings : ∀ {handle text}, .object handle ∈ f.chunk.constants →
      heap.get handle = .ok (.string text) → heap'.get handle = .ok (.string text)) :
    Placed code globals heap' f ip n := by
  obtain ⟨k, hcode, hchunk, hglobals, hruns⟩ := h
  refine ⟨k, hcode, hchunk, hglobals, hruns.on fun hmem => hstrings ?_⟩
  rw [← hchunk]
  exact hmem

theorem Placed.evolves (h : Placed code globals heap f ip n) (hheap : heap.Evolves heap') :
    Placed code globals heap' f ip n :=
  h.on fun _ hget => hheap.get hget (by simp [Object.kind])

theorem Heap.Coded.evolves (h : heap.Coded code globals) (hheap : heap.Evolves heap') :
    heap'.Coded code globals := by
  intro handle f hget
  have hplaced := h (hheap.function hget)
  exact hplaced.evolves hheap

/-- A collection keeps the strings among the constants of a function that it
keeps. -/
theorem Placed.collect {roots : Roots} (h : Placed code globals heap f ip n) (hwf : heap.WF)
    {handle : Handle} (hget : heap.get handle = .ok (.function f))
    (hreach : heap.Reachable roots handle) : Placed code globals (heap.collect roots).2 f ip n := by
  refine h.on fun {child text} hmem hstring => ?_
  have hchild : child ∈ (Object.function f : Object κ).children :=
    List.mem_filterMap.2 ⟨.object child, Array.mem_toList_iff.2 hmem, rfl⟩
  rw [Heap.get_collect_of_reachable hwf (hreach.child hget hchild)]
  exact hstring

theorem Heap.Coded.collect (h : heap.Coded code globals) (hwf : heap.WF) (roots : Roots) :
    Heap.Coded (heap.collect roots).2 code globals := by
  intro handle f hget
  have hlive : (heap.collect roots).2.isLive handle = true := Heap.isLive_iff.2 ⟨_, hget⟩
  have hreach := ((Heap.isLive_collect hwf roots handle).1 hlive).2
  rw [Heap.get_collect_of_reachable hwf hreach] at hget
  exact (h hget).collect hwf hget hreach

end Placed

/-! ## Frames above one another -/

/-- Frames that lie above one another, each with its code and the innermost last,
on a stack of the given size. The size that a caller has is the base of what it
has called: the slot below is where the result goes. -/
inductive Linked (code : Site κ → Function → Prop) (globals : Nat) (heap : Heap κ) :
    Array Frame → Nat → Prop
  | none : Linked code globals heap #[] 1
  | push {outer : Array Frame} {frame : Frame} {n : Nat}
      (houter : Linked code globals heap outer frame.base)
      (hbase : ∀ caller ∈ outer.back?, caller.base < frame.base)
      (hplaced : Placed code globals heap frame.function frame.ip n) :
      Linked code globals heap (outer.push frame) (frame.base + n)

section Linked

variable {code : Site κ → Function → Prop} {globals size : Nat} {heap heap' : Heap κ}
  {outer frames : Array Frame} {frame : Frame}

theorem Linked.inv (h : Linked code globals heap (outer.push frame) size) :
    ∃ n, size = frame.base + n ∧ Linked code globals heap outer frame.base ∧
      (∀ caller ∈ outer.back?, caller.base < frame.base) ∧
      Placed code globals heap frame.function frame.ip n := by
  generalize hframes : outer.push frame = frames at h
  cases h with
  | none => simp at hframes
  | push houter hbase hplaced =>
    obtain ⟨rfl, rfl⟩ := Array.push_eq_push.1 hframes
    exact ⟨_, rfl, houter, hbase, hplaced⟩

theorem Linked.base_pos (h : Linked code globals heap frames size) : 0 < size := by
  induction h with
  | none => exact Nat.one_pos
  | push _ _ _ ih => exact Nat.lt_of_lt_of_le ih (Nat.le_add_right _ _)

/-- Frames stay where they are on a heap on which their code is safe as well. -/
theorem Linked.on (h : Linked code globals heap frames size)
    (hcode : ∀ {frame ip n}, frame ∈ frames → Placed code globals heap frame.function ip n →
      Placed code globals heap' frame.function ip n) : Linked code globals heap' frames size := by
  induction h with
  | none => exact .none
  | push _ hbase hplaced ih =>
    refine .push (ih fun hmem => hcode (Array.mem_push_of_mem _ hmem)) hbase ?_
    exact hcode Array.mem_push_self hplaced

end Linked

/-! ## Sound states -/

/-- A state in which every handle is live, every method is a native, and all
code is safe where it stands and where it has been left for a call. -/
structure Sound (code : Site κ → Function → Prop) (globals : Nat) (env : Environment κ σ)
    (frames : Array Frame) (m : Memory κ σ) : Prop where
  aligned : ∃ frames' m', Aligned env env frames m frames' m'
  methods : env.methods.On m.heap
  coded : m.heap.Coded code globals
  globals_eq : m.globals.size = globals
  active : frames ≠ #[]
  linked : Linked code globals m.heap frames m.stack.size

theorem MethodTable.On.evolves {methods : MethodTable} {heap heap' : Heap κ} (h : methods.On heap)
    (hheap : heap.Evolves heap') : methods.On heap' := by
  intro method hmethod
  obtain ⟨native, hget⟩ := h method hmethod
  exact ⟨native, hheap.get hget (by simp [Object.kind])⟩

namespace Sound

variable {code : Site κ → Function → Prop} {globals : Nat} {env : Environment κ σ}
  {frames frames' outer : Array Frame} {frame : Frame} {m m' : Memory κ σ}

theorem wf (h : Sound code globals env frames m) : m.heap.WF := by
  obtain ⟨frames', m', β, halignedBy⟩ := h.aligned
  exact halignedBy.memory.heap.left_wf

theorem held (h : Sound code globals env frames m) : Held frames m.heap := by
  obtain ⟨frames', m', β, halignedBy⟩ := h.aligned
  exact halignedBy.held

theorem keeps (h : Sound code globals env frames m) : KeepsObjects env.call := by
  obtain ⟨frames', m', β, halignedBy⟩ := h.aligned
  exact halignedBy.keeps

theorem live (h : Sound code globals env frames m) : ∀ value ∈ m.stack, m.heap.Holds value := by
  obtain ⟨frames', m', β, halignedBy⟩ := h.aligned
  intro value hvalue handle hhandle
  obtain ⟨i, hi⟩ := Array.getElem?_of_mem hvalue
  have hmatch := halignedBy.memory.stack i
  rw [hi] at hmatch
  generalize m'.stack[i]? = found at hmatch
  cases hmatch with
  | some hmatch =>
    cases hmatch with
    | object hab =>
      cases hhandle
      obtain ⟨object, _, hget, -⟩ := halignedBy.memory.heap.objects hab
      exact Heap.isLive_iff.2 ⟨object, hget⟩
    | _ => cases hhandle

/-- What the innermost frame of a sound state stands at. -/
theorem exists_site (h : Sound code globals env (outer.push frame) m) :
    ∃ (k : Site κ) (n : Nat), code k frame.function ∧ k.chunk = frame.function.chunk ∧
      (k.on m.heap).Runs frame.ip n ∧ (k.on m.heap).Ready env frame n m := by
  obtain ⟨n, hsize, -, -, k, hcode, hchunk, hglobals, hruns⟩ := h.linked.inv
  refine ⟨k, n, hcode, hchunk, hruns, hchunk.symm, .refl h.wf, ?_, hsize, h.live, h.methods⟩
  exact h.globals_eq.trans hglobals.symm

theorem moved (h : Sound code globals env (outer.push frame) m) :
    ∃ k : Site κ, code k frame.function ∧ k.chunk = frame.function.chunk ∧ k.globals = globals ∧
      Moved (k.on m.heap) env outer frame m (executeIn env outer frame m) := by
  obtain ⟨k, n, hcode, hchunk, hruns, hready⟩ := h.exists_site
  refine ⟨k, hcode, hchunk, hready.globals.symm.trans h.globals_eq, ?_⟩
  exact executeIn_moved hready hruns (h.held frame (by simp)) h.keeps

/-- A state with the same code, on a heap that has evolved. -/
theorem evolves (h : Sound code globals env frames m)
    (haligned : ∃ frames₁ m₁, Aligned env env frames' m' frames₁ m₁)
    (hheap : m.heap.Evolves m'.heap) (hglobals : m'.globals.size = m.globals.size)
    (hactive : frames' ≠ #[]) (hlinked : Linked code globals m'.heap frames' m'.stack.size) :
    Sound code globals env frames' m' :=
  ⟨haligned, h.methods.evolves hheap, Heap.Coded.evolves h.coded hheap, hglobals.trans h.globals_eq,
    hactive,
    hlinked⟩

/-- An instruction keeps a state sound. -/
theorem execute (h : Sound code globals env frames m)
    (hexecute : execute env frames m = .running frames' m') :
    Sound code globals env frames' m' := by
  have haligned : ∃ frames₁ m₁, Aligned env env frames' m' frames₁ m₁ := by
    obtain ⟨frames₁, m₁, haligned⟩ := h.aligned
    have hresult := haligned.execute
    rw [hexecute] at hresult
    generalize ScriptMachine.execute env frames₁ m₁ = r at hresult
    cases hresult with
    | running haligned => exact ⟨_, _, haligned⟩
  obtain ⟨outer, frame, rfl⟩ := Array.exists_push_of_ne_empty h.active
  obtain ⟨k, hcode, hchunk, hglobals, hmoved⟩ := h.moved
  obtain ⟨n, hsize, hlinked, hbase, -⟩ := h.linked.inv
  rw [execute_push] at hexecute
  rw [hexecute] at hmoved
  cases hmoved with
  | stays hruns hsize' hbelow hglobals' hheap =>
    refine h.evolves haligned hheap hglobals' (by simp) ?_
    rw [hsize']
    refine .push (hlinked.on fun _ hplaced => hplaced.evolves hheap) hbase ?_
    exact Placed.evolves ⟨k, hcode, hchunk, hglobals, hruns⟩ hheap
  | @enters ip n' handle function hruns hpos hsize' hcallee hget =>
    refine h.evolves haligned (.refl h.wf) rfl (by simp) ?_
    rw [hsize']
    refine .push (.push hlinked hbase ⟨k, hcode, hchunk, hglobals, hruns⟩) ?_ (h.coded hget)
    simp only [Array.back?_push, Option.mem_some_iff, forall_eq']
    omega
  | @leaves value rest houter hstack hsize' =>
    refine h.evolves haligned (.refl h.wf) rfl houter ?_
    have hreturn : (Memory.returnTo { m with stack := rest } frame.base value).stack.size =
        frame.base := by
      rw [Memory.returnTo, Array.size_setIfInBounds, Array.size_shrink, Nat.min_eq_left hsize']
    rw [hreturn]
    exact hlinked

/-- A collection keeps a state sound: it frees neither a method nor the function
of a frame. -/
theorem collect (h : Sound code globals env frames m) :
    Sound code globals env frames (m.collect env.methods frames).2 := by
  obtain ⟨frames', m', haligned⟩ := h.aligned
  refine ⟨⟨frames', m', haligned.collect⟩, fun method hmethod => ?_,
    Heap.Coded.collect h.coded h.wf _, h.globals_eq, h.active, ?_⟩
  · obtain ⟨native, hget⟩ := h.methods method hmethod
    refine ⟨native, ?_⟩
    exact (Heap.get_collect_of_reachable h.wf (m.reachable_method frames hmethod)).trans hget
  · exact h.linked.on fun hmem hplaced =>
      hplaced.collect h.wf (h.held _ hmem) (m.reachable_frame env.methods hmem)

theorem collectIfDue (h : Sound code globals env frames m) :
    Sound code globals env frames (m.collectIfDue env frames) := by
  unfold Memory.collectIfDue
  split
  · exact h.collect
  · split
    · have hcollect := h.collect
      obtain ⟨frames', m', haligned⟩ := hcollect.aligned
      exact ⟨⟨frames', m', haligned.withCollectAt _⟩, hcollect.methods, hcollect.coded,
        hcollect.globals_eq, hcollect.active, hcollect.linked⟩
    · exact h

theorem step (h : Sound code globals env frames m)
    (hstep : stepReading env frames m = .running frames' m') :
    Sound code globals env frames' m' := by
  rw [h.held.stepReading_eq] at hstep
  obtain ⟨m₁, hexecute, rfl⟩ := step_eq_running hstep
  exact (h.execute hexecute).collectIfDue

/-- Every state of a run is sound. -/
theorem steps (h : Sound code globals env frames m)
    (hsteps : Steps (stepReading env) frames m frames' m') :
    Sound code globals env frames' m' := by
  induction hsteps with
  | refl => exact h
  | tail _ hstep ih => exact ih.step hstep

/-- A step of a sound state fails only from the program or from native code. -/
theorem proper_of_step (h : Sound code globals env frames m) {fault : Fault}
    (hstep : stepReading env frames m = .faulted fault frames' m') : fault.Proper env := by
  rw [h.held.stepReading_eq] at hstep
  obtain ⟨outer, frame, rfl⟩ := Array.exists_push_of_ne_empty h.active
  obtain ⟨k, -, -, -, hmoved⟩ := h.moved
  rw [← execute_push, step_eq_faulted hstep] at hmoved
  cases hmoved with
  | faulted h => exact h

end Sound

end ScriptMachine
