import ScriptMachine.Proofs.Codegen.Origins
import ScriptMachine.Proofs.Codegen.WellFormed
import ScriptMachine.Proofs.Machine.Concealment
import ScriptMachine.Proofs.Machine.Frames
import ScriptMachine.Proofs.Machine.Sparing

/-!
# Calls in progress

Which calls are in progress is told by what a run has performed (`Calling`): a call
adds to them, a return takes the last of them away. The frames of a run always stand
for just these calls, each at the instruction that has made the next one, and the
innermost one in front of an instruction of its listing (`Tracked.step`). None of them
is a call of the script, which no value refers to.
-/

namespace ScriptMachine

variable {κ σ : Type}

/-! ## Calls in progress -/

/-- A call in progress: what has been called, and where the call stands in the code of
the caller. -/
structure ActiveCall where
  callee : Handle
  site : Nat

/-- The calls in progress, the innermost first, after an instruction at `site`. -/
def Transfer.calls (site : Nat) (calls : List ActiveCall) : Transfer → List ActiveCall
  | .enter handle .. => ⟨handle, site⟩ :: calls
  | .leave _ => calls.tail
  | .next | .jump _ => calls

/-- A run with the calls that are in progress. -/
inductive Calling (env : Environment κ σ) (frames₀ : Array Frame) (m₀ : Memory κ σ) :
    List ActiveCall → Array Frame → Memory κ σ → Prop
  | start : Calling env frames₀ m₀ [] frames₀ m₀
  | step {calls : List ActiveCall} {outer frames' : Array Frame} {frame : Frame}
      {m m₁ m' : Memory κ σ} {i : Instruction} {ip : Nat} {t : Transfer}
      (h : Calling env frames₀ m₀ calls (outer.push frame) m)
      (hfetch : (frame.reread m.heap).function.chunk.fetch frame.ip = .instruction i ip)
      (hperform : perform env { frame.reread m.heap with ip } i m = .ok t m₁)
      (hstep : stepReading env (outer.push frame) m = .running frames' m') :
      Calling env frames₀ m₀ (t.calls frame.ip calls) frames' m'

/-- In every state of a run some calls are in progress. -/
theorem Steps.exists_calling {env : Environment κ σ} {frames₀ frames : Array Frame}
    {m₀ m : Memory κ σ} (h : Steps (stepReading env) frames₀ m₀ frames m) :
    ∃ calls, Calling env frames₀ m₀ calls frames m := by
  induction h with
  | refl => exact ⟨[], .start⟩
  | tail _ hstep ih =>
    obtain ⟨calls, hcalling⟩ := ih
    obtain ⟨outer, frame, rfl⟩ := Array.exists_push_of_ne_empty (ne_empty_of_stepReading hstep)
    obtain ⟨m', hexecute, -⟩ := step_eq_running ((stepReading_push ..).symm.trans hstep)
    rw [execute_push] at hexecute
    obtain ⟨i, ip, t, m₁, hfetch, hperform, -⟩ := executeIn_eq_running hexecute
    rw [ip_reread] at hfetch
    exact ⟨_, .step hcalling hfetch hperform hstep⟩

/-! ## Code that stands in a listing -/

/-- The code of a chunk is that of a listing which returns, and an instruction is listed
at `p`. -/
structure Chunk.StandsAt (heap : Heap κ) (L : List Listed) (p : Nat) (chunk : Chunk) : Prop where
  code : chunk.Transcribes heap True L
  selfContained : ∃ globals arity, SelfContained globals arity L
  listed : ∃ l, listedAt? L p = some l

section StandsAt

variable {heap : Heap κ} {L : List Listed} {p : Nat} {chunk : Chunk}

/-- Fetching moves on by the length of the instruction. -/
theorem Chunk.next_eq_of_fetch {ip next : Nat} {i : Instruction}
    (h : chunk.fetch ip = .instruction i next) : next = ip + i.length := by
  have hwidth : ∀ layout : Layout, layout.width = 0 ∨ layout.width = 1 ∨ layout.width = 2 :=
    fun layout => by cases layout <;> simp [Layout.width]
  unfold Instruction.length
  fun_cases Chunk.fetch chunk ip <;> grind [Chunk.fetch]

/-- The instruction that is listed is the one that is fetched. -/
theorem Chunk.StandsAt.fetch (h : chunk.StandsAt heap L p) :
    ∃ i l, listedAt? L p = some l ∧ l.Encodes ⟨chunk.constants, heap, True⟩ i ∧
      chunk.fetch p = .instruction i (p + i.length) := by
  obtain ⟨l, hl⟩ := h.listed
  obtain ⟨globals, arity, hself⟩ := h.selfContained
  obtain ⟨i, front, back, hencodes, hcode, rfl⟩ := h.code.code.exists_of_listedAt? hl
  refine ⟨i, l, hl, hencodes, Chunk.fetch_of_bytes hcode hencodes.first hencodes.second
    fun hlayout => ?_⟩
  have hoperand : i.OperandOk ⟨chunk, heap, globals, fun _ => 0⟩ l.height :=
    hencodes.operandOk (hself.operand hl)
  obtain ⟨op, first, second⟩ := i
  cases op with
  | invoke =>
    obtain ⟨name, handle, hconstant, -⟩ := hoperand
    exact (Array.getElem?_eq_some_iff.1 hconstant).1
  | _ => cases hlayout

/-- Where an instruction leads, another one is listed. -/
theorem Chunk.StandsAt.target (h : chunk.StandsAt heap L p) {i : Instruction} {next : Nat}
    (hfetch : chunk.fetch p = .instruction i next) {q : Nat} (hq : q ∈ i.targets p) :
    chunk.StandsAt heap L q := by
  obtain ⟨i', l, hl, hencodes, hfetch'⟩ := h.fetch
  rw [hfetch'] at hfetch
  cases hfetch
  obtain ⟨globals, arity, hself⟩ := h.selfContained
  rw [hencodes.targets_eq trivial (hself.operand hl)] at hq
  obtain ⟨l', hl', -⟩ := hself.targets hl q hq
  exact ⟨h.code, ⟨globals, arity, hself⟩, l', hl'⟩

/-- The line behind an instruction is that of what it belongs to. -/
theorem Chunk.StandsAt.line (h : chunk.StandsAt heap L p) {i : Instruction} {next : Nat}
    (hfetch : chunk.fetch p = .instruction i next) :
    ∃ l, listedAt? L p = some l ∧ l.opcode = i.opcode ∧ chunk.lineAt (next - 1) = l.node.line := by
  obtain ⟨i', l, hl, hencodes, hfetch'⟩ := h.fetch
  rw [hfetch'] at hfetch
  cases hfetch
  refine ⟨l, hl, hencodes.opcode.symm, ?_⟩
  rw [hencodes.length_eq]
  exact h.code.lineAt_eq hl

end StandsAt

/-! ## Programs on heaps -/

/-- A program as it lies on a heap: its script and its functions with their handles, and
how many globals and symbols it has. -/
structure Executable (κ : Type) where
  program : Program
  heap : Heap κ
  script : Handle
  fns : List (FnDecl × Handle)
  globals : Nat
  count : Nat

namespace Executable

/-- The functions on the heap are the script and those of the program, each with the
code and the lines of its listing. -/
structure Accurate (exe : Executable κ) : Prop where
  decls : exe.fns.map Prod.fst = exe.program.fns
  functions : ∀ fn ∈ exe.fns, exe.heap.Transcribes True fn.2 fn.1.name fn.1.params.length
    (fn.1.listed exe.globals exe.count)
  scriptListed : exe.heap.Transcribes True exe.script "script" 0
    (exe.program.listed exe.globals exe.count exe.fns)
  only : ∀ {handle f}, exe.heap.get handle = .ok (.function f) →
    handle = exe.script ∨ ∃ fn ∈ exe.fns, fn.2 = handle

/-- The name and the listing of the function at a handle. -/
inductive Lists (exe : Executable κ) : Handle → String → List Listed → Prop
  | script : Lists exe exe.script "script"
      (exe.program.listed exe.globals exe.count exe.fns)
  | fn {d : FnDecl} {handle : Handle} (h : (d, handle) ∈ exe.fns) :
      Lists exe handle d.name (d.listed exe.globals exe.count)

/-- A frame runs the code that is listed for its handle, and an instruction is listed at
`p`. -/
def Places (exe : Executable κ) (frame : Frame) (p : Nat) : Prop :=
  ∀ name L, exe.Lists frame.handle name L →
    frame.function.name = name ∧ frame.function.chunk.StandsAt exe.heap L p

section Places

variable {exe : Executable κ} {frame : Frame} {p next : Nat} {i : Instruction}

/-- A function that is on the heap starts with an instruction. -/
theorem Accurate.places (h : exe.Accurate) {handle : Handle} {function : Function}
    (hget : exe.heap.get handle = .ok (.function function)) (base : Nat) :
    exe.Places ⟨handle, function, base, 0⟩ 0 := by
  intro name L hL
  obtain ⟨arity, ⟨chunk, hget', hchunk⟩, hself⟩ :
      ∃ arity, exe.heap.Transcribes True handle name arity L ∧
        SelfContained exe.globals arity L := by
    cases hL with
    | script => exact ⟨0, h.scriptListed, Program.listed_selfContained _ _ _ _⟩
    | fn hfn => exact ⟨_, h.functions _ hfn, FnDecl.listed_selfContained _ _ _⟩
  rw [hget] at hget'
  cases hget'
  obtain ⟨l, hl, -⟩ := hself.start
  exact ⟨rfl, hchunk, ⟨_, arity, hself⟩, l, hl⟩

/-- Every function on the heap is listed. -/
theorem Accurate.exists_lists (h : exe.Accurate) {handle : Handle} {function : Function}
    (hget : exe.heap.get handle = .ok (.function function)) :
    ∃ name L, exe.Lists handle name L := by
  rcases h.only hget with rfl | ⟨fn, hfn, rfl⟩
  · exact ⟨_, _, .script⟩
  · exact ⟨_, _, .fn hfn⟩

theorem Places.target (h : exe.Places frame p)
    (hfetch : frame.function.chunk.fetch p = .instruction i next) {q : Nat} (hq : q ∈ i.targets p) :
    exe.Places frame q := fun name L hL => ⟨(h name L hL).1, (h name L hL).2.target hfetch hq⟩

end Places

end Executable

/-! ## Frames and calls -/

/-- The frames of a run stand for the calls in progress: below them is the script, and
each but the innermost has come to the call that has been made from it. -/
inductive Stacked (exe : Executable κ) : Array Frame → List ActiveCall → Prop
  | script {frame : Frame} (h : frame.handle = exe.script) : Stacked exe #[frame] []
  | call {outer : Array Frame} {caller frame : Frame} {calls : List ActiveCall} {site : Nat}
      {i : Instruction} (h : Stacked exe (outer.push caller) calls)
      (hsite : exe.Places caller site)
      (hfetch : caller.function.chunk.fetch site = .instruction i caller.ip)
        (hop : i.opcode = .call)
      (hne : frame.handle ≠ exe.script) :
      Stacked exe ((outer.push caller).push frame) (⟨frame.handle, site⟩ :: calls)

section Stacked

variable {exe : Executable κ} {outer : Array Frame} {frame : Frame} {calls : List ActiveCall}

/-- Where the innermost frame has come to does not matter. -/
theorem Stacked.withIp (h : Stacked exe (outer.push frame) calls) (ip : Nat) :
    Stacked exe (outer.push { frame with ip }) calls := by
  generalize hframes : outer.push frame = frames at h
  cases h with
  | @script frame' h =>
    obtain ⟨rfl, rfl⟩ := Array.push_eq_push.1 (show outer.push frame = #[].push frame' from hframes)
    exact .script h
  | call h hsite hfetch hop hne =>
    obtain ⟨rfl, rfl⟩ := Array.push_eq_push.1 hframes
    exact .call h hsite hfetch hop hne

/-- What is left when the innermost call returns. -/
theorem Stacked.returned (h : Stacked exe (outer.push frame) calls) (houter : outer ≠ #[]) :
    Stacked exe outer calls.tail ∧
      ∃ (callers : Array Frame) (caller : Frame) (site : Nat) (i : Instruction),
        outer = callers.push caller ∧ exe.Places caller site ∧
          caller.function.chunk.fetch site = .instruction i caller.ip ∧ i.opcode = .call := by
  generalize hframes : outer.push frame = frames at h
  cases h with
  | @script frame' h =>
    obtain ⟨rfl, rfl⟩ := Array.push_eq_push.1 (show outer.push frame = #[].push frame' from hframes)
    exact absurd rfl houter
  | @call callers caller _ _ site i h hsite hfetch hop hne =>
    obtain ⟨rfl, rfl⟩ := Array.push_eq_push.1 hframes
    exact ⟨h, callers, caller, site, i, rfl, hsite, hfetch, hop⟩

/-- The script is always being run. -/
theorem Stacked.exists_script {frames : Array Frame} (h : Stacked exe frames calls) :
    ∃ frame ∈ frames, frame.handle = exe.script := by
  induction h with
  | script h => exact ⟨_, by simp, h⟩
  | call _ _ _ _ _ ih =>
    obtain ⟨frame, hmem, hframe⟩ := ih
    exact ⟨frame, Array.mem_push_of_mem _ hmem, hframe⟩

end Stacked

/-! ## What steps preserve -/

theorem Memory.get_of_get_collectIfDue {m : Memory κ σ} (hwf : m.heap.WF) {env : Environment κ σ}
    {frames : Array Frame} {handle : Handle} {object : Object κ}
    (h : (m.collectIfDue env frames).heap.get handle = .ok object) :
    m.heap.get handle = .ok object := by
  have hcollect : ∀ {roots : Roots}, Heap.get (m.heap.collect roots).2 handle = .ok object →
      m.heap.get handle = .ok object := by
    intro roots hget
    obtain ⟨-, hreach⟩ := (Heap.isLive_collect hwf roots handle).1
      (Heap.isLive_iff.2 ⟨object, hget⟩)
    rwa [Heap.get_collect_of_reachable hwf hreach] at hget
  unfold Memory.collectIfDue at h
  split at h
  · exact hcollect h
  · split at h
    · exact hcollect h
    · exact h

/-- A state of a run of an executable, with the calls in progress. -/
structure Tracked (exe : Executable κ) (env : Environment κ σ) (calls : List ActiveCall)
    (frames : Array Frame) (m : Memory κ σ) : Prop where
  sound : ∃ code globals, Sound code globals env frames m
  conceals : m.Conceals exe.script
  inherits : ∀ {handle f}, m.heap.get handle = .ok (.function f) →
    exe.heap.get handle = .ok (.function f)
  stacked : Stacked exe frames calls
  innermost : ∀ frame ∈ frames.back?, exe.Places frame frame.ip

namespace Tracked

variable {exe : Executable κ} {env : Environment κ σ} {calls : List ActiveCall}
  {outer frames' : Array Frame} {frame : Frame} {m m₁ m' : Memory κ σ} {i : Instruction} {ip : Nat}
  {t : Transfer}

/-- The instruction that is fetched has its operands. -/
theorem fetched (h : Tracked exe env calls (outer.push frame) m)
    (hfetch : frame.function.chunk.fetch frame.ip = .instruction i ip) :
    ∃ (k : Site κ) (n : Nat), k.Ready env { frame with ip } n m ∧ i.pops ≤ n ∧ i.OperandOk k n := by
  obtain ⟨code, globals, hsound⟩ := h.sound
  obtain ⟨k, n, -, -, hruns, hready⟩ := hsound.exists_site
  cases hruns with
  | intro hholds hpops hoperand _ =>
    have hfetch' := hholds.fetch
    rw [← hready.chunk, hfetch] at hfetch'
    cases hfetch'
    exact ⟨k.on m.heap, n, hready.withIp _, hpops, hoperand⟩

/-- An instruction keeps the script concealed. -/
theorem concealed (h : Tracked exe env calls (outer.push frame) m) (hcall : KeepsConcealed env.call)
    (hfetch : frame.function.chunk.fetch frame.ip = .instruction i ip) :
    Concealed exe.script (perform env { frame with ip } i m) := by
  obtain ⟨k, n, hready, hpops, hoperand⟩ := h.fetched hfetch
  obtain ⟨code, globals, hsound⟩ := h.sound
  obtain ⟨-, -, hlinked, -, -⟩ := hsound.linked.inv
  exact perform_conceals h.conceals hready hlinked.base_pos hcall
    (h.conceals.heap.avoids_constant (hsound.held frame Array.mem_push_self)) hpops hoperand

/-- A step keeps track of the calls in progress. -/
theorem step (h : Tracked exe env calls (outer.push frame) m) (hexe : exe.Accurate)
    (hcall : KeepsConcealed env.call)
    (hfetch : frame.function.chunk.fetch frame.ip = .instruction i ip)
    (hperform : perform env { frame with ip } i m = .ok t m₁)
    (hstep : stepReading env (outer.push frame) m = .running frames' m') :
    Tracked exe env (t.calls frame.ip calls) frames' m' := by
  obtain ⟨code, globals, hsound⟩ := h.sound
  have hsound' := hsound.step hstep
  have hevolves := perform_keeps hsound.keeps m.heap { frame with ip } i m (.refl hsound.wf)
  have hconcealed := h.concealed hcall hfetch
  have hplaces := h.innermost frame Array.back?_push
  rw [hsound.held.stepReading_eq] at hstep
  obtain ⟨m₂, hexecute, rfl⟩ := step_eq_running hstep
  rw [execute_push] at hexecute
  obtain ⟨i', ip', t', m₁', hfetch', hperform', hleads⟩ := executeIn_eq_running hexecute
  rw [hfetch] at hfetch'
  cases hfetch'
  rw [hperform] at hperform' hevolves hconcealed
  cases hperform'
  obtain ⟨hconceals, havoids⟩ : m₁.Conceals exe.script ∧ t.Avoids exe.script := by
    cases hconcealed with
    | ok hm ht => exact ⟨hm, ht⟩
  have hinherits : ∀ {handle f}, m₁.heap.get handle = .ok (.function f) →
      exe.heap.get handle = .ok (.function f) := fun hget => h.inherits (hevolves.function hget)
  have hstays := staysIn_perform env { frame with ip } i frame.ip m t m₁ hperform
  rw [Chunk.next_eq_of_fetch hfetch] at hleads hperform
  -- A transfer does nothing to the heap, and a collection frees no frame's function.
  have hall : ∀ {calls : List ActiveCall} {callers : Array Frame} {inner : Frame},
      frames' = callers.push inner → m₂.Conceals exe.script → m₂.heap = m₁.heap →
      Stacked exe frames' calls → exe.Places inner inner.ip →
      Tracked exe env calls frames' (m₂.collectIfDue env frames') := by
    rintro calls callers inner rfl hconceals hheap hstacked hinner
    refine ⟨⟨code, globals, hsound'⟩, hconceals.collectIfDue hstacked.exists_script, fun hget => ?_,
      hstacked, fun frame hframe => ?_⟩
    · have hget' := Memory.get_of_get_collectIfDue (hheap ▸ hevolves.wf) hget
      rw [hheap] at hget'
      exact hinherits hget'
    · rw [Array.back?_push] at hframe
      cases hframe
      exact hinner
  cases hleads with
  | next => exact hall rfl hconceals rfl (h.stacked.withIp _) (hplaces.target hfetch (hstays 0 rfl))
  | jump distance =>
    exact hall rfl hconceals rfl (h.stacked.withIp _) (hplaces.target hfetch (hstays distance rfl))
  | enter handle function argc =>
    have hop : i.opcode = .call := by
      by_contra hne
      exact not_isCall_of_perform hne m _ _ hperform trivial
    rw [Chunk.next_eq_of_fetch hfetch] at hfetch
    exact hall rfl hconceals rfl (.call (h.stacked.withIp _) hplaces hfetch hop havoids)
      (hexe.places (hinherits (get_of_enter hperform)) _)
  | leave result hcaller =>
    obtain ⟨hstacked, callers, caller, site, i', rfl, hsite, hfetch', hop⟩ :=
      h.stacked.returned hcaller
    have htarget : caller.ip ∈ i'.targets site := by
      simp [Instruction.targets, hop, Chunk.next_eq_of_fetch hfetch']
    exact hall rfl (hconceals.returnTo havoids _) rfl hstacked (hsite.target hfetch' htarget)

/-- Every state of a run is tracked. -/
theorem calling {frames₀ : Array Frame} {m₀ : Memory κ σ} (h : Tracked exe env [] frames₀ m₀)
    (hexe : exe.Accurate) (hcall : KeepsConcealed env.call) {frames : Array Frame}
    (hcalling : Calling env frames₀ m₀ calls frames m) : Tracked exe env calls frames m := by
  induction hcalling with
  | start => exact h
  | step _ hfetch hperform hstep ih =>
    obtain ⟨code, globals, hsound⟩ := ih.sound
    rw [hsound.held.reread_eq Array.mem_push_self] at hfetch hperform
    exact ih.step hexe hcall hfetch hperform hstep

end Tracked

end ScriptMachine
