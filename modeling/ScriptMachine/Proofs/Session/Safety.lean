import ScriptMachine.Proofs.Machine.Calls
import ScriptMachine.Proofs.Session.Accepted

/-!
# Accepted programs run safely

A source that a fresh session accepts never makes the machine fail from within,
whatever the limits and the policy of collection (`Accepted.runs_safely`): every
state of its run is `SafeState`. Between statements the stack holds the live
locals of the running function and nothing else; a call leaves alone what lies
below it and is replaced by its result.
-/

namespace ScriptMachine

variable {κ σ : Type}

/-! ## Safe states -/

/-- The code of a function of a program: that of the script, or that of a
declaration. `boundaries` are the offsets between its statements, with the number
of locals that are live there. -/
inductive Program.Code (program : Program) (k : Site κ) (f : Function) :
    (boundaries : List (Nat × Nat)) → Prop
  | script {fns : List (FnDecl × Handle)} (hname : f.name = "script") (harity : f.arity = 0)
      (hfns : fns.map Prod.fst = program.fns) (h : ScriptAt k program fns) :
      Code program k f program.boundaries
  | fn {d : FnDecl} (hd : d ∈ program.fns) (hname : f.name = d.name)
      (harity : f.arity = d.params.length) (h : FnAt k d) : Code program k f d.boundaries

/-- A frame of a program on a stack of the given size, with its code on the heap
`heap`. -/
structure Program.Runs (program : Program) (heap : Heap κ) (globals : Nat) (frame : Frame)
    (size : Nat) : Prop where
  placed : ∃ (height : Nat → Nat) (boundaries : List (Nat × Nat)),
    program.Code ⟨frame.function.chunk, heap, globals, height⟩ frame.function boundaries ∧
      size = frame.base + height frame.ip ∧
      ∀ {n}, (frame.ip, n) ∈ boundaries → size = frame.base + n

/-- A call that is made in a state with the stack `stack`, until it returns. -/
structure CallSafe (env : Environment κ σ) (stack : Array Value) (outer : Array Frame)
    (callee : Frame) (m : Memory κ σ) : Prop where
  pos : 0 < callee.base
  size : stack.size = callee.base + callee.function.arity
  slot : stack[callee.base - 1]? = some (.object callee.handle)
  below : ∀ {frames' m'}, Inside env outer.size (outer.push callee) m frames' m' →
    SameBelow callee.base stack m'.stack
  returns : ∀ {frames₁ frames₂ m₁ m₂}, Inside env outer.size (outer.push callee) m frames₁ m₁ →
    stepReading env frames₁ m₁ = .running frames₂ m₂ → frames₂.size ≤ outer.size →
    frames₂ = outer ∧ ∃ result, m₁.stack.back? = some result ∧
      m₂.stack = (stack.extract 0 (callee.base - 1)).push result

/-- A state from which the machine does not fail from within. -/
structure SafeState (program : Program) (heap : Heap κ) (globals : Nat) (env : Environment κ σ)
    (frames : Array Frame) (m : Memory κ σ) : Prop where
  runs : ∃ (outer : Array Frame) (frame : Frame), frames = outer.push frame ∧
    program.Runs heap globals frame m.stack.size
  fault : ∀ {fault frames' m'}, stepReading env frames m = .faulted fault frames' m' →
    fault.Proper env
  popN : ∀ {frame i next}, (m.heap.readCode frames).back? = some frame →
    frame.function.chunk.fetch frame.ip = .instruction i next → i.opcode = .popN →
    frame.base + i.first.toNat ≤ m.stack.size
  call : ∀ {outer : Array Frame} {callee m'},
    stepReading env frames m = .running (outer.push callee) m' → outer.size = frames.size →
      CallSafe env m.stack outer callee m'

/-! ## Sound states are safe -/

/-- Where code stands in a program. -/
def Program.codeOn (program : Program) (heap : Heap κ) (globals : Nat) (k : Site κ)
    (f : Function) : Prop :=
  k.chunk = f.chunk ∧ k.heap = heap ∧ k.globals = globals ∧ ∃ boundaries,
    program.Code k f boundaries

theorem Program.Code.height_of_boundary {program : Program} {k : Site κ} {f : Function}
    {boundaries : List (Nat × Nat)} (h : program.Code k f boundaries) {b : Nat × Nat}
    (hb : b ∈ boundaries) : k.height b.1 = b.2 := by
  cases h with
  | script _ _ hfns h => exact h.height_of_boundary hfns hb
  | fn _ _ _ h => exact h.height_of_boundary hb

theorem Program.Code.runs {program : Program} {k : Site κ} {f : Function}
    {boundaries : List (Nat × Nat)} (h : program.Code k f boundaries) : k.Runs 0 f.arity := by
  cases h with
  | script _ harity _ h =>
    rw [harity]
    exact h.runs
  | fn _ _ harity h =>
    rw [harity]
    exact h.runs

section Sound

variable {program : Program} {heap : Heap κ} {globals : Nat} {env : Environment κ σ}
  {frames outer : Array Frame} {frame : Frame} {m : Memory κ σ}

theorem Sound.callSafe {code : Site κ → Function → Prop} (h : Sound code globals env frames m)
    {callee : Frame} {m' : Memory κ σ}
    (hstep : stepReading env frames m = .running (outer.push callee) m')
    (hdeeper : outer.size = frames.size) : CallSafe env m.stack outer callee m' := by
  obtain ⟨hpos, hsize, hcallee, hstack⟩ := h.step_enter hstep hdeeper
  have hsound := h.step hstep
  refine ⟨hpos, hsize, hcallee, fun hinside => ?_, fun hinside hreturn hdepth => ?_⟩
  · obtain ⟨-, -, hbelow⟩ := hsound.inside (.callee rfl) hinside
    rwa [hstack] at hbelow
  · obtain ⟨hsound', habove, hbelow⟩ := hsound.inside (.callee rfl) hinside
    rw [hstack] at hbelow
    exact hsound'.step_return habove hreturn hdepth (by omega) hbelow

theorem Sound.safeState (h : Sound (program.codeOn heap globals) globals env frames m) :
    SafeState program heap globals env frames m := by
  obtain ⟨outer, frame, rfl⟩ := Array.exists_push_of_ne_empty h.active
  obtain ⟨k, n, ⟨hchunk, hheap, hglobals, boundaries, hcode⟩, -, hruns, hready⟩ := h.exists_site
  have hheight : k.height frame.ip = n := hruns.height
  refine ⟨⟨outer, frame, rfl, ⟨k.height, boundaries, ?_, ?_, fun hb => ?_⟩⟩, h.proper_of_step, ?_,
    h.callSafe⟩
  · obtain ⟨chunk, heap', globals', height⟩ := k
    cases hchunk
    cases hheap
    cases hglobals
    exact hcode
  · rw [hheight, hready.size]
  · rw [hready.size, ← hheight, hcode.height_of_boundary hb]
  · intro frame' i next hback hfetch hop
    rw [h.held.readCode_eq] at hback
    obtain rfl : frame = frame' := by simpa using hback
    cases hruns with
    | intro hholds hpops =>
      have hfetch' := hholds.fetch
      rw [← hready.chunk, hfetch] at hfetch'
      cases hfetch'
      have hcount : i.pops = i.first.toNat := by rw [Instruction.pops, hop]
      have hsize := hready.size
      omega

/-- A script that ends in a fault ends in one of the program or of native code. -/
theorem Sound.proper_of_runScript {code : Site κ → Function → Prop} {script : Handle}
    {function : Function} (hget : m.heap.get script = .ok (.function function))
    (h : Sound code globals env #[⟨script, function, 1, 0⟩] (m.start script))
    {error : RuntimeError} (herror : (runScript env script m).1 = .error error) :
    error.fault.Proper env := by
  obtain ⟨_, _, haligned⟩ := h.aligned
  obtain ⟨result, hends⟩ := haligned.exists_ends
  rw [runScript_eq (Heap.function_eq_ok.2 hget) hends] at herror
  obtain ⟨frames', m', hsteps, hlast⟩ := hends
  cases result with
  | finished m' => cases herror
  | faulted fault frames m' =>
    cases herror
    exact (h.steps hsteps).proper_of_step hlast

end Sound

/-! ## Accepted sources -/

section Loaded

variable {ε τ : Type} {s s' : Session ε τ} {program : Program} {count : Nat} {script : Handle}
  {fns : List (FnDecl × Handle)}

/-- The functions on the heap of a compiled program have the code of the
program. -/
theorem Session.Loaded.code (h : s.Loaded s' program count script fns) {handle : Handle}
    {f : Function} (hget : s'.memory.heap.get handle = .ok (.function f)) :
    ∃ height boundaries, program.Code
      ⟨f.chunk, s'.memory.heap, s'.memory.globals.size, height⟩ f boundaries := by
  rcases h.compiled.only hget with rfl | ⟨fn, hfn, rfl⟩
  · obtain ⟨chunk, height, hscript, hat⟩ := h.compiled.scriptPlaced
    rw [hscript] at hget
    cases hget
    exact ⟨height, _, .script rfl rfl h.compiled.decls (hat (.refl h.compiled.wf))⟩
  · obtain ⟨chunk, height, hfunction, hat⟩ := h.compiled.placed.placed fn hfn
    rw [hfunction] at hget
    cases hget
    have hd : fn.1 ∈ program.fns := by
      rw [← h.compiled.decls]
      exact List.mem_map_of_mem hfn
    exact ⟨height, _, .fn hd rfl rfl (hat (.refl h.compiled.wf))⟩

theorem Session.Loaded.coded (h : s.Loaded s' program count script fns) :
    s'.memory.heap.Coded (program.codeOn s'.memory.heap s'.memory.globals.size)
      s'.memory.globals.size := by
  intro handle f hget
  obtain ⟨height, boundaries, hcode⟩ := h.code hget
  exact ⟨_, ⟨rfl, rfl, rfl, boundaries, hcode⟩, rfl, rfl, hcode.runs⟩

/-- A compiled program starts in a sound state. -/
theorem Session.Loaded.sound (h : s.Loaded s' program count script fns) {host : Host ε τ}
    (hrespects : RespectsRenaming Function.Matches host.call host.call)
    (hkeeps : KeepsObjects host.call) :
    ∃ function, s'.memory.heap.get script = .ok (.function function) ∧
      Sound (program.codeOn s'.memory.heap s'.memory.globals.size) s'.memory.globals.size
        (s'.environment host) #[⟨script, function, 1, 0⟩] (s'.memory.start script) := by
  obtain ⟨chunk, height, hscript, -⟩ := h.compiled.scriptPlaced
  have hclosed : s'.memory.Closed (s'.environment host).methods := h.closed
  let frame : Frame := ⟨script, ⟨"script", 0, chunk⟩, 1, 0⟩
  have hlinked : Linked (program.codeOn s'.memory.heap s'.memory.globals.size)
      s'.memory.globals.size s'.memory.heap (#[].push frame) (frame.base + 0) :=
    .push .none (by simp) (h.coded hscript)
  exact ⟨_, hscript, ⟨_, _, hclosed.aligned rfl rfl rfl hrespects hkeeps hscript 0⟩, h.methods,
    h.coded, rfl, by simp, hlinked⟩

end Loaded

/-- A source that a fresh session accepts runs safely: all states of its run are
safe, and it ends in an error of the program, in a message of native code, or
without an error. -/
theorem Accepted.runs_safely {config : Config} {clock : Nat → Float} {file source : String}
    {program : Program} {script : Handle} {s : Session Empty Unit}
    (h : Accepted (Session.new config ()) file source program script s) :
    ∃ function, s.memory.heap.get script = .ok (.function function) ∧
      (∀ {frames m}, Steps (stepReading (s.environment (.plain clock))) #[⟨script, function, 1, 0⟩]
          (s.memory.start script) frames m →
        SafeState program s.memory.heap s.memory.globals.size (s.environment (.plain clock))
          frames m) ∧
      ∀ {error}, (runScript (s.environment (.plain clock)) script s.memory).1 = .error error →
        ¬error.fault.Internal ∧ (error.fault.code = "E0400" →
          ∃ message code args world, error.fault = .native message ∧
            ((Host.plain clock).call code args world).1 = .error message) := by
  obtain ⟨count, fns, hloaded⟩ := h.loaded (Session.new_fresh config ())
  obtain ⟨function, hget, hsound⟩ :=
    hloaded.sound (Host.plain_respectsRenaming clock) (Host.plain_keepsObjects clock)
  refine ⟨function, hget, fun hsteps => (hsound.steps hsteps).safeState, fun {error} herror => ?_⟩
  have hproper := hsound.proper_of_runScript hget herror
  refine ⟨hproper.not_internal, fun hcode => ?_⟩
  obtain ⟨fault, trace⟩ := error
  cases hproper with
  | own hown =>
    rcases Fault.internal_or_native_of_code hcode with hinternal | ⟨message, rfl⟩
    · exact absurd hinternal hown.1
    · exact absurd trivial hown.2
  | @native message code args world hcall => exact ⟨message, code, args, world, rfl, hcall⟩

/-- A source with functions, calls and locals. -/
def twiceNot : String :=
  "fn twice(f, x) { var y = f(x); return f(y); }\nfn not(b) { return !b; }\n" ++
    "fn main() { print twice(not, true); }"

/-- The theorem applies: the source is accepted. -/
theorem runs_safely_demo : ∃ program script s,
    Accepted (Session.new Config.default ()) "demo" twiceNot program script s ∧
    ∃ function, s.memory.heap.get script = .ok (.function function) ∧
      SafeState program s.memory.heap s.memory.globals.size (s.environment (.plain fun _ => 0))
        #[⟨script, function, 1, 0⟩] (s.memory.start script) := by
  obtain ⟨program, script, s, h⟩ := Accepted.of_isOk
    (Session.new Config.default () : Session Empty Unit) "demo" twiceNot (by decide +kernel)
  obtain ⟨function, hget, hsafe, -⟩ := Accepted.runs_safely h
  exact ⟨program, script, s, h, function, hget, hsafe .refl⟩

end ScriptMachine
