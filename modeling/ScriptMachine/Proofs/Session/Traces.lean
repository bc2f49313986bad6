import ScriptMachine.Proofs.Machine.Traces
import ScriptMachine.Proofs.Session.Evaluation
import ScriptMachine.Proofs.Session.Safety

/-!
# Traces of accepted programs

A source that a fresh session accepts is on its heap as its listings say
(`Accepted.exists_executable`), and no value refers to its script
(`Program.compile_conceals`). If its run ends in an error, the trace says which
functions have been called and where each of them has come to
(`Accepted.traces_accurately`).
-/

namespace ScriptMachine

variable {κ ε τ : Type}

/-! ## The script is concealed -/

/-- A function that is added on a closed heap is concealed there, and it is none of the
known objects. -/
theorem Assembly.Closed.conceals_addFunction {known : Handle → Prop} {a : Assembly κ}
    (ha : a.Closed known) (name : String) (arity : Nat) {body : Gen κ Unit}
    (hbody : Walks known 0 AnyResult body) :
    (a.addFunction name arity body).2.heap.Conceals (a.addFunction name arity body).1 ∧
      ∀ {handle}, known handle → handle ≠ (a.addFunction name arity body).1 := by
  have hstart : Draft.Closed known ({ a with name } : Draft κ) :=
    ⟨ha.1, fun value hvalue => by simp at hvalue, ha.2⟩
  have hdraft := (hbody { a with name } (Nat.zero_le _)).1.closed hstart
  have hwf := hdraft.heap.wf
  let f : Function := ⟨name, arity, (body { a with name }).2.chunk⟩
  -- What is live before the function is allocated is not the function.
  have hfresh : ∀ {handle}, (body { a with name }).2.heap.isLive handle →
      handle ≠ ((body { a with name }).2.heap.alloc (.function f)).1 := by
    rintro _ hlive rfl
    rw [Heap.isLive, Heap.entry?_alloc_fresh hwf] at hlive
    cases hlive
  refine ⟨⟨hwf.alloc _, Heap.isLive_alloc_self hwf _, fun {handle object} hget hchild => ?_⟩,
    fun hknown => hfresh (hdraft.known hknown)⟩
  rcases Heap.get_of_get_alloc hwf hget with ⟨-, rfl⟩ | hget
  · obtain ⟨value, hvalue, hhandle⟩ := List.mem_filterMap.1 hchild
    exact hfresh (hdraft.constants value (Array.mem_toList_iff.1 hvalue) _ hhandle) rfl
  · exact hfresh (hdraft.heap.children hget _ hchild) rfl

/-- Nothing refers to the script of a program that is compiled on a closed heap. -/
theorem Program.compile_conceals (program : Program) {heap : Heap κ} (h : heap.Closed)
    (symbols : SymbolTable) :
    (program.compile heap symbols).heap.Conceals (program.compile heap symbols).script ∧
      ∀ {handle}, heap.isLive handle → handle ≠ (program.compile heap symbols).script := by
  have hstart : Assembly.Closed (fun handle => heap.isLive handle)
      (⟨heap, (assignGlobalSlots symbols).1, (assignGlobalSlots symbols).2⟩ : Assembly κ) :=
    ⟨h, id⟩
  obtain ⟨hconceals, hne⟩ := (hstart.genFns program.decls).conceals_addFunction "script" 0
    (Walks.genScript program fun fn hfn => .inr ⟨fn, hfn, rfl⟩)
  exact ⟨hconceals, fun hlive => hne (.inl hlive)⟩

/-! ## Accepted programs as executables -/

/-- What a session has done that has compiled a program. -/
theorem Session.compile_eq_ok {s s' : Session ε τ} {parsed : Program} {file : String}
    {script : Handle} (h : s.compile parsed file = (.ok script, s')) :
    let r := parsed.resolve s.natives.toList
    let c := r.program.compile s.memory.heap r.symbols
    c.errors = [] ∧ script = c.script ∧ s'.memory.heap = c.heap ∧
      ∀ value ∈ s'.memory.globals, value ∈ s.memory.globals ∨ value = .null := by
  have hcompiles := s.compiles parsed file .asGiven
  rw [h] at hcompiles
  cases hcompiles with
  | compiled hcheck herrors =>
    obtain ⟨-, rfl, rfl⟩ := Resolution.check_eq_ok.1 hcheck
    refine ⟨herrors, rfl, rfl, fun value hvalue => ?_⟩
    rcases Array.mem_append.1 hvalue with hkept | hfresh
    · exact .inl (mem_of_mem_shrink hkept)
    · exact .inr (Array.mem_replicate.1 hfresh).2

/-- An accepted program on the heap of its session, with a script that no value refers
to. -/
theorem Accepted.exists_executable {s s' : Session ε τ} {file source : String} {program : Program}
    {script : Handle} (h : Accepted s file source program script s') (hs : s.Fresh) :
    ∃ exe : Executable (NativeCode ε), exe.program = program ∧ exe.heap = s'.memory.heap ∧
      exe.script = script ∧ exe.Accurate ∧ (s'.memory.start script).Conceals script := by
  obtain ⟨parsed, symbols, hparsed, hcheck⟩ := h.resolves
  obtain ⟨-, rfl, -⟩ := Resolution.check_eq_ok.1 hcheck
  have hcompile := h.compiles
  rw [Session.compileSource, hparsed] at hcompile
  obtain ⟨herrors, rfl, hheap, hglobals⟩ := Session.compile_eq_ok hcompile
  let r := parsed.resolve s.natives.toList
  obtain ⟨fns, hfns⟩ := (Compilable.resolved s.natives.toList parsed).transcribed hs.closed.heap.wf
  obtain ⟨hconceals, hne⟩ := Program.compile_conceals r.program hs.closed.heap r.symbols
  let exe : Executable (NativeCode ε) :=
    ⟨r.program, s'.memory.heap, (r.program.compile s.memory.heap r.symbols).script, fns,
      r.symbols.globalCount, r.symbols.size⟩
  refine ⟨exe, rfl, rfl, rfl, ⟨hfns.decls, fun fn hfn => ?_, ?_, fun {handle f} hget => ?_⟩,
    ⟨hheap ▸ hconceals, fun value hvalue => ?_, fun {j value} hj hvalue => ?_⟩⟩
  · show s'.memory.heap.Transcribes _ _ _ _ _
    rw [hheap]
    exact (hfns.functions fn hfn).kept (.refl hfns.kept.wf) fun _ => herrors
  · show s'.memory.heap.Transcribes _ _ _ _ _
    rw [hheap]
    exact hfns.script.kept (.refl hfns.kept.wf) fun _ => herrors
  · have hget' : s'.memory.heap.get handle = .ok (.function f) := hget
    rw [hheap] at hget'
    rcases hfns.only hget' with hget' | hrest
    · exact absurd hget' hs.noFunction
    · exact hrest
  · rcases hglobals value hvalue with hvalue | rfl
    · exact fun hhandle => hne (hs.closed.globals value hvalue _ hhandle) rfl
    · exact Value.avoids_of_handle?_eq_none rfl
  · have hempty : (s'.memory.start (r.program.compile s.memory.heap r.symbols).script).stack.size ≤
      j :=
      hj
    rw [Array.getElem?_eq_none hempty] at hvalue
    cases hvalue

/-! ## Traces of errors -/

/-- A run of a script stops with a fault: while `calls` are in progress, the innermost
`frame` has come to the instruction `i`, which fails. -/
def StopsIn {κ σ : Type} (env : Environment κ σ) (script : Handle) (m₀ : Memory κ σ)
    (fault : Fault) (calls : List ActiveCall) (frame : Frame) (i : Instruction) : Prop :=
  ∃ (function : Function) (outer frames' : Array Frame) (m m' : Memory κ σ),
    m₀.heap.get script = .ok (.function function) ∧
    Calling env #[⟨script, function, 1, 0⟩] (m₀.start script) calls (outer.push frame) m ∧
    stepReading env (outer.push frame) m = .faulted fault frames' m' ∧
    ∃ ip, (frame.reread m.heap).function.chunk.fetch frame.ip = .instruction i ip

/-- The trace of an accepted program that ends in an error is accurate: for the calls in
progress it has an entry each, and for the script if there are none. -/
theorem Accepted.traces_accurately {config : Config} {clock : Nat → Float} {file source : String}
    {program : Program} {script : Handle} {s : Session Empty Unit}
    (h : Accepted (Session.new config ()) file source program script s) {error : RuntimeError}
    (herror : (runScript (s.environment (.plain clock)) script s.memory).1 = .error error) :
    ∃ exe : Executable (NativeCode Empty), exe.program = program ∧ exe.heap = s.memory.heap ∧
      exe.script = script ∧ exe.Accurate ∧
      ∃ calls frame i,
        StopsIn (s.environment (.plain clock)) script s.memory error.fault calls frame i ∧
        frame.handle = exe.running calls ∧ exe.Traces i calls frame.ip error.trace := by
  have hfresh : Session.Fresh (Session.new config () : Session Empty Unit) :=
    Session.new_fresh config ()
  obtain ⟨exe, hprogram, hheap, hscript, hexe, hconceals⟩ := h.exists_executable hfresh
  obtain ⟨count, fns, hloaded⟩ := h.loaded hfresh
  obtain ⟨function, hget, hsound⟩ :=
    hloaded.sound (Host.plain_respectsRenaming clock) (Host.plain_keepsObjects clock)
  refine ⟨exe, hprogram, hheap, hscript, hexe, ?_⟩
  subst hscript
  have hplaces := hexe.places (hheap ▸ hget) 1
  have hstart : Tracked exe (s.environment (.plain clock)) [] #[⟨exe.script, function, 1, 0⟩]
      (s.memory.start exe.script) := by
    refine ⟨⟨_, _, hsound⟩, hconceals, fun hget => hheap ▸ hget, .script rfl, ?_⟩
    rintro _ ⟨⟩
    exact hplaces
  obtain ⟨_, _, haligned⟩ := hsound.aligned
  obtain ⟨result, hends⟩ := haligned.exists_ends
  rw [runScript_eq (Heap.function_eq_ok.2 hget) hends] at herror
  obtain ⟨frames, m, hsteps, hlast⟩ := hends
  cases result with
  | finished m' => cases herror
  | faulted fault frames' m' =>
    cases herror
    obtain ⟨calls, hcalling⟩ := hsteps.exists_calling
    obtain ⟨outer, frame, rfl⟩ := Array.exists_push_of_ne_empty (hsound.steps hsteps).active
    have htracked := hstart.calling hexe (Host.plain_keepsConcealed clock) hcalling
    obtain ⟨i, ip, hfetch, htraces⟩ := htracked.traces hexe hlast
    exact ⟨calls, frame, i,
      ⟨function, outer, frames', m, m', hget, hcalling, hlast, ip, hfetch⟩,
      htracked.running.1, htraces⟩

/-! ## Runs that can be computed -/

/-- The trace of a source text that compiles and stops with a fault within the given
number of steps. -/
def Session.traceWithin (s : Session ε τ) (host : Host ε τ) (file source : String) (n : Nat) :
    Option (List TraceEntry) :=
  match s.compileSource file source with
  | (.error _, _) => none
  | (.ok script, s') =>
    match s'.memory.heap.function script with
    | .error _ => none
    | .ok function =>
      match endWithin (stepReading (s'.environment host)) n #[⟨script, function, 1, 0⟩]
          (s'.memory.start script) with
      | some (.faulted _ frames m) => some (traceOf m.heap frames)
      | _ => none

theorem Session.exists_runScript_error {s s' : Session ε τ} {host : Host ε τ} {file source : String}
    {n : Nat} {trace : List TraceEntry} (h : s.traceWithin host file source n = some trace)
    {script : Handle} (hcompile : s.compileSource file source = (.ok script, s')) :
    ∃ fault, (runScript (s'.environment host) script s'.memory).1 = .error ⟨fault, trace⟩ := by
  unfold traceWithin at h
  rw [hcompile] at h
  dsimp only at h
  split at h
  · cases h
  · next function hfunction =>
    split at h
    · next fault frames m hend =>
      rw [runScript_eq hfunction (ends_of_endWithin hend)]
      cases h
      exact ⟨fault, rfl⟩
    · cases h

/-- A source that calls a function over several lines, in which a condition is not
boolean. -/
def unfitCondition : String :=
  "fn main() \x7b\n" ++
  "  check(\n" ++
  "    true);\n" ++
  "\x7d\n" ++
  "fn check(b) \x7b\n" ++
  "  var x = b;\n" ++
  "  if (null) \x7b\n" ++
  "    print x;\n" ++
  "  \x7d\n" ++
  "\x7d"

/-- The theorem applies: the source is accepted, and its run ends in an error. -/
theorem traces_accurately_demo : ∃ (program : Program) (script : Handle) (s : Session Empty Unit)
    (error : RuntimeError) (exe : Executable (NativeCode Empty)) (calls : List ActiveCall)
    (frame : Frame) (i : Instruction),
    Accepted (Session.new Config.default ()) "demo" unfitCondition program script s ∧
    (runScript (s.environment (.plain fun _ => 0)) script s.memory).1 = .error error ∧
    error.trace = [⟨"check", 7⟩, ⟨"main", 2⟩] ∧ exe.program = program ∧
    StopsIn (s.environment (.plain fun _ => 0)) script s.memory error.fault calls frame i ∧
    exe.Traces i calls frame.ip error.trace := by
  have htrace : (Session.new Config.default () : Session Empty Unit).traceWithin
      (.plain fun _ => 0) "demo" unfitCondition 100 = some [⟨"check", 7⟩, ⟨"main", 2⟩] := by
    decide +kernel
  obtain ⟨program, script, s, h⟩ := Accepted.of_isOk
    (Session.new Config.default () : Session Empty Unit) "demo" unfitCondition (by decide +kernel)
  obtain ⟨fault, herror⟩ := Session.exists_runScript_error htrace h.compiles
  obtain ⟨exe, hprogram, -, -, -, calls, frame, i, hstops, -, htraces⟩ :=
    Accepted.traces_accurately h herror
  exact ⟨program, script, s, _, exe, calls, frame, i, h, herror, rfl, hprogram, hstops, htraces⟩

end ScriptMachine
