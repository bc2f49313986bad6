import ScriptMachine.Proofs.Codegen.Compiled
import ScriptMachine.Proofs.Machine.Safety
import ScriptMachine.Proofs.Session.Start

/-!
# Sources that a fresh session accepts

A source that a fresh session reads, resolves and compiles without errors leaves
its functions on the heap, each with the code its declaration asks for
(`Session.Fresh.compile`, `Accepted.compiled`).
-/

namespace ScriptMachine

variable {ε τ : Type}

namespace Session

/-- A session in which nothing has been compiled yet. -/
structure Fresh (s : Session ε τ) : Prop where
  closed : s.Closed
  globals_eq : s.memory.globals.size = s.natives.size
  noFunction : ∀ {handle f}, s.memory.heap.get handle ≠ .ok (.function f)
  methods : s.methods.On s.memory.heap

section Fresh

variable {s s' : Session ε τ}

theorem Fresh.get_addNative (h : s.Fresh) (name : String) (arity : Nat) (code : NativeCode ε) :
    (s.addNative name arity code).2.memory.heap.get (s.addNative name arity code).1 =
      .ok (.native ⟨name, arity, code⟩) :=
  Heap.get_alloc_self h.closed.heap.wf _

theorem Fresh.addNative (h : s.Fresh) (name : String) (arity : Nat) (code : NativeCode ε) :
    (s.addNative name arity code).2.Fresh := by
  have hwf := h.closed.heap.wf
  refine ⟨(h.closed.addNative name arity code).1, h.globals_eq, fun {handle f} hget => ?_, ?_⟩
  · rcases Heap.get_of_get_alloc hwf hget with ⟨-, heq⟩ | hget
    · cases heq
    · exact h.noFunction hget
  · intro method hmethod
    obtain ⟨native, hget⟩ := h.methods method hmethod
    exact ⟨native, ((Heap.Kept.refl hwf).alloc _).get hget (by simp [Object.kind])⟩

theorem Fresh.defineNative (h : s.Fresh) (name : String) (arity : Nat) (code : NativeCode ε) :
    (s.defineNative name arity code).Fresh := by
  have hadded := h.addNative name arity code
  refine ⟨h.closed.defineNative name arity code, ?_, hadded.noFunction, hadded.methods⟩
  have hsize : (s.memory.globals.shrink s.natives.size).size = s.natives.size := by
    rw [Array.size_shrink, h.globals_eq, Nat.min_self]
  simp only [Session.defineNative, Session.addNative, Array.size_push, hsize]

theorem Fresh.defineMethod (h : s.Fresh) (kind : ObjectKind) (name : String) (arity : Nat)
    (code : NativeCode ε) : (s.defineMethod kind name arity code).Fresh := by
  have hadded := h.addNative name arity code
  refine ⟨h.closed.defineMethod kind name arity code, hadded.globals_eq, hadded.noFunction, ?_⟩
  intro method hmethod
  rcases List.mem_cons.1 hmethod with rfl | hmethod
  · exact ⟨_, h.get_addNative name arity code⟩
  · exact hadded.methods method (List.mem_of_mem_filter hmethod)

theorem new_fresh (config : Config) (state : τ) : (new config state : Session ε τ).Fresh := by
  have hstart : Session.Fresh (ε := ε)
      { config
        memory :=
          { heap := {}, collectAt := config.policy.initial, host := { custom := state } } } :=
    ⟨⟨.empty, fun value hvalue => by simp at hvalue, fun method hmethod => by simp at hmethod⟩,
      rfl, by simp [Heap.get, Heap.entry?], fun method hmethod => by simp at hmethod⟩
  exact ((((hstart.defineNative _ _ _).defineNative _ _ _).defineMethod _ _ _ _).defineMethod
    _ _ _ _).defineMethod _ _ _ _

/-- What a fresh session has when a program has compiled: the natives are still
the first globals, and the other globals are null. -/
structure Loaded (s s' : Session ε τ) (program : Program) (count : Nat) (script : Handle)
    (fns : List (FnDecl × Handle)) : Prop where
  compiled : Compiled s.natives.size s'.memory.globals.size count program s'.memory.heap script fns
  closed : s'.Closed
  kept : s.memory.heap.Kept s'.memory.heap
  methods : s'.methods.On s'.memory.heap
  methods_eq : s'.methods = s.methods
  config_eq : s'.config = s.config
  globals_eq : s'.memory.globals =
    s.memory.globals ++ Array.replicate (s'.memory.globals.size - s.natives.size) .null
  memory_eq : s'.memory =
    { s.memory with heap := s'.memory.heap, globals := s'.memory.globals }

/-- In a fresh session nothing stands behind the globals of the natives, so that the room for
those of a program is made behind all globals. -/
theorem Fresh.globals_room (h : s.Fresh) {count : Nat} (hle : s.natives.size ≤ count) :
    s.memory.globals.shrink s.natives.size ++
        Array.replicate (count - (s.memory.globals.shrink s.natives.size).size) .null =
      s.memory.globals ++ Array.replicate (count - s.natives.size) .null ∧
    (s.memory.globals ++ Array.replicate (count - s.natives.size) Value.null).size = count := by
  have hshrink : s.memory.globals.shrink s.natives.size = s.memory.globals := by
    rw [← h.globals_eq, Array.shrink_eq_take, Array.take_eq_extract, Array.extract_size]
  refine ⟨by rw [hshrink, h.globals_eq], ?_⟩
  rw [Array.size_append, Array.size_replicate, h.globals_eq]
  omega

/-- A program that compiles in a fresh session. -/
theorem Fresh.compile (h : s.Fresh) {parsed : Program} {file : String} {orders : CandidateOrders}
    {script : Handle} (hcompile : s.compile parsed file orders = (.ok script, s')) :
    ∃ program symbols fns,
      (parsed.resolve s.natives.toList).check file orders = .ok (program, symbols) ∧
        Loaded s s' program symbols.size script fns := by
  have hclosed := h.closed.compile parsed file orders
  rw [hcompile] at hclosed
  have hcompiles := s.compiles parsed file orders
  rw [hcompile] at hcompiles
  cases hcompiles with
  | compiled hcheck herrors =>
    obtain ⟨hresolved, rfl, rfl⟩ := Resolution.check_eq_ok.1 hcheck
    obtain ⟨globals, hscoped, hle, hkind⟩ := Program.resolve_scoped hresolved
    obtain ⟨hkept, fns, hcompiled⟩ :=
      Program.compile_compiled h.closed.heap.wf h.noFunction hscoped hle hkind herrors
    have hcount := SymbolTable.globalCount_eq (Program.compile_kinds
      (parsed.resolve s.natives.toList).program s.memory.heap
      (parsed.resolve s.natives.toList).symbols)
    rw [SymbolTable.globalCount_of_kinds hle hkind] at hcount
    have hhosts : s.natives.size ≤ globals := by
      have hsum := hscoped.globals_eq
      rw [Array.length_toList] at hsum
      omega
    obtain ⟨hroom, hsize⟩ := h.globals_room hhosts
    rw [hcount, hroom] at hclosed ⊢
    rw [Array.length_toList, ← hsize] at hcompiled
    refine ⟨_, _, fns, hcheck, hcompiled, hclosed, hkept, ?_, rfl, rfl, by rw [hsize], rfl⟩
    intro method hmethod
    obtain ⟨native, hget⟩ := h.methods method hmethod
    exact ⟨native, hkept.get hget (by simp [Object.kind])⟩

end Fresh

end Session

/-- The source is read, resolved to `program` and compiled to `script` by the
session `s`, which is `s'` afterwards. -/
structure Accepted (s : Session ε τ) (file source : String) (program : Program) (script : Handle)
    (s' : Session ε τ) : Prop where
  resolves : ∃ parsed symbols, Program.ofSource file source = .ok parsed ∧
    (parsed.resolve s.natives.toList).check file = .ok (program, symbols)
  compiles : s.compileSource file source = (.ok script, s')

/-- A source is accepted whatever the orders of candidates, which nothing is suggested from. -/
theorem Accepted.compileSource_eq {s s' : Session ε τ} {file source : String} {program : Program}
    {script : Handle} (h : Accepted s file source program script s') (orders : CandidateOrders) :
    s.compileSource file source orders = (.ok script, s') :=
  (s.compileSource_orders file orders .asGiven source).eq_ok h.compiles

/-- A source that compiles is accepted. -/
theorem Accepted.of_isOk (s : Session ε τ) (file source : String)
    (h : (s.compileSource file source).1.isOk = true) :
    ∃ program script s', Accepted s file source program script s' := by
  generalize hcompile : s.compileSource file source = result at h
  obtain ⟨outcome, s'⟩ := result
  cases outcome with
  | error error => cases h
  | ok script =>
    obtain ⟨parsed, hparsed, hscript⟩ := Session.compileSource_eq_ok_iff.1 hcompile
    have hcompiles := s.compiles parsed file .asGiven
    rw [hscript] at hcompiles
    cases hcompiles with
    | @compiled resolved symbols hcheck _ =>
      exact ⟨resolved, _, _, ⟨parsed, symbols, hparsed, hcheck⟩, hcompile⟩

/-- What the session has when a source is accepted. -/
theorem Accepted.loaded {s s' : Session ε τ} {file source : String} {program : Program}
    {script : Handle} (h : Accepted s file source program script s') (hs : s.Fresh) :
    ∃ count fns, Session.Loaded s s' program count script fns := by
  obtain ⟨parsed, symbols, hparsed, hcheck⟩ := h.resolves
  have hcompile := h.compiles
  rw [Session.compileSource, hparsed] at hcompile
  obtain ⟨program', symbols', fns, hcheck', hloaded⟩ := hs.compile hcompile
  rw [hcheck] at hcheck'
  cases hcheck'
  exact ⟨symbols.size, fns, hloaded⟩

end ScriptMachine
