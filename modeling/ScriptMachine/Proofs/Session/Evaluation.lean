import ScriptMachine.Proofs.Semantics.Programs
import ScriptMachine.Proofs.Session.Accepted

/-!
# Runs agree with evaluations

A source that a fresh session accepts is run as its program is evaluated
(`Accepted.runs_as_evaluated`): unless the machine overflows, both succeed or stop with
the same fault, with the same output and the same globals up to a renaming of
handles.

The script is followed without collections first (`Session.Loaded.concludes`). The run
with collections is aligned with that one, so its memory agrees with the store under
one renaming after the other (`Heap.Matches.comp`).
-/

namespace ScriptMachine

variable {κ σ ε τ : Type} {β γ : Renaming}

/-! ## One renaming after the other -/

theorem Value.Matches.comp {u v w : Value} (h : Value.Matches β u v) (h' : Value.Matches γ v w) :
    Value.Matches (Relation.Comp β γ) u w := by
  cases h with
  | null => cases h' with | null => exact .null
  | bool b => cases h' with | bool _ => exact .bool b
  | number x => cases h' with | number _ => exact .number x
  | object hab => cases h' with | object hbc => exact .object ⟨_, hab, hbc⟩

theorem Pointwise.comp {xs ys zs : Array Value} (h : Pointwise (Value.Matches β) xs ys)
    (h' : Pointwise (Value.Matches γ) ys zs) :
    Pointwise (Value.Matches (Relation.Comp β γ)) xs zs := by
  intro i
  have hxy := h i
  have hyz := h' i
  generalize xs[i]? = x at hxy
  generalize ys[i]? = y at hxy hyz
  generalize zs[i]? = z at hyz
  cases hxy with
  | none => cases hyz with | none => exact .none
  | some hxy => cases hyz with | some hyz => exact .some (hxy.comp hyz)

/-- Functions that are called in the same way. -/
def Function.SameSignature : FunctionMatch := fun _ f g => f.name = g.name ∧ f.arity = g.arity

theorem Object.Matches.comp {φ ψ : FunctionMatch} [φ.Lawful] [ψ.Lawful] {x y z : Object κ}
    (h : Object.Matches φ β x y) (h' : Object.Matches ψ γ y z) :
    Object.Matches Function.SameSignature (Relation.Comp β γ) x z := by
  cases h with
  | function hfg =>
    cases h' with
    | function hgh =>
      exact .function ⟨(FunctionMatch.Lawful.name_eq hfg).trans (FunctionMatch.Lawful.name_eq hgh),
        (FunctionMatch.Lawful.arity_eq hfg).trans (FunctionMatch.Lawful.arity_eq hgh)⟩
  | list hxy => cases h' with | list hyz => exact .list (hxy.comp hyz)
  | native native => cases h' with | native _ => exact .native native
  | string text => cases h' with | string _ => exact .string text

theorem Heap.Matches.comp {φ ψ : FunctionMatch} [φ.Lawful] [ψ.Lawful] {left middle right : Heap κ}
    (h : Heap.Matches φ β left middle) (h' : Heap.Matches ψ γ middle right) :
    Heap.Matches Function.SameSignature (Relation.Comp β γ) left right := by
  refine ⟨h.left_wf, h'.right_wf, ⟨?_, ?_⟩, ?_⟩
  · rintro a a' c ⟨b, hab, hbc⟩ ⟨b', hab', hbc'⟩
    obtain rfl := h'.biUnique.1 hbc hbc'
    exact h.biUnique.1 hab hab'
  · rintro a c c' ⟨b, hab, hbc⟩ ⟨b', hab', hbc'⟩
    obtain rfl := h.biUnique.2 hab hab'
    exact h'.biUnique.2 hbc hbc'
  · rintro a c ⟨b, hab, hbc⟩
    obtain ⟨x, y, hx, hy, hxy⟩ := h.objects hab
    obtain ⟨y', z, hy', hz, hyz⟩ := h'.objects hbc
    rw [hy] at hy'
    cases hy'
    exact ⟨x, z, hx, hz, hxy.comp hyz⟩

/-! ## The functions of a program -/

theorem Program.Scoped.nodup_fns {hosts globals count : Nat} {program : Program}
    (h : program.Scoped hosts globals count) : (program.fns.map FnDecl.name).Nodup := by
  have hsublist : ∀ decls : List Decl,
      ((decls.filterMap Decl.fn?).map FnDecl.name).Sublist (decls.map Decl.name) := by
    intro decls
    induction decls with
    | nil => exact .slnil
    | cons decl decls ih =>
      cases decl with
      | fn d => exact .cons_cons _ ih
      | var d => exact .cons _ ih
  exact h.names.sublist (hsublist program.decls)

theorem Program.Scoped.find_fn {hosts globals count : Nat} {program : Program}
    (h : program.Scoped hosts globals count) {d : FnDecl} (hd : d ∈ program.fns) :
    program.fns.find? (·.name = d.name) = some d := by
  cases hfound : program.fns.find? (·.name = d.name) with
  | none => exact absurd (List.find?_eq_none.1 hfound d hd) (by simp)
  | some d' =>
    have hname : d'.name = d.name := by simpa using List.find?_some hfound
    have hinj := List.inj_on_of_nodup_map h.nodup_fns
    rw [hinj (List.mem_of_find?_eq_some hfound) hd hname]

/-- Functions with different names have different handles. -/
theorem FnsPlaced.nodup {globals : Nat} {heap : Heap κ} {fns : List (FnDecl × Handle)}
    (h : FnsPlaced globals heap fns) (hnames : ((fns.map Prod.fst).map FnDecl.name).Nodup) :
    (fns.map Prod.snd).Nodup := by
  rw [List.map_map] at hnames
  refine List.pairwise_map.2 ((List.pairwise_map.1 hnames).imp_of_mem ?_)
  intro fn fn' hfn hfn' hne heq
  obtain ⟨chunk, _, hget, -⟩ := h.placed fn hfn
  obtain ⟨chunk', _, hget', -⟩ := h.placed fn' hfn'
  rw [heq, hget'] at hget
  have hsame := Object.function.inj (Except.ok.inj hget)
  exact hne (congrArg Function.name hsame).symm

/-! ## The start of a script -/

/-- A heap with nothing but native functions. -/
def Heap.OnlyNatives (heap : Heap κ) : Prop :=
  ∀ handle object, heap.get handle = .ok object → ∃ native, object = .native native

namespace Session

variable {s s' : Session ε τ} {program : Program} {count : Nat} {script : Handle}
  {fns : List (FnDecl × Handle)}

theorem onlyNatives_addNative (hwf : s.memory.heap.WF) (h : s.memory.heap.OnlyNatives)
    (name : String) (arity : Nat) (code : NativeCode ε) :
    (s.addNative name arity code).2.memory.heap.OnlyNatives := by
  intro handle object hget
  rcases Heap.get_of_get_alloc hwf hget with ⟨-, rfl⟩ | hget
  · exact ⟨_, rfl⟩
  · exact h handle object hget

theorem new_onlyNatives (config : Config) (state : τ) :
    (new config state : Session ε τ).memory.heap.OnlyNatives := by
  let start : Session ε τ :=
    { config
      memory := { heap := {}, collectAt := config.policy.initial, host := { custom := state } } }
  have hstart : start.Closed :=
    ⟨.empty, fun value hvalue => by simp [start] at hvalue, fun method hmethod => by
      simp [start] at hmethod⟩
  have hempty : start.memory.heap.OnlyNatives := by
    intro handle object hget
    simp [start, Heap.get, Heap.entry?] at hget
  have hclock := onlyNatives_addNative hstart.heap.wf hempty "clock" 0 (.builtin .clock)
  have hstart := hstart.defineNative "clock" 0 (.builtin .clock)
  have htype := onlyNatives_addNative hstart.heap.wf hclock "type" 1 (.builtin .type)
  have hstart := hstart.defineNative "type" 1 (.builtin .type)
  have hpush := onlyNatives_addNative hstart.heap.wf htype "push" 1 (.builtin .push)
  have hstart := hstart.defineMethod .list "push" 1 (.builtin .push)
  have hpop := onlyNatives_addNative hstart.heap.wf hpush "pop" 0 (.builtin .pop)
  have hstart := hstart.defineMethod .list "pop" 0 (.builtin .pop)
  exact onlyNatives_addNative hstart.heap.wf hpop "len" 0 (.builtin .len)

theorem natives_compileSource {file source : String} {orders : CandidateOrders}
    (h : s.compileSource file source orders = (.ok script, s')) : s'.natives = s.natives := by
  obtain ⟨parsed, -, hparsed⟩ := Session.compileSource_eq_ok_iff.1 h
  have hcompiles := s.compiles parsed file orders
  rw [hparsed] at hcompiles
  cases hcompiles with
  | compiled => rfl

/-- The image of a program that has been compiled. -/
def image (s : Session ε τ) (program : Program) : Image (NativeCode ε) :=
  ⟨program, s.memory.heap, s.memory.globals.size⟩

theorem Loaded.image_places (h : s.Loaded s' program count script fns) {fn : FnDecl × Handle}
    (hfn : fn ∈ fns) : (s'.image program).Places fn.1 fn.2 := by
  obtain ⟨chunk, height, hget, hat⟩ := h.compiled.placed.placed fn hfn
  exact ⟨chunk, height, hget, hat (.refl h.compiled.wf)⟩

/-- At the start the natives of the session stand for themselves, and the globals of
the program are null. -/
theorem Loaded.mirrors (h : s.Loaded s' program count script fns) (hs : s.Closed)
    (hnatives : s.memory.heap.OnlyNatives) (host : Host ε τ) :
    Mirrors (s'.environment host) (s.setting host program) (s'.image program) s.memory.heap.self
      (s'.memory.start script) s.store := by
  have hmemory := h.memory_eq
  refine ⟨⟨h.compiled.wf, hs.heap.wf, hs.heap.self_matches.biUnique, ?_⟩, .refl h.compiled.wf, rfl,
    fun {id v} hv => ?_, ?_, ?_, ?_⟩
  · rintro handle _ ⟨rfl, hlive⟩
    obtain ⟨object, hget⟩ := Heap.isLive_iff.1 hlive
    obtain ⟨native, rfl⟩ := hnatives _ _ hget
    exact ⟨_, _, h.kept.get hget (by simp [Object.kind]), hget, .native native⟩
  · have hv' : (s.memory.globals ++ Array.replicate
        (s'.memory.globals.size - s.natives.size) .null)[id]? = some v := by
      rw [← h.globals_eq]
      exact hv
    show Value.Matches _ v (s.memory.globals[id]?.getD .null)
    rw [Array.getElem?_append] at hv'
    split at hv'
    · rw [hv']
      exact (hs.globals v (Array.mem_of_getElem? hv')).self_matches
    · next hge =>
      rw [Array.getElem?_eq_none (Nat.le_of_not_lt hge)]
      rw [Array.getElem?_replicate] at hv'
      split at hv'
      · cases hv'
        exact .null
      · cases hv'
  · show List.Forall₂ _ s'.methods s.methods
    rw [h.methods_eq]
    exact List.forall₂_same.2 fun method hmethod => ⟨rfl, rfl, hs.methods method hmethod⟩
  · show s'.memory.output = s.memory.output
    rw [hmemory]
  · show s'.memory.host = s.memory.host
    rw [hmemory]

/-- The script of a program concludes as its evaluation does. -/
theorem Loaded.concludes (h : s.Loaded s' program count script fns) (hs : s.Closed)
    (hnatives : s.memory.heap.OnlyNatives) {host : Host ε τ}
    (hcall : RespectsRenaming (s'.image program).Declares host.call host.call)
    (hkeeps : KeepsObjects host.call) {depth : Nat} (hdepth : s.config.maxFrames ≤ depth) :
    ∃ function, s'.memory.heap.get script = .ok (.function function) ∧
      Concludes (s'.environment host) (s.setting host program) (s'.image program)
        #[⟨script, function, 1, 0⟩] (s'.memory.start script) (s.evaluate host program depth) := by
  obtain ⟨chunk, height, hscript, hat⟩ := h.compiled.scriptPlaced
  have hsuits : (s.setting host program).Suits (s'.environment host) (s'.image program) :=
    ⟨hcall, hkeeps, rfl, fun d hd => h.compiled.inScope.find_fn hd⟩
  let a : Activation (NativeCode ε) :=
    ⟨(s'.image program).site chunk height, #[], ⟨script, ⟨"script", 0, chunk⟩, 1, 0⟩,
      #[.object script]⟩
  have ha : a.Of (s'.image program) := ⟨rfl, rfl, rfl, hscript, rfl⟩
  have hstands : Stands (s'.environment host) (s.setting host program) (s'.image program) a
      s.memory.heap.self [] #[] (s'.memory.start script) s.store :=
    ⟨h.mirrors hs hnatives host, #[], rfl, .empty fun _ => rfl⟩
  have hnodup : (fns.map Prod.snd).Nodup := by
    refine h.compiled.placed.nodup ?_
    rw [h.compiled.decls]
    exact h.compiled.inScope.nodup_fns
  -- The functions have been added to the heap, so they are no natives of the session.
  have hfree : ∀ fn ∈ fns, ∀ b, ¬s.memory.heap.self fn.2 b := by
    rintro fn hfn _ ⟨-, hlive⟩
    obtain ⟨object, hget⟩ := Heap.isLive_iff.1 hlive
    obtain ⟨native, rfl⟩ := hnatives _ _ hget
    obtain ⟨chunk', _, hget', -⟩ := h.compiled.placed.placed fn hfn
    rw [h.kept.get hget (by simp [Object.kind])] at hget'
    cases hget'
  have hframes : (s'.environment host).config.maxFrames ≤ depth := by
    show s'.config.maxFrames ≤ depth
    rwa [h.config_eq]
  have hids : ∀ d ∈ program.fns, d.id.isSome := by
    intro d hd
    obtain ⟨i, hid, -⟩ := h.compiled.inScope.id_lt (Program.mem_fns.1 hd)
    exact Option.isSome_iff_exists.2 ⟨i, hid⟩
  exact ⟨_, hscript, (hat (.refl h.compiled.wf)).concludes ha hsuits rfl hframes h.compiled.decls
    hids (fun fn hfn => h.image_places hfn) hnodup hfree hstands⟩

/-! ## Runs and evaluations -/

/-- A session that has run a program shows what the evaluation of the program has
left: the same output, and the same globals up to a renaming of handles. -/
structure Shows (s : Session ε τ) (program : Program)
    (st : Store (NativeCode ε) (HostState τ)) : Prop where
  output : s.memory.output = st.output
  size : s.memory.globals.size = s.natives.size + program.decls.length
  globals : ∃ β, Heap.Matches Function.SameSignature β s.memory.heap st.heap ∧
    ∀ {id : SymbolId} {value}, s.memory.globals[id]? = some value →
      Value.Matches β value (st.globals id)

/-- The outcome of a run agrees with that of an evaluation: both succeed or both stop
with the same fault. -/
inductive Agrees (program : Program) : Except SessionError Unit × Session ε τ →
    EStateM.Result Stop (Store (NativeCode ε) (HostState τ)) Unit → Prop
  | succeeds {s : Session ε τ} {st : Store (NativeCode ε) (HostState τ)}
      (h : s.Shows program st) : Agrees program (.ok (), s) (.ok () st)
  | faults {fault : Fault} {trace : List TraceEntry} {s : Session ε τ}
      {st : Store (NativeCode ε) (HostState τ)} (h : s.Shows program st) :
      Agrees program (.error (.runtime ⟨fault, trace⟩), s) (.error (.fault fault) st)

theorem Loaded.shows (h : s.Loaded s' program count script fns) (hnatives : s'.natives = s.natives)
    {host : Host ε τ} {m m' : Memory (NativeCode ε) (HostState τ)}
    {st : Store (NativeCode ε) (HostState τ)} (hm : Memory.Matches β m m')
    (hmirrors : Mirrors (s'.environment host) (s.setting host program) (s'.image program) γ m' st)
    (stack : Array Value) : Shows { s' with memory := { m with stack } } program st := by
  refine ⟨hm.output.trans hmirrors.output, ?_, _, hm.heap.comp hmirrors.heap, fun {id v} hv => ?_⟩
  · show m.globals.size = s'.natives.size + _
    rw [hm.globals.size_eq, hmirrors.size, hnatives, ← h.compiled.inScope.globals_eq]
    rfl
  · have hvalue := hm.globals id
    rw [show m.globals[id]? = some v from hv] at hvalue
    generalize hfound : m'.globals[id]? = found at hvalue
    cases hvalue with
    | some hvw => exact hvw.comp (hmirrors.globals hfound)

/-- A program that has been compiled is run as it is evaluated, unless the machine
overflows. -/
theorem Loaded.agrees (h : s.Loaded s' program count script fns) (hs : s.Closed)
    (hnatives : s.memory.heap.OnlyNatives) (hnames : s'.natives = s.natives) {host : Host ε τ}
    (hcall : ∀ (φ : FunctionMatch) [φ.Lawful], RespectsRenaming φ host.call host.call)
    (hkeeps : KeepsObjects host.call) {depth : Nat} (hdepth : s.config.maxFrames ≤ depth) :
    (∃ trace, (s'.execute host script).1 = .error (.runtime ⟨.stackOverflow, trace⟩)) ∨
      Agrees program (s'.execute host script) (s.evaluate host program depth) := by
  obtain ⟨function, hscript, hconcludes⟩ := h.concludes hs hnatives (hcall _) hkeeps hdepth
  have hclosed : s'.memory.Closed (s'.environment host).methods := h.closed
  have haligned : Aligned (s'.environment host) (s'.environment host) #[⟨script, function, 1, 0⟩]
      (s'.memory.start script) #[⟨script, function, 1, 0⟩] (s'.memory.start script) :=
    hclosed.aligned rfl rfl rfl (hcall _) hkeeps hscript s'.memory.collectAt
  obtain ⟨ended, hended⟩ := haligned.exists_ends
  obtain ⟨result, hends, hresult⟩ := haligned.ends hended
  unfold Session.execute
  rw [runScript_eq (Heap.function_eq_ok.2 hscript) hended]
  generalize s.evaluate host program depth = evaluated at hconcludes ⊢
  cases hconcludes with
  | finishes hends' hmirrors =>
    obtain rfl := hends.unique hends'
    cases ended with
    | faulted fault frames m => cases hresult
    | finished m =>
      cases hresult with
      | finished hm => exact .inr (.succeeds (h.shows hnames hm hmirrors m.stack))
  | faults hends' hmirrors =>
    obtain rfl := hends.unique hends'
    cases ended with
    | finished m => cases hresult
    | faulted fault frames m =>
      cases hresult with
      | faulted _ haligned' =>
        obtain ⟨_, haligned'⟩ := haligned'
        exact .inr (.faults (h.shows hnames haligned'.memory hmirrors #[]))
  | overflows hends' =>
    obtain rfl := hends.unique hends'
    cases ended with
    | finished m => cases hresult
    | faulted fault frames m =>
      cases hresult with
      | faulted _ _ => exact .inl ⟨_, rfl⟩

end Session

/-- A source that a fresh session accepts is run as its program is evaluated. Unless the
machine stops because of an overflow, the run and the evaluation both succeed or stop
with the same fault, the output is the same, and so are the globals up to a renaming
of handles. How deep calls may nest in the evaluation does not matter, as long as it
is not less than in the machine. -/
theorem Accepted.runs_as_evaluated {config : Config} {file source : String} {program : Program}
    {script : Handle} {s : Session Empty Unit}
    (h : Accepted (Session.new config ()) file source program script s) (clock : Nat → Float)
    (orders : CandidateOrders) {depth : Nat} (hdepth : config.maxFrames ≤ depth) :
    let outcome :=
      (Session.new config () : Session Empty Unit).runSource (.plain clock) file source orders
    (∃ trace, outcome.1 = .error (.runtime ⟨.stackOverflow, trace⟩)) ∨
      Session.Agrees program outcome
        ((Session.new config ()).evaluate (.plain clock) program depth) := by
  intro outcome
  have hrun : outcome = s.execute (.plain clock) script := by
    show Session.runSource _ _ _ _ orders = _
    rw [Session.runSource_eq, h.compileSource_eq]
  obtain ⟨count, fns, hloaded⟩ := h.loaded (Session.new_fresh config ())
  rw [hrun]
  exact hloaded.agrees (Session.new_closed config ()) (Session.new_onlyNatives config ())
    (Session.natives_compileSource h.compiles) (fun φ _ => Host.plain_respectsRenaming clock)
    (Host.plain_keepsObjects clock) hdepth

/-! ## Runs that can be computed -/

/-- A source text compiles and finishes without a fault, within the given number of
steps. -/
def Session.finishesWithin (s : Session ε τ) (host : Host ε τ) (file source : String) (n : Nat) :
    Bool :=
  match s.compileSource file source with
  | (.error _, _) => false
  | (.ok script, s') =>
    match s'.memory.heap.function script with
    | .error _ => false
    | .ok function =>
      match endWithin (stepReading (s'.environment host)) n #[⟨script, function, 1, 0⟩]
          (s'.memory.start script) with
      | some (.finished _) => true
      | _ => false

theorem Session.isOk_runSource {s : Session ε τ} {host : Host ε τ} {file source : String} {n : Nat}
    (h : s.finishesWithin host file source n = true) :
    (s.runSource host file source).1.isOk = true := by
  unfold finishesWithin at h
  split at h
  · cases h
  · next script s' hcompile =>
    rw [runSource_eq, hcompile]
    split at h
    · cases h
    · next function hfunction =>
      split at h
      · next m hend =>
        dsimp only
        rw [Session.execute, runScript_eq hfunction (ends_of_endWithin hend)]
        rfl
      · cases h

/-- A source with functions as values, calls, locals and a list. -/
def negationTwice : String :=
  "fn twice(f, x) { var y = f(x); return f(y); }\n" ++
  "fn not(b) { return !b; }\n" ++
  "var z;\n" ++
  "fn main() { z = [true, twice(not, true)]; }"

/-- The theorem applies: the source is accepted, and its run ends without an overflow. -/
theorem runs_as_evaluated_demo : ∃ program script, ∃ s : Session Empty Unit,
    Accepted (Session.new Config.default ()) "demo" negationTwice program script s ∧
    Session.Agrees program
      ((Session.new Config.default ()).runSource (.plain fun _ => 0) "demo" negationTwice)
      ((Session.new Config.default ()).evaluate (.plain fun _ => 0) program 256) := by
  have hfinishes : (Session.new Config.default () : Session Empty Unit).finishesWithin
      (.plain fun _ => 0) "demo" negationTwice 100 = true := by decide +kernel
  obtain ⟨program, script, s, h⟩ := Accepted.of_isOk
    (Session.new Config.default () : Session Empty Unit) "demo" negationTwice (by decide +kernel)
  refine ⟨program, script, s, h, ?_⟩
  rcases Accepted.runs_as_evaluated h (fun _ => 0) .asGiven (le_refl 256) with
    ⟨trace, hoverflow⟩ | hagrees
  · have hok := Session.isOk_runSource hfinishes
    rw [hoverflow] at hok
    cases hok
  · exact hagrees

end ScriptMachine
