import ScriptMachine.Proofs.Session.Isolation

/-!
# Registered natives stay registered

A native takes the next global slot when it is defined. It stays there, live, whatever else
is asked of the session (`Session.natives_stay_registered`), as long as no source text that is
run assigns to a native: a program may do that, and the native is lost for every
later program (`Session.native_overwritten`).
-/

namespace ScriptMachine.Session

variable {ε τ : Type}

/-! ## Requests on record -/

/-- What a session can be asked to do, by its host as well. -/
inductive Request (ε : Type) where
  | defineNative (name : String) (arity : Nat) (code : NativeCode ε)
  | defineMethod (kind : ObjectKind) (name : String) (arity : Nat) (code : NativeCode ε)
  | call (call : Call)

/-- A session with a record of the natives that have been defined in it, in that order, each
with the handle of its object. -/
structure Ledger (ε τ : Type) where
  session : Session ε τ
  registered : Array (Handle × Native (NativeCode ε)) := #[]

namespace Ledger

def defineNative (l : Ledger ε τ) (name : String) (arity : Nat) (code : NativeCode ε) :
    Ledger ε τ where
  session := l.session.defineNative name arity code
  registered :=
    l.registered.push ((l.session.addNative name arity code).1, ⟨name, arity, code⟩)

def defineMethod (l : Ledger ε τ) (kind : ObjectKind) (name : String) (arity : Nat)
    (code : NativeCode ε) : Ledger ε τ :=
  { l with session := l.session.defineMethod kind name arity code }

/-- A session with the built-in functions, which are defined like any others. -/
def new (config : Config) (state : τ) : Ledger ε τ :=
  let start : Ledger ε τ :=
    { session :=
        { config
          memory :=
            { heap := {}, collectAt := config.policy.initial, host := { custom := state } } } }
  let l := start.defineNative "clock" 0 (.builtin .clock)
  let l := l.defineNative "type" 1 (.builtin .type)
  let l := l.defineMethod .list "push" 1 (.builtin .push)
  let l := l.defineMethod .list "pop" 0 (.builtin .pop)
  l.defineMethod .list "len" 0 (.builtin .len)

/-- A ledger is kept beside a session from its start. -/
theorem session_new (config : Config) (state : τ) :
    (new config state : Ledger ε τ).session = Session.new config state := rfl

def serve (host : Host ε τ) (l : Ledger ε τ) : Request ε → Ledger ε τ
  | .defineNative name arity code => l.defineNative name arity code
  | .defineMethod kind name arity code => l.defineMethod kind name arity code
  | .call call => { l with session := l.session.after host call }

/-- The natives on record are where they were put. The session resembles `s₀`, a session in
which nothing has been done but to define natives and methods. -/
structure InPlace (l : Ledger ε τ) (s₀ : Session ε τ) : Prop where
  fresh : s₀.Fresh
  onlyNatives : s₀.memory.heap.OnlyNatives
  resembles : l.session.Resembles s₀
  size_eq : l.registered.size = l.session.natives.size
  entry : ∀ {i : Nat} {handle : Handle} {native : Native (NativeCode ε)},
    l.registered[i]? = some (handle, native) →
    l.session.natives[i]? = some native.name ∧
      l.session.memory.globals[i]? = some (Value.object handle) ∧
      ∃ b, s₀.memory.globals[i]? = some (Value.object b) ∧
        s₀.memory.heap.get b = .ok (.native native)

section InPlace

variable {l : Ledger ε τ} {s₀ : Session ε τ}

/-- With nothing defined, nothing has to be in place. -/
theorem InPlace.empty (config : Config) (memory : Memory (NativeCode ε) (HostState τ))
    (hheap : memory.heap = {}) (hglobals : memory.globals = #[]) :
    InPlace { session := { config, memory } } { config, memory } := by
  have hget : ∀ {handle object}, memory.heap.get handle ≠ .ok object := by
    intro handle object
    simp [hheap, Heap.get, Heap.entry?]
  have hclosed : Session.Closed (ε := ε) { config, memory } := by
    refine ⟨hheap ▸ .empty, fun value hvalue => ?_, fun method hmethod => by simp at hmethod⟩
    simp [hglobals] at hvalue
  exact ⟨⟨hclosed, by simp [hglobals], hget, fun method hmethod => by simp at hmethod⟩,
    fun handle object h => absurd h hget, hclosed.resembles, rfl, fun h => by simp at h⟩

theorem InPlace.natives_le (h : InPlace l s₀) :
    l.session.natives.size ≤ l.session.memory.globals.size := by
  obtain ⟨β, hresembles⟩ := h.resembles
  exact hresembles.natives_le h.fresh

/-- The natives on record are live. -/
theorem InPlace.get (h : InPlace l s₀) {i : Nat} {handle : Handle} {native : Native (NativeCode ε)}
    (hentry : l.registered[i]? = some (handle, native)) :
    l.session.memory.heap.get handle = .ok (.native native) := by
  obtain ⟨hname, hglobal, b, hglobal₀, hget₀⟩ := h.entry hentry
  obtain ⟨β, hresembles⟩ := h.resembles
  have hlt : i < s₀.natives.size := by
    rw [← h.resembles.natives_eq]
    exact (Array.getElem?_eq_some_iff.1 hname).1
  have hmatch := hresembles.globals i hlt
  rw [hglobal, hglobal₀] at hmatch
  cases hmatch with
  | some hvalue =>
    cases hvalue with
    | object hab =>
      obtain ⟨x, y, hx, hy, hxy⟩ := hresembles.heap.objects hab
      rw [hget₀] at hy
      cases hy
      cases hxy with
      | native _ => exact hx

theorem InPlace.defineMethod (h : InPlace l s₀) (kind : ObjectKind) (name : String) (arity : Nat)
    (code : NativeCode ε) :
    InPlace (l.defineMethod kind name arity code) (s₀.defineMethod kind name arity code) := by
  have hwf := h.fresh.closed.heap.wf
  refine ⟨h.fresh.defineMethod kind name arity code,
    onlyNatives_addNative hwf h.onlyNatives name arity code,
    h.resembles.defineMethod kind name arity code, h.size_eq, fun {i handle native} hentry => ?_⟩
  obtain ⟨hname, hglobal, b, hglobal₀, hget₀⟩ := h.entry hentry
  exact ⟨hname, hglobal, b, hglobal₀, Heap.get_alloc_of_get hwf _ hget₀⟩

/-- A native is put behind the others. -/
theorem getElem?_defineNative {s : Session ε τ} (h : s.natives.size ≤ s.memory.globals.size)
    (name : String) (arity : Nat) (code : NativeCode ε) (i : Nat) :
    (s.defineNative name arity code).memory.globals[i]? =
      if i = s.natives.size then some (.object (s.addNative name arity code).1)
      else if i < s.natives.size then s.memory.globals[i]? else none := by
  have hsize : (s.memory.globals.shrink s.natives.size).size = s.natives.size := by
    rw [Array.size_shrink]
    omega
  show ((s.memory.globals.shrink s.natives.size).push
    (.object (s.addNative name arity code).1))[i]? = _
  rw [Array.getElem?_push, hsize, getElem?_shrink]

theorem InPlace.defineNative (h : InPlace l s₀) (name : String) (arity : Nat)
    (code : NativeCode ε) :
    InPlace (l.defineNative name arity code) (s₀.defineNative name arity code) := by
  have hwf := h.fresh.closed.heap.wf
  have hsize := h.size_eq
  have hsize₀ : l.registered.size = s₀.natives.size := by rw [hsize, h.resembles.natives_eq]
  refine ⟨h.fresh.defineNative name arity code,
    onlyNatives_addNative hwf h.onlyNatives name arity code,
    h.resembles.defineNative name arity code, ?_, fun {i handle native} hentry => ?_⟩
  · simp only [Ledger.defineNative, Session.defineNative, Array.size_push, hsize,
      Session.addNative]
  · have hglobals := getElem?_defineNative h.natives_le name arity code i
    have hglobals₀ := getElem?_defineNative (Nat.le_of_eq h.fresh.globals_eq.symm) name arity code i
    have hnames : (l.session.defineNative name arity code).natives[i]? =
        if i = l.session.natives.size then some name else l.session.natives[i]? :=
      Array.getElem?_push
    show (l.session.defineNative name arity code).natives[i]? = _ ∧
      (l.session.defineNative name arity code).memory.globals[i]? = _ ∧ _
    rw [hglobals, hglobals₀, hnames]
    have hentry' : (l.registered.push
        ((l.session.addNative name arity code).1, ⟨name, arity, code⟩))[i]? =
        some (handle, native) := hentry
    rw [Array.getElem?_push] at hentry'
    split at hentry'
    · next hi =>
      cases hentry'
      rw [if_pos (hi.trans hsize), if_pos (hi.trans hsize), if_pos (hi.trans hsize₀)]
      exact ⟨rfl, rfl, _, rfl, h.fresh.get_addNative name arity code⟩
    · next hi =>
      obtain ⟨hname, hglobal, b, hglobal₀, hget₀⟩ := h.entry hentry'
      have hlt := (Array.getElem?_eq_some_iff.1 hentry').1
      rw [if_neg (by omega), if_neg (by omega), if_pos (by omega), if_neg (by omega),
        if_pos (by omega)]
      exact ⟨hname, hglobal, b, hglobal₀, Heap.get_alloc_of_get hwf _ hget₀⟩

/-- The built-in functions are in place. -/
theorem InPlace.new (config : Config) (state : τ) :
    InPlace (new config state : Ledger ε τ) (Session.new config state) :=
  (((((InPlace.empty config _ rfl rfl).defineNative "clock" 0 (.builtin .clock)).defineNative
    "type" 1 (.builtin .type)).defineMethod .list "push" 1 (.builtin .push)).defineMethod
    .list "pop" 0 (.builtin .pop)).defineMethod .list "len" 0 (.builtin .len)

end InPlace

/-! ## Requests that spare the natives -/

section Serve

variable {host : Host ε τ} (hrespects : RespectsRenaming Function.Matches host.call host.call)
  (hkeeps : KeepsObjects host.call) {l : Ledger ε τ} {s₀ : Session ε τ}

include hrespects hkeeps

/-- A call leaves the natives where they are, unless it runs a source text that assigns to
one. -/
theorem InPlace.call (h : InPlace l s₀) {call : Call}
    (hspares : call.sparesNatives l.session.natives = true) :
    InPlace (l.serve host (.call call)) s₀ := by
  obtain ⟨hresembles, hsame⟩ :=
    h.resembles.after hrespects hkeeps h.fresh h.onlyNatives hspares
  have hnames : (l.serve host (.call call)).session.natives = l.session.natives :=
    hresembles.natives_eq.trans h.resembles.natives_eq.symm
  refine ⟨h.fresh, h.onlyNatives, hresembles, ?_, fun {i handle native} hentry => ?_⟩
  · rw [hnames]
    exact h.size_eq
  · obtain ⟨hname, hglobal, hfresh⟩ := h.entry hentry
    refine ⟨by rwa [hnames], ?_, hfresh⟩
    exact (hsame i (Array.getElem?_eq_some_iff.1 hname).1).trans hglobal

end Serve

end Ledger

/-- The natives that are defined behind the request. -/
def Request.defines (natives : Array String) : Request ε → Array String
  | .defineNative name _ _ => natives.push name
  | _ => natives

/-- No source text that is run assigns to a native that has been defined before. -/
def spareNatives (natives : Array String) : List (Request ε) → Bool
  | [] => true
  | .call call :: requests => call.sparesNatives natives && spareNatives natives requests
  | request :: requests => spareNatives (request.defines natives) requests

section Serve

variable {host : Host ε τ} (hrespects : RespectsRenaming Function.Matches host.call host.call)
  (hkeeps : KeepsObjects host.call)

include hrespects hkeeps

theorem Ledger.InPlace.serve {l : Ledger ε τ} {s₀ : Session ε τ} (h : InPlace l s₀)
    {requests : List (Request ε)} (hspares : spareNatives l.session.natives requests = true) :
    ∃ s₀', InPlace (requests.foldl (Ledger.serve host) l) s₀' := by
  induction requests generalizing l s₀ with
  | nil => exact ⟨s₀, h⟩
  | cons request requests ih =>
    cases request with
    | defineNative name arity code => exact ih (h.defineNative name arity code) hspares
    | defineMethod kind name arity code => exact ih (h.defineMethod kind name arity code) hspares
    | call call =>
      obtain ⟨hcall, hrest⟩ := Bool.and_eq_true_iff.1 hspares
      have hnext := h.call hrespects hkeeps hcall
      refine ih hnext ?_
      rwa [hnext.resembles.natives_eq, ← h.resembles.natives_eq]

/-- Registered natives stay registered. After any requests none of which runs a source text that
assigns to a native, every native slot has its native: the one that was defined with this
name, live, by the handle that it got then. -/
theorem natives_stay_registered (config : Config) (state : τ) (requests : List (Request ε))
    (hspares : spareNatives (new config state : Session ε τ).natives requests = true) :
    let l := requests.foldl (Ledger.serve host) (Ledger.new config state)
    l.registered.size = l.session.natives.size ∧
      ∀ i < l.session.natives.size, ∃ handle native,
        l.registered[i]? = some (handle, native) ∧
        l.session.natives[i]? = some native.name ∧
        l.session.memory.globals[i]? = some (Value.object handle) ∧
        l.session.memory.heap.get handle = .ok (.native native) := by
  intro l
  obtain ⟨s₀, h⟩ := (Ledger.InPlace.new config state).serve hrespects hkeeps hspares
  refine ⟨h.size_eq, fun i hi => ?_⟩
  have hregistered := Array.getElem?_eq_getElem (h.size_eq ▸ hi)
  obtain ⟨hname, hglobal, -⟩ := h.entry hregistered
  exact ⟨_, _, hregistered, hname, hglobal, h.get hregistered⟩

end Serve

/-- The theorem applies: a native is defined between two programs, of which the first has a
local variable with the name of a native. -/
theorem natives_stay_registered_demo :
    let requests : List (Request Empty) :=
      [.call (.runSource "first" "var x = [1]; fn main() { var type = x; type = 1; print type; }"),
        .defineNative "now" 0 (.builtin .clock), .call .collectGarbage,
        .call (.runSource "second" "fn main() { print type(now); }")]
    let l := requests.foldl (Ledger.serve (.plain fun _ => 0)) (Ledger.new Config.default ())
    l.registered.size = l.session.natives.size ∧
      ∀ i < l.session.natives.size, ∃ handle native,
        l.registered[i]? = some (handle, native) ∧
        l.session.natives[i]? = some native.name ∧
        l.session.memory.globals[i]? = some (Value.object handle) ∧
        l.session.memory.heap.get handle = .ok (.native native) := by
  intro requests
  have hspares : spareNatives (new Config.default () : Session Empty Unit).natives requests =
      true := by
    decide +kernel
  exact natives_stay_registered (Host.plain_respectsRenaming _) (Host.plain_keepsObjects _)
    Config.default () requests hspares

/-! ## A native that is lost -/

/-- A source text compiles and ends within the given number of steps, in a memory that passes
the test. -/
def endsWithin (s : Session ε τ) (host : Host ε τ) (file source : String) (n : Nat)
    (test : Memory (NativeCode ε) (HostState τ) → Bool) : Bool :=
  match s.compileSource file source with
  | (.error _, _) => false
  | (.ok script, s') =>
    match s'.memory.heap.function script with
    | .error _ => false
    | .ok function =>
      match endWithin (stepReading (s'.environment host)) n #[⟨script, function, 1, 0⟩]
          (s'.memory.start script) with
      | some result => test result.outcome.2
      | none => false

theorem memory_of_endsWithin {s : Session ε τ} {host : Host ε τ} {file source : String} {n : Nat}
    {test : Memory (NativeCode ε) (HostState τ) → Bool}
    (h : s.endsWithin host file source n test = true) :
    test (s.runSource host file source).2.memory = true := by
  unfold endsWithin at h
  rw [runSource_eq]
  generalize s.compileSource file source = compiled at h ⊢
  obtain ⟨outcome, s'⟩ := compiled
  cases outcome with
  | error error => cases h
  | ok script =>
    dsimp only at h ⊢
    rw [snd_execute]
    split at h
    · cases h
    · next function hfunction =>
      split at h
      · next result hend => rwa [runScript_eq hfunction (ends_of_endWithin hend)]
      · cases h

/-- A program that assigns to a native takes it from all later programs: the slot holds no
native any more. -/
theorem native_overwritten :
    let source := "fn main() { clock = null; }"
    let requests : List (Request Empty) := [.call (.runSource "demo" source)]
    let l := requests.foldl (Ledger.serve (.plain fun _ => 0)) (Ledger.new Config.default ())
    ¬ ∃ handle, l.session.memory.globals[0]? = some (Value.object handle) := by
  intro source requests l hslot
  have hend : (new Config.default () : Session Empty Unit).endsWithin (.plain fun _ => 0) "demo"
      source 100 (fun m => (m.globals[0]?.bind Value.handle?).isNone) =
        true := by
    decide +kernel
  have hnone : (l.session.memory.globals[0]?.bind Value.handle?).isNone = true :=
    memory_of_endsWithin hend
  obtain ⟨handle, hslot⟩ := hslot
  rw [hslot] at hnone
  cases hnone

end ScriptMachine.Session
