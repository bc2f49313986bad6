import ScriptMachine.Proofs.Heap.Growth
import ScriptMachine.Proofs.Session.Registration

/-!
# Rejected sources

A source text that does not compile leaves the session as it was (`Session.rejected_unharmed`). If
it has no program, or none whose names resolve, nothing at all has changed. If its code cannot be
generated, there may be functions and names on the heap that were not there; nothing leads to
them, and the next collection frees them.
-/

namespace ScriptMachine.Session

variable {ε τ : Type} {s s' : Session ε τ} {file source : String} {orders : CandidateOrders}

/-! ## Settled sessions -/

/-- The session behind a request. -/
def serve (host : Host ε τ) (s : Session ε τ) : Request ε → Session ε τ
  | .defineNative name arity code => s.defineNative name arity code
  | .defineMethod kind name arity code => s.defineMethod kind name arity code
  | .call call => s.after host call

/-- The heap has issued every handle to which the roots lead between two calls. Such a handle may
be stale: host functions can keep handles for longer than the objects live. -/
def Settled (s : Session ε τ) : Prop :=
  ∀ {handle}, s.memory.heap.Reachable (s.memory.roots s.methods #[]) handle →
    ¬s.memory.heap.Pending handle

theorem Idle.settled (h : s.Idle) (host : Host ε τ) : s.Settled := fun hreach =>
  Heap.not_pending_of_isLive ((h.undangling host).noDangling.live hreach)

section Serve

variable {host : Host ε τ} (hcall : KeepsIntact host.call) (hkeeps : KeepsObjects host.call)

include hcall hkeeps

theorem Idle.serve (h : s.Idle) (request : Request ε) : (serve host s request).Idle := by
  cases request with
  | defineNative name arity code => exact ⟨h.closed.defineNative name arity code, h.stack⟩
  | defineMethod kind name arity code => exact ⟨h.closed.defineMethod kind name arity code, h.stack⟩
  | call call => exact h.after hcall hkeeps call

theorem Idle.foldl_serve (h : s.Idle) (requests : List (Request ε)) :
    (requests.foldl (Session.serve host) s).Idle := by
  induction requests generalizing s with
  | nil => exact h
  | cons request requests ih => exact ih (h.serve hcall hkeeps request)

end Serve

/-! ## Sources that do not compile -/

/-- A program that does not compile leaves all but the heap as it was, and that with more
objects at most. -/
theorem allocs_of_compile {program : Program} {error : SessionError}
    (h : s.compile program file orders = (.error error, s')) :
    ∃ heap, s.memory.heap.Allocs heap ∧ s' = { s with memory := { s.memory with heap } } := by
  have hcompiles := s.compiles program file orders
  rw [h] at hcompiles
  cases hcompiles with
  | unresolved => exact ⟨_, .refl, rfl⟩
  | @refused resolved symbols =>
    exact ⟨_, resolved.compile_allocs s.memory.heap symbols, rfl⟩

theorem allocs_of_compileSource {error : SessionError}
    (h : s.compileSource file source orders = (.error error, s')) :
    ∃ heap, s.memory.heap.Allocs heap ∧ s' = { s with memory := { s.memory with heap } } := by
  unfold Session.compileSource at h
  split at h
  · cases h
    exact ⟨_, .refl, rfl⟩
  · exact allocs_of_compile h

/-- A source text without a program changes nothing. -/
theorem compileSource_of_ofSource {diagnostics : List Diagnostic}
    (h : Program.ofSource file source = .error diagnostics) :
    (s.compileSource file source orders).2 = s := by
  unfold Session.compileSource
  rw [h]

/-- A program whose names do not resolve changes nothing. -/
theorem compileSource_of_check {program : Program} {diagnostics : List Diagnostic}
    (hread : Program.ofSource file source = .ok program)
    (hcheck : (program.resolve s.natives.toList).check file orders = .error diagnostics) :
    (s.compileSource file source orders).2 = s := by
  unfold Session.compileSource Session.compile
  rw [hread]
  dsimp only
  rw [hcheck]

/-- Only what does not compile is reported with diagnostics. -/
theorem compileSource_of_runSource {host : Host ε τ} {diagnostics : List Diagnostic}
    (h : (s.runSource host file source orders).1 = .error (.compile diagnostics)) :
    s.compileSource file source orders =
      (.error (.compile diagnostics), (s.runSource host file source orders).2) := by
  rw [runSource_eq] at h ⊢
  generalize s.compileSource file source orders = compiled at h ⊢
  obtain ⟨outcome, s'⟩ := compiled
  cases outcome with
  | error error =>
    cases h
    rfl
  | ok script =>
    unfold Session.execute at h
    dsimp only at h
    split at h <;> cases h

/-! ## What is left behind -/

/-- The session `s'` is `s` but for what has been added to its heap. -/
structure Unharmed (s s' : Session ε τ) : Prop where
  rest : s' = { s with memory := { s.memory with heap := s'.memory.heap } }
  get : ∀ {handle object}, s.memory.heap.get handle = .ok object →
    s'.memory.heap.get handle = .ok object

/-- Nothing leads to what has been added to the heap, and the next collection frees it. -/
structure Unburdened (s s' : Session ε τ) : Prop where
  gained : ∀ {handle}, s'.memory.heap.isLive handle → ¬s.memory.heap.isLive handle →
    ¬s'.memory.heap.Reachable (s'.memory.roots s'.methods #[]) handle
  collected : ∀ handle, s'.collectGarbage.2.memory.heap.get handle =
    s.collectGarbage.2.memory.heap.get handle

theorem unharmed_of_allocs (hwf : s.memory.heap.WF) {heap : Heap (NativeCode ε)}
    (h : s.memory.heap.Allocs heap) : s.Unharmed { s with memory := { s.memory with heap } } :=
  ⟨rfl, (h.grown hwf).get⟩

theorem Settled.unburdened (hsettled : s.Settled) (hwf : s.memory.heap.WF)
    {heap : Heap (NativeCode ε)} (h : s.memory.heap.Allocs heap) :
    s.Unburdened { s with memory := { s.memory with heap } } :=
  ⟨(h.grown hwf).not_reachable hsettled, (h.grown hwf).get_collect hsettled hwf⟩

/-- **A failed compilation leaves the session intact.** When a source text is run and does not
compile, configuration, natives, methods, output, globals, stack and the time of the next
collection are as before (frames there are in a run only), and every live handle reaches the same
object. If the source text has no program, or one whose names do not resolve, nothing at all has
changed. In a settled session no root leads to the objects that are new, and the next collection
leaves the objects that it would have left without the attempt. After any requests a session is
settled, if native code lets nothing dangle. -/
theorem rejected_unharmed :
    (∀ (s : Session ε τ), s.memory.heap.WF →
      ∀ (host : Host ε τ) (file source : String) (orders : CandidateOrders) {diagnostics},
        (s.runSource host file source orders).1 = .error (.compile diagnostics) →
          let s' := (s.runSource host file source orders).2
          s.Unharmed s' ∧
          (∀ {errors}, Program.ofSource file source = .error errors → s' = s) ∧
          (∀ {program errors}, Program.ofSource file source = .ok program →
            (program.resolve s.natives.toList).check file orders = .error errors → s' = s) ∧
          (s.Settled → s.Unburdened s')) ∧
    ∀ {host : Host ε τ}, KeepsIntact host.call → KeepsObjects host.call →
      ∀ (config : Config) (state : τ) (requests : List (Request ε)),
        let s := requests.foldl (serve host) (new config state)
        s.memory.heap.WF ∧ s.Settled := by
  refine ⟨?_, fun {host} hcall hkeeps config state requests => ?_⟩
  · intro s hwf host file source orders diagnostics hfail s'
    have hcompile : s.compileSource file source orders = (.error (.compile diagnostics), s') :=
      compileSource_of_runSource hfail
    have hbehind : (s.compileSource file source orders).2 = s' := congrArg Prod.snd hcompile
    obtain ⟨heap, hallocs, heq⟩ := allocs_of_compileSource hcompile
    refine ⟨?_, fun hread => hbehind ▸ compileSource_of_ofSource hread,
      fun hread hcheck => hbehind ▸ compileSource_of_check hread hcheck, fun hsettled => ?_⟩
    · rw [heq]
      exact unharmed_of_allocs hwf hallocs
    · rw [heq]
      exact hsettled.unburdened hwf hallocs
  · have hidle := (new_idle config state).foldl_serve hcall hkeeps requests
    exact ⟨hidle.closed.heap.wf, hidle.settled host⟩

/-- The theorem applies: the name of a method is on the heap when the code of a property cannot
be generated. -/
theorem rejected_unharmed_demo :
    let host : Host Empty Unit := .plain fun _ => 0
    let s := [Request.defineNative "now" 0 (.builtin .clock), .call .takeOutput].foldl (serve host)
      (new Config.default ())
    let source := "fn main() { print [now].len(); print now.len; }"
    let s' := (s.runSource host "demo" source).2
    s.memory.heap.stats.live < s'.memory.heap.stats.live ∧ s.Unharmed s' ∧ s.Unburdened s' := by
  intro host s source s'
  obtain ⟨hwf, hsettled⟩ : s.memory.heap.WF ∧ s.Settled :=
    rejected_unharmed.2 (Host.plain_keepsIntact _) (Host.plain_keepsObjects _) Config.default () _
  have hfail : (match (s.runSource host "demo" source).1 with
      | .error (.compile _) => true
      | _ => false) = true := by
    decide +kernel
  split at hfail
  · next diagnostics herror =>
    obtain ⟨hunharmed, -, -, hunburdened⟩ := rejected_unharmed.1 s hwf host _ _ _ herror
    exact ⟨by decide +kernel, hunharmed, hunburdened hsettled⟩
  · cases hfail

end ScriptMachine.Session
