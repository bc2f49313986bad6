import ScriptMachine.Proofs.Machine.Lockstep
import ScriptMachine.Proofs.Semantics.Mirror

/-!
# Following an evaluation

A machine follows an evaluation (`Follows`) if it comes to a state that mirrors
the result, or ends in the same fault, unless it runs out of frames or stack.
Machines that follow one evaluation after the other follow both (`Follows.bind`).

While a call is in progress its part of the stack holds the values of its live
locals and, above them, values that wait for their operator (`Stands`). An
instruction takes one such state to another.
-/

namespace ScriptMachine

variable {κ σ α δ : Type} {β γ : Renaming}

/-! ## Following -/

/-- The machine that goes on from a state does what an evaluation did that ended
in the given way: behind a result it comes to a state of which `P` holds, in a
fault it ends as well. It may also overflow. -/
inductive Follows (env : Environment κ σ) (S : Setting κ σ) (c : Image κ)
    (P : α → Store κ σ → Array Frame → Memory κ σ → Prop) (frames : Array Frame)
    (m : Memory κ σ) : EStateM.Result Stop (Store κ σ) α → Prop
  | reaches {a : α} {st : Store κ σ} {frames' : Array Frame} {m' : Memory κ σ}
      (hsteps : Steps (execute env) frames m frames' m') (h : P a st frames' m') :
      Follows env S c P frames m (.ok a st)
  | faults {β : Renaming} {fault : Fault} {st : Store κ σ} {frames' : Array Frame}
      {m' : Memory κ σ} (hends : Ends (execute env) frames m (.faulted fault frames' m'))
      (h : Mirrors env S c β m' st) : Follows env S c P frames m (.error (.fault fault) st)
  | overflows {r : EStateM.Result Stop (Store κ σ) α} {frames' : Array Frame} {m' : Memory κ σ}
      (hends : Ends (execute env) frames m (.faulted .stackOverflow frames' m')) :
      Follows env S c P frames m r

section Follows

variable {env : Environment κ σ} {S : Setting κ σ} {c : Image κ}
  {P Q : α → Store κ σ → Array Frame → Memory κ σ → Prop} {frames frames₁ frames' : Array Frame}
  {m m₁ m' : Memory κ σ} {st : Store κ σ}

theorem Ends.steps {next : Array Frame → Memory κ σ → StepResult κ σ} {result : RunResult κ σ}
    (hsteps : Steps next frames m frames₁ m₁) (h : Ends next frames₁ m₁ result) :
    Ends next frames m result := by
  induction hsteps with
  | refl => exact h
  | tail _ hstep ih => exact ih (h.head hstep)

theorem Steps.trans {next : Array Frame → Memory κ σ → StepResult κ σ}
    (h : Steps next frames m frames₁ m₁) (h' : Steps next frames₁ m₁ frames' m') :
    Steps next frames m frames' m' := by
  induction h' with
  | refl => exact h
  | tail _ hstep ih => exact .tail ih hstep

namespace Follows

variable {r : EStateM.Result Stop (Store κ σ) α}

theorem steps (hsteps : Steps (execute env) frames m frames₁ m₁)
    (h : Follows env S c P frames₁ m₁ r) : Follows env S c P frames m r := by
  cases h with
  | reaches hsteps' h => exact .reaches (hsteps.trans hsteps') h
  | faults hends h => exact .faults (hends.steps hsteps) h
  | overflows hends => exact .overflows (hends.steps hsteps)

theorem head (hstep : execute env frames m = .running frames₁ m₁)
    (h : Follows env S c P frames₁ m₁ r) : Follows env S c P frames m r :=
  h.steps (.tail .refl hstep)

/-- A machine that does more than the evaluation it has followed. -/
theorem extend (h : Follows env S c P frames m r)
    (hP : ∀ {a st frames m}, P a st frames m → Follows env S c Q frames m (.ok a st)) :
    Follows env S c Q frames m r := by
  cases h with
  | reaches hsteps h => exact (hP h).steps hsteps
  | faults hends h => exact .faults hends h
  | overflows hends => exact .overflows hends

theorem mono (h : Follows env S c P frames m r)
    (hPQ : ∀ {a st frames m}, P a st frames m → Q a st frames m) :
    Follows env S c Q frames m r :=
  h.extend fun h => .reaches .refl (hPQ h)

theorem pure {a : α} (h : P a st frames m) :
    Follows env S c P frames m ((Pure.pure a : Eval κ σ α) st) :=
  .reaches .refl h

/-- A machine that follows one evaluation and then, from where it has come to,
another one. -/
theorem bind {x : Eval κ σ α} {k : α → Eval κ σ δ}
    {R : δ → Store κ σ → Array Frame → Memory κ σ → Prop}
    (hx : Follows env S c P frames m (x st))
    (hk : ∀ {a st' frames' m'}, P a st' frames' m' → Follows env S c R frames' m' (k a st')) :
    Follows env S c R frames m ((x >>= k) st) := by
  show Follows env S c R frames m (EStateM.bind x k st)
  unfold EStateM.bind
  generalize x st = r at hx
  cases hx with
  | reaches hsteps h => exact (hk h).steps hsteps
  | faults hends h => exact .faults hends h
  | overflows hends => exact .overflows hends

end Follows

end Follows

/-! ## Calls in progress -/

/-- A call in progress: its code, its callers, its frame, and the stack below its
locals. -/
structure Activation (κ : Type) where
  site : Site κ
  outer : Array Frame
  frame : Frame
  below : Array Value

namespace Activation

/-- The frame when the call has come to `p`. -/
def frameAt (a : Activation κ) (p : Nat) : Frame := { a.frame with ip := p }

/-- All frames when the call has come to `p`. -/
def frames (a : Activation κ) (p : Nat) : Array Frame := a.outer.push (a.frameAt p)

/-- The call runs a function of the image. -/
structure Of (a : Activation κ) (c : Image κ) : Prop where
  chunk : a.site.chunk = a.frame.function.chunk
  heap : a.site.heap = c.heap
  globals : a.site.globals = c.globals
  held : c.heap.get a.frame.handle = .ok (.function a.frame.function)
  base : a.frame.base = a.below.size

/-- What an instruction leads to. -/
def after (a : Activation κ) (config : Config) (p : Nat) :
    EStateM.Result Fault (Memory κ σ) Transfer → StepResult κ σ
  | .error fault m => .faulted fault (a.frames p) m
  | .ok t m => transfer config a.outer (a.frameAt p) m t

theorem execute_eq {env : Environment κ σ} {c : Image κ} {a : Activation κ} (ha : a.Of c)
    {m : Memory κ σ} (hm : c.heap.Evolves m.heap) {p n : Nat} {i : Instruction}
    (hi : a.site.Holds p n i) :
    execute env (a.frames p) m =
      a.after env.config (p + i.length)
        (perform env (a.frameAt (p + i.length)) i m) := by
  have hget : m.heap.get a.frame.handle = .ok (.function a.frame.function) :=
    hm.get ha.held (by simp [Object.kind])
  have hfunction : m.heap.function a.frame.handle = .ok a.frame.function := by
    rw [Heap.function, hget]
  have hfetch := hi.fetch
  rw [ha.chunk] at hfetch
  rw [frames, execute_push, executeIn]
  simp only [frameAt, hfunction, hfetch]
  cases perform env { a.frame with ip := p + i.length } i m <;> rfl

end Activation

/-! ## States of a call -/

/-- The memory mirrors the store, and the stack holds the values of the live
locals `Γ` and, above them, `temps`. -/
structure Stands (env : Environment κ σ) (S : Setting κ σ) (c : Image κ) (a : Activation κ)
    (β : Renaming) (Γ : List SymbolId) (temps : Array Value) (m : Memory κ σ) (st : Store κ σ) :
    Prop where
  mirrors : Mirrors env S c β m st
  stack : ∃ values, m.stack = a.below ++ values ++ temps ∧ Locals c β Γ values st.locals

/-- The call has come to `q` with a value on the stack that stands for the result
of an evaluation. -/
inductive Pushed (env : Environment κ σ) (S : Setting κ σ) (c : Image κ) (a : Activation κ)
    (β : Renaming) (Γ : List SymbolId) (q : Nat) (temps : Array Value) :
    Value → Store κ σ → Array Frame → Memory κ σ → Prop
  | mk {γ : Renaming} {v w : Value} {m : Memory κ σ} {st : Store κ σ} (hle : β ≤ γ)
      (hvw : Value.Matches γ v w) (h : Stands env S c a γ Γ (temps.push v) m st) :
      Pushed env S c a β Γ q temps w st (a.frames q) m

/-- The call has come to `q` with `count` values on the stack for the results of as
many evaluations. -/
inductive PushedAll (env : Environment κ σ) (S : Setting κ σ) (c : Image κ) (a : Activation κ)
    (β : Renaming) (Γ : List SymbolId) (q : Nat) (temps : Array Value) (count : Nat) :
    List Value → Store κ σ → Array Frame → Memory κ σ → Prop
  | mk {γ : Renaming} {vs : Array Value} {ws : List Value} {m : Memory κ σ} {st : Store κ σ}
      (hle : β ≤ γ) (hcount : vs.size = count)
      (hvw : List.Forall₂ (Value.Matches γ) vs.toList ws)
      (h : Stands env S c a γ Γ (temps ++ vs) m st) :
      PushedAll env S c a β Γ q temps count ws st (a.frames q) m

section Stands

variable {env : Environment κ σ} {S : Setting κ σ} {c : Image κ} {a : Activation κ}
  {Γ : List SymbolId} {temps : Array Value} {m m' : Memory κ σ} {st st' : Store κ σ}
  {frames : Array Frame} {p q n : Nat} {v w : Value}

theorem Pushed.mono (hle : β ≤ γ) (h : Pushed env S c a γ Γ q temps w st frames m) :
    Pushed env S c a β Γ q temps w st frames m := by
  cases h with
  | mk hle' hvw h => exact .mk (le_trans hle hle') hvw h

/-- A machine that follows one evaluation to a value and then, with it on the stack,
another one. -/
theorem Follows.bindPushed {x : Eval κ σ Value} {k : Value → Eval κ σ α}
    {R : α → Store κ σ → Array Frame → Memory κ σ → Prop}
    (hx : Follows env S c (Pushed env S c a β Γ q temps) frames m (x st))
    (hk : ∀ {γ v w m st}, β ≤ γ → Value.Matches γ v w →
      Stands env S c a γ Γ (temps.push v) m st → Follows env S c R (a.frames q) m (k w st)) :
    Follows env S c R frames m ((x >>= k) st) := by
  refine hx.bind fun hpushed => ?_
  cases hpushed with
  | mk hle hvw h => exact hk hle hvw h

theorem Follows.bindPushedAll {count : Nat} {x : Eval κ σ (List Value)}
    {k : List Value → Eval κ σ α} {R : α → Store κ σ → Array Frame → Memory κ σ → Prop}
    (hx : Follows env S c (PushedAll env S c a β Γ q temps count) frames m (x st))
    (hk : ∀ {γ vs ws m st}, β ≤ γ → vs.size = count →
      List.Forall₂ (Value.Matches γ) vs.toList ws → Stands env S c a γ Γ (temps ++ vs) m st →
      Follows env S c R (a.frames q) m (k ws st)) :
    Follows env S c R frames m ((x >>= k) st) := by
  refine hx.bind fun hpushed => ?_
  cases hpushed with
  | mk hle hcount hvw h => exact hk hle hcount hvw h

namespace Stands

theorem evolves (h : Stands env S c a β Γ temps m st) : c.heap.Evolves m.heap := h.mirrors.evolves

theorem push (h : Stands env S c a β Γ temps m st) (v : Value) :
    Stands env S c a β Γ (temps.push v) { m with stack := m.stack.push v } st := by
  obtain ⟨values, hstack, hlocals⟩ := h.stack
  exact ⟨h.mirrors.withStack _, values, by simp [hstack], hlocals⟩

/-- The value on top of the stack, and the state without it. -/
theorem pop (h : Stands env S c a β Γ (temps.push v) m st) :
    ∃ rest, m.stack = rest.push v ∧ Stands env S c a β Γ temps { m with stack := rest } st := by
  obtain ⟨values, hstack, hlocals⟩ := h.stack
  exact ⟨a.below ++ values ++ temps, by simp [hstack], h.mirrors.withStack _, values, rfl, hlocals⟩

/-- Another memory and store with the same stack and the same locals. -/
theorem withMirrors (h : Stands env S c a β Γ temps m st) (hle : β ≤ γ)
    (hmirrors : Mirrors env S c γ m' st') (hstack : m'.stack = m.stack)
    (hlocals : st'.locals = st.locals) : Stands env S c a γ Γ temps m' st' := by
  obtain ⟨values, hvalues, hΓ⟩ := h.stack
  exact ⟨hmirrors, values, hstack.trans hvalues, hlocals ▸ hΓ.mono hle⟩

end Stands

/-! ## Single instructions -/

section Instruction

variable {P : α → Store κ σ → Array Frame → Memory κ σ → Prop} {i : Instruction}
  {r : EStateM.Result Stop (Store κ σ) α}

theorem Follows.next (ha : a.Of c) (hm : c.heap.Evolves m.heap) (hi : a.site.Holds p n i)
    (hperform : perform env (a.frameAt (p + i.length)) i m = .ok .next m')
    (h : Follows env S c P (a.frames (p + i.length)) m' r) :
    Follows env S c P (a.frames p) m r := by
  refine h.head ?_
  rw [Activation.execute_eq ha hm hi, hperform]
  rfl

theorem Follows.jump (ha : a.Of c) (hm : c.heap.Evolves m.heap) (hi : a.site.Holds p n i)
    {distance : Nat}
    (hperform : perform env (a.frameAt (p + i.length)) i m = .ok (.jump distance) m')
    (h : Follows env S c P (a.frames (p + i.length + distance)) m' r) :
    Follows env S c P (a.frames p) m r := by
  refine h.head ?_
  rw [Activation.execute_eq ha hm hi, hperform]
  rfl

theorem Follows.fault (ha : a.Of c) (hm : c.heap.Evolves m.heap) (hi : a.site.Holds p n i)
    {fault : Fault}
    (hperform : perform env (a.frameAt (p + i.length)) i m = .error fault m')
    (hmirrors : Mirrors env S c β m' st) :
    Follows env S c P (a.frames p) m (.error (.fault fault) st) := by
  have hexecute : execute env (a.frames p) m = .faulted fault (a.frames (p + i.length)) m' := by
    rw [Activation.execute_eq ha hm hi, hperform]
    rfl
  exact .faults ⟨_, _, .refl, hexecute⟩ hmirrors

/-- An instruction that pushes a value at its end. -/
theorem Follows.placed (ha : a.Of c) (hm : c.heap.Evolves m.heap) (hi : a.site.Holds p n i)
    (hperform : perform env (a.frameAt (p + i.length)) i m = placed env.config m' v)
    (h : Follows env S c P (a.frames (p + i.length)) { m' with stack := m'.stack.push v } r) :
    Follows env S c P (a.frames p) m r := by
  unfold ScriptMachine.placed at hperform
  split at hperform
  · have hexecute : execute env (a.frames p) m =
        .faulted .stackOverflow (a.frames (p + i.length)) m' := by
      rw [Activation.execute_eq ha hm hi, hperform]
      rfl
    exact .overflows ⟨_, _, .refl, hexecute⟩
  · exact .next ha hm hi hperform h

/-- An instruction that pushes the value of an operation. -/
theorem Stands.placedOr (ha : a.Of c) (hm : c.heap.Evolves m.heap) (hi : a.site.Holds p n i)
    {result result' : Except Fault Value}
    (hperform : perform env (a.frameAt (p + i.length)) i m =
      ScriptMachine.placedOr env.config m' result)
    (hagree : Agree (Value.Matches β) result result') (h : Stands env S c a β Γ temps m' st) :
    Follows env S c (Pushed env S c a β Γ (p + i.length) temps) (a.frames p) m
      (Eval.ofResult result' st) := by
  cases hagree with
  | error fault => exact .fault ha hm hi hperform h.mirrors
  | ok hvw => exact .placed ha hm hi hperform (.pure (.mk (le_refl β) hvw (h.push _)))

end Instruction

end Stands

end ScriptMachine
