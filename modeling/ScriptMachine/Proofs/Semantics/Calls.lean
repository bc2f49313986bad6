import ScriptMachine.Proofs.Semantics.Following

/-!
# Calls follow calls

A call by the machine follows a call by the evaluation (`Stands.call`,
`Stands.invoke`): arguments are counted first, native code is called on either
side, and a function is entered with the arguments as its first locals. What the
body of a function does is left open here (`Applies`).
-/

namespace ScriptMachine

variable {κ σ α : Type} {β γ : Renaming}

/-! ## A callee and its arguments on the stack -/

section Stack

variable (pre vs : Array Value) (v : Value)

theorem extract_args : (pre ++ vs).extract ((pre ++ vs).size - vs.size) (pre ++ vs).size = vs := by
  rw [Array.size_append, Nat.add_sub_cancel, Array.extract_append_right, Array.extract_size]

theorem shrink_args : (pre ++ vs).shrink ((pre ++ vs).size - vs.size) = pre := by
  rw [Array.size_append, Nat.add_sub_cancel, Array.shrink_eq_take, Array.take_eq_extract,
    Array.extract_append_left, Array.extract_size]

/-- The callee as the first of its arguments. -/
theorem push_append_args : pre.push v ++ vs = pre ++ (#[v] ++ vs) := by
  rw [Array.push_eq_append, Array.append_assoc]

theorem size_callee_args : (#[v] ++ vs).size = vs.size + 1 := by
  rw [Array.size_append, Nat.add_comm]
  rfl

theorem getElem?_callee :
    (pre.push v ++ vs)[(pre.push v ++ vs).size - (vs.size + 1)]? = some v := by
  rw [push_append_args, ← size_callee_args vs v, Array.size_append, Nat.add_sub_cancel,
    Array.getElem?_append_right (Nat.le_refl _), Nat.sub_self]
  simp

theorem extract_receiver_args :
    ((pre.push v ++ vs).extract ((pre.push v ++ vs).size - (vs.size + 1))
      (pre.push v ++ vs).size).toList = v :: vs.toList := by
  rw [push_append_args, ← size_callee_args vs v, extract_args]
  simp

theorem shrink_callee :
    (pre.push v ++ vs).shrink ((pre.push v ++ vs).size - (vs.size + 1)) = pre := by
  rw [push_append_args, ← size_callee_args vs v, shrink_args]

end Stack

/-! ## Calls of an evaluation, written out -/

namespace Eval

variable {S : Setting κ σ} {apply : FnDecl → List Value → Eval κ σ Value}

theorem callNative_apply (call : NativeCall κ σ) (code : κ) (args : List Value) (st : Store κ σ) :
    callNative call code args st =
      let outcome := call code args (st.heap, st.host)
      let st := { st with heap := outcome.2.1, host := outcome.2.2 }
      match outcome.1 with
      | .ok value => .ok value st
      | .error message => .error (.fault (.native message)) st := by
  show (match (call code args (st.heap, st.host)).1 with
      | .ok value => Pure.pure value
      | .error message => throw (.fault (.native message)) : Eval κ σ Value) _ = _
  dsimp only
  cases (call code args (st.heap, st.host)).1 <;> rfl

theorem checkArity_bind (name : String) (arity given : Nat) (x : Eval κ σ α) (st : Store κ σ) :
    (do checkArity name arity given; x : Eval κ σ α) st =
      if arity ≠ given then .error (.fault (.arity name arity given)) st else x st := by
  by_cases h : arity ≠ given
  · rw [if_pos h]
    show EStateM.bind (checkArity name arity given) (fun _ => x) st = _
    rw [checkArity, if_pos h]
    rfl
  · rw [if_neg h]
    show EStateM.bind (checkArity name arity given) (fun _ => x) st = _
    rw [checkArity, if_neg h]
    rfl

/-- A call of what a handle was found to stand for. -/
def callFound (S : Setting κ σ) (apply : FnDecl → List Value → Eval κ σ Value) (args : List Value) :
    Except HeapFault (Object κ) → Eval κ σ Value
  | .error fault => throw (.fault (.heap fault))
  | .ok object => callObject S apply args object

theorem callValue_object {handle : Handle} {args : List Value} {st : Store κ σ} {object : Object κ}
    (h : st.heap.get handle = .ok object) :
    callValue S apply (.object handle) args st = callObject S apply args object st := by
  show callFound S apply args (st.heap.get handle) st = _
  rw [h, callFound]

theorem invoke_apply (name : String) (receiver : Value) (args : List Value) (st : Store κ σ) :
    invoke S name receiver args st = match st.heap.method S.methods name receiver with
      | .error fault => .error (.fault fault) st
      | .ok native =>
        if native.arity ≠ args.length then
          .error (.fault (.arity native.name native.arity args.length)) st
        else callNative S.call native.code (receiver :: args) st := by
  show (do
    let native ← ofResult (st.heap.method S.methods name receiver)
    checkArity native.name native.arity args.length
    callNative S.call native.code (receiver :: args) : Eval κ σ Value) st = _
  cases st.heap.method S.methods name receiver with
  | error fault => rfl
  | ok native => exact checkArity_bind native.name native.arity args.length _ st

end Eval

/-! ## What calls rely on -/

/-- The declared functions and the native code of an evaluation are those of the
machine. -/
structure Setting.Suits (S : Setting κ σ) (env : Environment κ σ) (c : Image κ) : Prop where
  call : RespectsRenaming c.Declares env.call S.call
  keeps : KeepsObjects env.call
  fns_eq : S.fns = c.program.fns
  find : ∀ d ∈ c.program.fns, S.fns.find? (·.name = d.name) = some d

/-- The call of a declared function from code of the image. Its callee is the
topmost value below its arguments. -/
structure Activation.Runs (a : Activation κ) (c : Image κ) (d : FnDecl) : Prop extends a.Of c where
  code : FnAt a.site d
  callee : a.below ≠ #[]
  caller : a.outer ≠ #[]

/-- The call is over: its result stands where the callee stood. -/
inductive Returned (env : Environment κ σ) (S : Setting κ σ) (c : Image κ) (a : Activation κ)
    (β : Renaming) (locals : SymbolId → Option Value) :
    Value → Store κ σ → Array Frame → Memory κ σ → Prop
  | mk {γ : Renaming} {v w : Value} {m : Memory κ σ} {st : Store κ σ} (hle : β ≤ γ)
      (hvw : Value.Matches γ v w) (hmirrors : Mirrors env S c γ m st)
      (hstack : m.stack = a.below.pop.push v) (hlocals : st.locals = locals) :
      Returned env S c a β locals w st a.outer m

/-- Calls of declared functions, with `depth` frames below them, follow those of
an evaluation. -/
def Applies (env : Environment κ σ) (S : Setting κ σ) (c : Image κ)
    (apply : FnDecl → List Value → Eval κ σ Value) (depth : Nat) : Prop :=
  ∀ {a : Activation κ} {d : FnDecl} {β : Renaming} {vs : Array Value} {ws : List Value}
    {m : Memory κ σ} {st : Store κ σ}, a.Runs c d → a.outer.size = depth →
    depth < env.config.maxFrames → Mirrors env S c β m st → m.stack = a.below ++ vs →
    vs.size = d.params.length → List.Forall₂ (Value.Matches β) vs.toList ws →
    Follows env S c (Returned env S c a β st.locals) (a.frames 0) m (apply d ws st)

/-! ## Calls by instructions -/

section Instruction

variable {env : Environment κ σ} {S : Setting κ σ} {c : Image κ} {a : Activation κ}
  {apply : FnDecl → List Value → Eval κ σ Value} {Γ : List SymbolId} {temps vs : Array Value}
  {m : Memory κ σ} {st : Store κ σ} {p n : Nat} {v w : Value} {ws : List Value} {count : UInt8}

namespace Stands

/-- A callee and its arguments on the stack, and the state without them. -/
theorem callee (h : Stands env S c a β Γ (temps.push v ++ vs) m st) :
    ∃ rest, m.stack = rest.push v ++ vs ∧
      Stands env S c a β Γ temps { m with stack := rest } st := by
  obtain ⟨values, hstack, hlocals⟩ := h.stack
  refine ⟨a.below ++ values ++ temps, ?_, h.mirrors.withStack _, values, rfl, hlocals⟩
  rw [hstack, Array.push_eq_append, Array.push_eq_append]
  simp only [Array.append_assoc]

/-- Native code is called on either side, and its result takes the place of callee
and arguments. -/
theorem nativeCalled (ha : a.Of c) (hS : S.Suits env c) {i : Instruction}
    (hi : a.site.Holds p n i) {code : κ} {args args' : List Value}
    (hperform : perform env (a.frameAt (p + i.length)) i m =
      ScriptMachine.nativeCalled env m (vs.size + 1) code args)
    (hargs : List.Forall₂ (Value.Matches β) args args')
    (h : Stands env S c a β Γ (temps.push v ++ vs) m st) :
    Follows env S c (Pushed env S c a β Γ (p + i.length) temps) (a.frames p) m
      (Eval.callNative S.call code args' st) := by
  obtain ⟨rest, hstack, hrest⟩ := h.callee
  obtain ⟨hhost, γ, hle, hheap, hresult⟩ := hS.call code m.host h.mirrors.heap hargs
  have hevolves := hS.keeps h.evolves code args m.host
  rw [Eval.callNative_apply, ← h.mirrors.host]
  unfold ScriptMachine.nativeCalled at hperform
  generalize env.call code args (m.heap, m.host) = outcome at hperform hhost hheap hresult hevolves
  generalize S.call code args' (st.heap, m.host) = outcome' at hhost hheap hresult ⊢
  obtain ⟨result, heap, host⟩ := outcome
  obtain ⟨result', heap', host'⟩ := outcome'
  have hmirrors : Mirrors env S c γ { m with heap, host }
      { st with heap := heap', host := host' } := h.mirrors.withHeap hle hheap hevolves hhost
  cases hresult with
  | error message => exact .fault ha h.evolves hi hperform hmirrors
  | ok hvw =>
    dsimp only at hperform
    rw [hstack, shrink_callee] at hperform
    refine .placed ha h.evolves hi hperform (.pure (.mk hle hvw ?_))
    exact (hrest.withMirrors hle (hmirrors.withStack rest) rfl rfl).push _

/-- A function of the program is entered with the arguments on the stack, and goes
on as the evaluation does. -/
theorem entered (ha : a.Of c) (hS : S.Suits env c)
    (happlies : Applies env S c apply (a.outer.size + 1)) (hi : a.site.Holds p n ⟨.call, count, 0⟩)
    (h : Stands env S c a β Γ (temps.push v ++ vs) m st) {handle : Handle} {f g : Function}
    (hget : m.heap.get handle = .ok (.function f)) (hfg : c.Declares β f g)
    (hperform : perform env (a.frameAt (p + 2)) ⟨.call, count, 0⟩ m =
      if f.arity ≠ vs.size then .error (.arity f.name f.arity vs.size) m
      else .ok (.enter handle f vs.size) m)
    (hargs : List.Forall₂ (Value.Matches β) vs.toList ws) :
    Follows env S c (Pushed env S c a β Γ (p + 2) temps) (a.frames p) m
      (Eval.callObject S apply ws (.function g) st) := by
  obtain ⟨rest, hstack, hrest⟩ := h.callee
  obtain ⟨d, hd, rfl, hname, harity, height, hcode⟩ := hfg
  have hlength : ws.length = vs.size := by rw [← hargs.length_eq, Array.length_toList]
  rw [Eval.callObject, Eval.checkArity_bind, hS.find d hd, hlength]
  rw [harity, hname] at hperform
  split at hperform
  · next hne =>
    rw [if_pos hne]
    exact .fault ha h.evolves hi hperform h.mirrors
  · next heq =>
    rw [if_neg heq]
    rw [not_not] at heq
    -- The arguments are the first locals of the function, the callee lies below them.
    let callee : Activation κ :=
      ⟨c.site f.chunk height, a.frames (p + 2), ⟨handle, f, (rest.push v).size, 0⟩, rest.push v⟩
    have hsize : m.stack.size - vs.size = (rest.push v).size := by
      rw [hstack, Array.size_append, Nat.add_sub_cancel]
    have hexecute : execute env (a.frames p) m =
        if env.config.maxFrames ≤ a.outer.size + 1 then
          .faulted .stackOverflow (a.frames (p + 2)) m
        else .running (callee.frames 0) m := by
      rw [Activation.execute_eq ha h.evolves hi]
      show a.after env.config (p + 2) (perform env (a.frameAt (p + 2)) _ m) = _
      rw [hperform]
      simp only [Activation.after, transfer, hsize]
      rfl
    split at hexecute
    · exact .overflows ⟨_, _, .refl, hexecute⟩
    · next hroom =>
      have hruns : callee.Runs c d :=
        ⟨⟨rfl, rfl, rfl, h.evolves.function hget, rfl⟩, hcode, Array.push_ne_empty,
          Array.push_ne_empty⟩
      refine .head hexecute (.mono (happlies hruns ?_ (Nat.lt_of_not_le hroom) h.mirrors hstack
        heq.symm hargs) fun hreturned => ?_)
      · exact Array.size_push _
      · cases hreturned with
        | @mk _ result _ _ _ hle hvw hmirrors hstack' hlocals =>
          have hreturn :=
            (hrest.withMirrors hle (hmirrors.withStack rest) rfl hlocals).push result
          have hpop : callee.below.pop = rest := Array.pop_push
          rw [hpop] at hstack'
          dsimp only at hreturn
          rw [← hstack'] at hreturn
          exact .mk hle hvw hreturn

/-- A call of any value follows the call by the evaluation. -/
theorem call (ha : a.Of c) (hS : S.Suits env c)
    (happlies : Applies env S c apply (a.outer.size + 1)) (hcount : count.toNat = vs.size)
    (hi : a.site.Holds p n ⟨.call, count, 0⟩) (hvw : Value.Matches β v w)
    (hargs : List.Forall₂ (Value.Matches β) vs.toList ws)
    (h : Stands env S c a β Γ (temps.push v ++ vs) m st) :
    Follows env S c (Pushed env S c a β Γ (p + 2) temps) (a.frames p) m
      (Eval.callValue S apply w ws st) := by
  obtain ⟨rest, hstack, -⟩ := h.callee
  have hlength : ws.length = vs.size := by rw [← hargs.length_eq, Array.length_toList]
  have hcalled : perform env (a.frameAt (p + 2)) ⟨.call, count, 0⟩ m = called env m vs.size v := by
    have hcallee : m.stack[m.stack.size - (count.toNat + 1)]? = some v := by
      rw [hstack, hcount, getElem?_callee]
    have hroom : count.toNat < m.stack.size := by
      rw [hstack, hcount, Array.size_append, Array.size_push]
      omega
    rw [perform_call hroom hcallee, hcount]
  -- What is no object has no code.
  have hplain : ∀ {t}, called env m vs.size v = .error (.notCallable t) m →
      Follows env S c (Pushed env S c a β Γ (p + 2) temps) (a.frames p) m
        (.error (.fault (.notCallable t)) st) :=
    fun hfault => .fault ha h.evolves hi (hcalled.trans hfault) h.mirrors
  cases hvw with
  | null => exact hplain rfl
  | bool b => exact hplain rfl
  | number x => exact hplain rfl
  | @object handle handle' hhandle =>
    obtain ⟨x, y, hx, hy, hxy⟩ := h.mirrors.heap.objects hhandle
    rw [Eval.callValue_object hy]
    simp only [called, hx] at hcalled hplain
    cases hxy with
    | list hitems => exact hplain rfl
    | string text => exact hplain rfl
    | function hfg => exact entered ha hS happlies hi h hx hfg hcalled hargs
    | native native =>
      dsimp only at hcalled
      rw [Eval.callObject, Eval.checkArity_bind, hlength]
      by_cases harity : native.arity = vs.size
      · rw [if_neg (not_not.2 harity)] at hcalled ⊢
        have hvs : m.stack.extract (m.stack.size - vs.size) m.stack.size = vs := by
          rw [hstack, extract_args]
        rw [hvs] at hcalled
        exact nativeCalled ha hS hi hcalled hargs h
      · rw [if_pos harity] at hcalled ⊢
        exact .fault ha h.evolves hi hcalled h.mirrors

/-- A call of a method follows the call by the evaluation. -/
theorem invoke (ha : a.Of c) (hS : S.Suits env c) {index : UInt8} {name : String}
    (hcount : count.toNat = vs.size) (hname : a.site.Names index name)
    (hi : a.site.Holds p n ⟨.invoke, index, count⟩) (hvw : Value.Matches β v w)
    (hargs : List.Forall₂ (Value.Matches β) vs.toList ws)
    (h : Stands env S c a β Γ (temps.push v ++ vs) m st) :
    Follows env S c (Pushed env S c a β Γ (p + 3) temps) (a.frames p) m
      (Eval.invoke S name w ws st) := by
  obtain ⟨rest, hstack, -⟩ := h.callee
  have hlength : ws.length = vs.size := by rw [← hargs.length_eq, Array.length_toList]
  have hinvoked : perform env (a.frameAt (p + 3)) ⟨.invoke, index, count⟩ m =
      invoked env m vs.size name v := by
    obtain ⟨handle, hconstant, hstring⟩ := hname
    rw [ha.chunk] at hconstant
    rw [ha.heap] at hstring
    have hreceiver : m.stack[m.stack.size - (count.toNat + 1)]? = some v := by
      rw [hstack, hcount, getElem?_callee]
    have hroom : count.toNat < m.stack.size := by
      rw [hstack, hcount, Array.size_append, Array.size_push]
      omega
    have hheld : m.heap.get handle = .ok (.string name) :=
      h.evolves.get hstring (by simp [Object.kind])
    rw [← hcount]
    exact perform_invoke hconstant hheld hroom hreceiver
  have hmethod := h.mirrors.heap.method h.mirrors.methods name hvw
  rw [Eval.invoke_apply, hlength]
  unfold invoked at hinvoked
  generalize m.heap.method env.methods name v = method at hmethod hinvoked
  generalize st.heap.method S.methods name w = method' at hmethod
  cases hmethod with
  | error fault => exact .fault ha h.evolves hi hinvoked h.mirrors
  | @ok native native' heq =>
    obtain rfl := heq
    dsimp only at hinvoked ⊢
    by_cases harity : native.arity = vs.size
    · rw [if_neg (not_not.2 harity)] at hinvoked ⊢
      rw [hstack, extract_receiver_args] at hinvoked
      exact nativeCalled ha hS hi hinvoked (.cons hvw hargs) h
    · rw [if_pos harity] at hinvoked ⊢
      exact .fault ha h.evolves hi hinvoked h.mirrors

end Stands

end Instruction

end ScriptMachine
