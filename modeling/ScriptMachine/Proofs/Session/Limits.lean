import ScriptMachine.Proofs.Session.Termination

/-!
# Limits

The limits on frames and on the stack decide nothing but whether a run overflows. Where an
instruction does not overflow under the smaller limits, it does the same under the larger
ones (`Relaxes.perform`), and so does a step (`Environment.Relaxed.step`). So a run that
does not end in an overflow ends in the same way under all larger limits
(`limits_only_overflow`), whatever the code, the heap and the native functions are.
-/

namespace ScriptMachine

variable {κ σ α β : Type}

/-- The environment `env'` has room for more frames and for a larger stack than `env`, and is
the same otherwise. -/
structure Environment.Relaxed (env env' : Environment κ σ) : Prop where
  maxFrames : env.config.maxFrames ≤ env'.config.maxFrames
  maxStack : env.config.maxStack ≤ env'.config.maxStack
  policy : env'.config.policy = env.config.policy
  methods : env'.methods = env.methods
  call : env'.call = env.call

/-! ## Instructions -/

/-- The computation `y` does what `x` does, unless that overflows the stack. -/
def Relaxes (x y : Act κ σ α) : Prop :=
  ∀ m, (∃ m', x m = .error .stackOverflow m') ∨ y m = x m

namespace Relaxes

theorem refl (x : Act κ σ α) : Relaxes x x := fun _ => .inr rfl

theorem bind {x y : Act κ σ α} {k l : α → Act κ σ β} (hxy : Relaxes x y)
    (hkl : ∀ a, Relaxes (k a) (l a)) : Relaxes (x >>= k) (y >>= l) := by
  intro m
  rw [act_bind, act_bind]
  rcases hxy m with ⟨m', hoverflow⟩ | hsame
  · rw [hoverflow]
    exact .inl ⟨m', rfl⟩
  · rw [hsame]
    cases x m with
    | ok a m' => exact hkl a m'
    | error fault m' => exact .inr rfl

section Environment

variable {env env' : Environment κ σ} (henv : env.Relaxed env')

include henv

theorem push (value : Value) :
    Relaxes (κ := κ) (σ := σ) (push env.config value) (push env'.config value) := by
  intro m
  have hmore := henv.maxStack
  rw [push_apply, push_apply]
  split
  · exact .inl ⟨m, rfl⟩
  · exact .inr (if_neg (by omega))

/-- Most instructions end by pushing a value. -/
theorem push_next (value : Value) :
    Relaxes (κ := κ) (σ := σ) (do ScriptMachine.push env.config value; return Transfer.next)
      (do ScriptMachine.push env'.config value; return Transfer.next) :=
  (push henv value).bind fun _ => refl _

theorem numericBinary (op : Float → Float → Value) :
    Relaxes (κ := κ) (σ := σ) (numericBinary env.config op) (numericBinary env'.config op) := by
  refine (refl _).bind fun right => (refl _).bind fun left => ?_
  split
  · exact push henv _
  · exact refl _

theorem callNative (code : κ) (popped argc : Nat) :
    Relaxes (callNative env code popped argc) (callNative env' code popped argc) := by
  unfold ScriptMachine.callNative
  rw [henv.call]
  refine (refl _).bind fun result => ?_
  split
  · exact (refl _).bind fun _ => push henv _
  · exact refl _

theorem callValue (argc : Nat) : Relaxes (callValue env argc) (callValue env' argc) := by
  refine (refl _).bind fun callee => ?_
  split
  · refine (refl _).bind fun m => (refl _).bind fun object => ?_
    split
    · exact refl _
    · exact (refl _).bind fun _ => (callNative henv _ _ _).bind fun _ => refl _
    · exact refl _
  · exact refl _

theorem invoke (name : Value) (argc : Nat) :
    Relaxes (invoke env name argc) (invoke env' name argc) := by
  have hfind : findMethod env' = findMethod env := by
    unfold findMethod
    rw [henv.methods]
  unfold ScriptMachine.invoke
  rw [hfind]
  split
  · refine (refl _).bind fun m => (refl _).bind fun text => (refl _).bind fun receiver => ?_
    refine (refl _).bind fun method => (refl _).bind fun m => (refl _).bind fun native => ?_
    exact (refl _).bind fun _ => callNative henv _ _ _
  · exact refl _

theorem perform (frame : Frame) (i : Instruction) :
    Relaxes (perform env frame i) (perform env' frame i) := by
  unfold ScriptMachine.perform
  cases i.opcode with
  | pop | popN | setLocal | setGlobal | jump | jumpIfFalse | jumpIfTrue | ret | print =>
    exact refl _
  | loadNull | loadTrue | loadFalse => exact push_next henv _
  | constant => exact (refl _).bind fun _ => push_next henv _
  | equal | notEqual => exact (refl _).bind fun _ => (refl _).bind fun _ => push_next henv _
  | getLocal | getGlobal =>
    refine (refl _).bind fun m => ?_
    dsimp only
    split
    · exact push_next henv _
    · exact refl _
  | negate | invert =>
    refine (refl _).bind fun value => ?_
    dsimp only
    split
    · exact push_next henv _
    · exact refl _
  | makeList => exact (refl _).bind fun _ => (refl _).bind fun _ => push_next henv _
  | getIndex =>
    exact (refl _).bind fun _ => (refl _).bind fun _ => (refl _).bind fun _ => push_next henv _
  | setIndex =>
    exact (refl _).bind fun _ => (refl _).bind fun _ => (refl _).bind fun _ =>
      (refl _).bind fun _ => push_next henv _
  | call => exact callValue henv _
  | invoke => exact (refl _).bind fun _ => (invoke henv _ _).bind fun _ => refl _
  | _ => exact (numericBinary henv _).bind fun _ => refl _

end Environment

end Relaxes

/-! ## Steps and runs -/

namespace Environment.Relaxed

variable {env env' : Environment κ σ} {frames frames' : Array Frame} {m m' : Memory κ σ}

/-- A transfer has room where it had some under smaller limits. -/
theorem transfer (h : env.Relaxed env') (outer : Array Frame) (frame : Frame) (m : Memory κ σ)
    (t : Transfer) :
    transfer env.config outer frame m t = .faulted .stackOverflow (outer.push frame) m ∨
      transfer env'.config outer frame m t = transfer env.config outer frame m t := by
  cases t with
  | next | jump | leave => exact .inr rfl
  | enter handle function argc =>
    have hmore := h.maxFrames
    simp only [ScriptMachine.transfer]
    split
    · exact .inl rfl
    · exact .inr (if_neg (by omega))

theorem collectIfDue (h : env.Relaxed env') (m : Memory κ σ) (frames : Array Frame) :
    m.collectIfDue env' frames = m.collectIfDue env frames := by
  unfold Memory.collectIfDue
  rw [h.policy, h.methods]

theorem executeIn (h : env.Relaxed env') (outer : Array Frame) (frame : Frame)
    (m : Memory κ σ) :
    (∃ frames' m', executeIn env outer frame m = .faulted .stackOverflow frames' m') ∨
      executeIn env' outer frame m = executeIn env outer frame m := by
  unfold ScriptMachine.executeIn
  cases m.heap.function frame.handle with
  | error fault => exact .inr rfl
  | ok function =>
    dsimp only
    cases frame.function.chunk.fetch frame.ip with
    | fault fault ip => exact .inr rfl
    | instruction i ip =>
      dsimp only
      rcases Relaxes.perform h { frame with ip } i m with ⟨m', hoverflow⟩ | hsame
      · rw [hoverflow]
        exact .inl ⟨_, m', rfl⟩
      · rw [hsame]
        cases perform env { frame with ip } i m with
        | error fault m' => exact .inr rfl
        | ok t m' =>
          rcases h.transfer outer { frame with ip } m' t with hoverflow | hsame
          · exact .inl ⟨_, m', hoverflow⟩
          · exact .inr hsame

/-- A step that does not overflow is the same under larger limits. -/
theorem step (h : env.Relaxed env') (frames : Array Frame) (m : Memory κ σ) :
    (∃ frames' m', step env frames m = .faulted .stackOverflow frames' m') ∨
      step env' frames m = step env frames m := by
  have hexecute : (∃ frames' m', execute env frames m = .faulted .stackOverflow frames' m') ∨
      execute env' frames m = execute env frames m := by
    unfold execute
    cases frames.back? with
    | none => exact .inr rfl
    | some frame => exact h.executeIn frames.pop frame m
  unfold ScriptMachine.step
  rcases hexecute with ⟨frames', m', hoverflow⟩ | hsame
  · rw [hoverflow]
    exact .inl ⟨frames', m', rfl⟩
  · rw [hsame]
    cases execute env frames m with
    | running frames' m' =>
      exact .inr (congrArg (StepResult.running frames') (h.collectIfDue m' frames'))
    | finished m' => exact .inr rfl
    | faulted fault frames' m' => exact .inr rfl

end Environment.Relaxed

section Runs

variable {next next' : Array Frame → Memory κ σ → StepResult κ σ}
  {frames : Array Frame} {m : Memory κ σ}

/-- The outcome of a run is not an overflow. -/
def RunResult.Fits (result : RunResult κ σ) : Prop :=
  ∀ frames m, result ≠ .faulted .stackOverflow frames m

/-- A run that does not overflow goes through the same states if each step that does not
overflow is the same. -/
theorem Ends.of_fits
    (hnext : ∀ frames m, (∃ frames' m', next frames m = .faulted .stackOverflow frames' m') ∨
      next' frames m = next frames m)
    {result : RunResult κ σ} (h : Ends next frames m result) (hfits : result.Fits) :
    Ends next' frames m result := by
  obtain ⟨frames₁, m₁, hsteps, hlast⟩ := h
  refine ⟨frames₁, m₁, ?_, ?_⟩
  · clear hlast
    induction hsteps with
    | refl => exact .refl
    | @tail frames₂ frames₃ m₂ m₃ _ hstep ih =>
      refine ih.tail ?_
      rcases hnext frames₂ m₂ with ⟨frames', m', hoverflow⟩ | hsame
      · rw [hoverflow] at hstep
        cases hstep
      · rw [hsame, hstep]
  · rcases hnext frames₁ m₁ with ⟨frames', m', hoverflow⟩ | hsame
    · cases result with
      | finished m' =>
        rw [hoverflow] at hlast
        cases hlast
      | faulted fault frames m' =>
        rw [hoverflow] at hlast
        cases hlast
        exact absurd rfl (hfits _ _)
    · rw [hsame, hlast]

/-- A run that ends under larger limits has ended before. -/
theorem Ends.exists_of_relaxed
    (hnext : ∀ frames m, (∃ frames' m', next frames m = .faulted .stackOverflow frames' m') ∨
      next' frames m = next frames m)
    {result : RunResult κ σ} (h : Ends next' frames m result) :
    ∃ result', Ends next frames m result' := by
  by_contra hendless
  obtain ⟨frames₁, m₁, hsteps, hlast⟩ := h
  -- No state that the run reaches overflows, so it takes the same steps.
  have hsame : ∀ {frames' m'}, Steps next frames m frames' m' →
    next' frames' m' = next frames' m' := by
    intro frames' m' hsteps
    refine (hnext frames' m').resolve_left ?_
    rintro ⟨frames₂, m₂, hoverflow⟩
    exact hendless ⟨.faulted .stackOverflow frames₂ m₂, frames', m', hsteps, hoverflow⟩
  have hsteps' : Steps next frames m frames₁ m₁ := by
    clear hlast
    induction hsteps with
    | refl => exact .refl
    | tail _ hstep ih => exact ih.tail ((hsame ih).symm.trans hstep)
  exact hendless ⟨result, frames₁, m₁, hsteps', (hsame hsteps').symm.trans hlast⟩

end Runs

/-! ## Scripts -/

/-- A script has not stopped in an overflow. -/
def Fitted (outcome : Except RuntimeError Unit × Memory κ σ) : Prop :=
  ∀ e, outcome.1 = .error e → e.fault.code ≠ "E0404"

theorem RunResult.fits_of_fitted {result : RunResult κ σ} (h : Fitted result.outcome) :
    result.Fits := by
  rintro frames m rfl
  exact h ⟨.stackOverflow, traceOf m.heap frames⟩ rfl rfl

namespace Environment.Relaxed

variable {env env' : Environment κ σ} {script : Handle} {m : Memory κ σ}

theorem stepReading (h : env.Relaxed env') (frames : Array Frame) (m : Memory κ σ) :
    (∃ frames' m', stepReading env frames m = .faulted .stackOverflow frames' m') ∨
      stepReading env' frames m = stepReading env frames m :=
  h.step _ m

theorem runScript (h : env.Relaxed env') (hfitted : Fitted (runScript env script m)) :
    runScript env' script m = runScript env script m := by
  cases hfound : m.heap.function script with
  | error fault =>
    unfold ScriptMachine.runScript
    dsimp only
    rw [hfound]
  | ok function =>
    by_cases hends : ∃ result, Ends (ScriptMachine.stepReading env) #[⟨script, function, 1, 0⟩]
        (m.start script) result
    · obtain ⟨result, hends⟩ := hends
      rw [runScript_eq hfound hends] at hfitted ⊢
      rw [runScript_eq hfound (hends.of_fits h.stepReading (RunResult.fits_of_fitted hfitted))]
    · rw [runScript_endless hfound (not_exists.1 hends), runScript_endless hfound]
      exact fun result hends' => hends (hends'.exists_of_relaxed h.stepReading)

theorem stops (h : env.Relaxed env') {outcome : Except RuntimeError Unit × Memory κ σ}
    (hfitted : Fitted outcome) (hstops : Stops env script m outcome) :
    Stops env' script m outcome := by
  cases hstops with
  | missing hfound => exact .missing hfound
  | ended hfound hends =>
    exact .ended hfound (hends.of_fits h.stepReading (RunResult.fits_of_fitted hfitted))

end Environment.Relaxed

/-- **Limits only matter where they are reached.** A script that does not stop with `E0404`
under some limits ends under all larger ones with the same result and trace and the same
memory: output, globals and heap. This holds whatever the code of the script and the native
functions are, also where these change the code of functions; and if the script comes to
an end, it does so under larger limits. -/
theorem limits_only_overflow (methods : MethodTable) (call : NativeCall κ σ)
    (policy : CollectPolicy) {maxFrames maxFrames' maxStack maxStack' : Nat}
    (hframes : maxFrames ≤ maxFrames') (hstack : maxStack ≤ maxStack') (script : Handle)
    (m : Memory κ σ) :
    let env : Environment κ σ := ⟨⟨maxFrames, maxStack, policy⟩, methods, call⟩
    let env' : Environment κ σ := ⟨⟨maxFrames', maxStack', policy⟩, methods, call⟩
    (Fitted (runScript env script m) → runScript env' script m = runScript env script m) ∧
      ∀ outcome, Fitted outcome → Stops env script m outcome → Stops env' script m outcome := by
  intro env env'
  have hrelaxed : env.Relaxed env' := ⟨hframes, hstack, rfl, rfl, rfl⟩
  exact ⟨hrelaxed.runScript, fun outcome hfitted => hrelaxed.stops hfitted⟩

/-- The theorem applies: a script that calls a function has just the frames and the stack that
it needs, and a machine with more room runs it alike. -/
theorem limits_only_overflow_demo :
    let f : Function := ⟨"f", 0, { code := #[Opcode.loadNull.toByte, Opcode.ret.toByte] }⟩
    let made := ({} : Heap Empty).alloc (.function f)
    let code := #[Opcode.constant.toByte, 0, Opcode.call.toByte, 0, Opcode.ret.toByte]
    let main : Function := ⟨"script", 0, { code, constants := #[.object made.1] }⟩
    let loaded := made.2.alloc (.function main)
    let m : Memory Empty Unit := { heap := loaded.2, collectAt := 0, host := () }
    let env (maxFrames maxStack : Nat) : Environment Empty Unit :=
      ⟨⟨maxFrames, maxStack, .always⟩, [], fun code => nomatch code⟩
    Fitted (runScript (env 2 3) loaded.1 m) ∧
      runScript (env 5 1280) loaded.1 m = runScript (env 2 3) loaded.1 m := by
  intro f made code main loaded m env
  have hfitted : Fitted (runScript (env 2 3) loaded.1 m) := by
    have hend : (endWithin (stepReading (env 2 3)) 9 #[⟨loaded.1, main, 1, 0⟩]
        (m.start loaded.1)).any (fun result => result.outcome.1.isOk) = true := by decide +kernel
    obtain ⟨result, hresult, hok⟩ := (Option.any_eq_true _ _).1 hend
    have hfound : m.heap.function loaded.1 = .ok main := rfl
    rw [runScript_eq hfound (ends_of_endWithin hresult)]
    intro e he
    rw [he] at hok
    cases hok
  exact ⟨hfitted, (limits_only_overflow [] (fun code => nomatch code) .always (by decide)
    (by decide) loaded.1 m).1 hfitted⟩

end ScriptMachine
