import ScriptMachine.Proofs.Machine.Frames

/-!
# Calls and their returns

A call leaves the stack below its frame alone until it returns, and returning
puts the result in the place of the callee and its arguments
(`Sound.inside`, `Sound.step_return`). `Inside` follows a run for as long as a
call is in progress; `Above` says how the frames look meanwhile.
-/

namespace ScriptMachine

variable {κ σ : Type}

/-- The states that a run goes through while more than `depth` frames are
active. -/
inductive Inside (env : Environment κ σ) (depth : Nat) (frames : Array Frame) (m : Memory κ σ) :
    Array Frame → Memory κ σ → Prop
  | refl : Inside env depth frames m frames m
  | tail {frames₁ frames₂ : Array Frame} {m₁ m₂ : Memory κ σ}
      (h : Inside env depth frames m frames₁ m₁)
      (hstep : stepReading env frames₁ m₁ = .running frames₂ m₂) (hdepth : depth < frames₂.size) :
      Inside env depth frames m frames₂ m₂

/-- Frames that consist of the callers `outer`, a frame at `base`, and frames
further up. -/
inductive Above (outer : Array Frame) (base : Nat) : Array Frame → Prop
  | callee {frame : Frame} (h : frame.base = base) : Above outer base (outer.push frame)
  | push {frames : Array Frame} {frame : Frame} (h : Above outer base frames)
      (hbase : base < frame.base) : Above outer base (frames.push frame)

section Above

variable {outer frames : Array Frame} {base : Nat} {frame : Frame}

theorem Above.inv (h : Above outer base (frames.push frame)) :
    (frames = outer ∧ frame.base = base) ∨ (Above outer base frames ∧ base < frame.base) := by
  generalize hpush : frames.push frame = all at h
  cases h with
  | callee h =>
    obtain ⟨rfl, rfl⟩ := Array.push_eq_push.1 hpush
    exact .inl ⟨rfl, h⟩
  | push h hbase =>
    obtain ⟨rfl, rfl⟩ := Array.push_eq_push.1 hpush
    exact .inr ⟨h, hbase⟩

theorem Above.base_le (h : Above outer base (frames.push frame)) : base ≤ frame.base := by
  rcases h.inv with ⟨-, rfl⟩ | ⟨-, hlt⟩
  · exact Nat.le_refl _
  · exact Nat.le_of_lt hlt

theorem Above.withIp (h : Above outer base (frames.push frame)) (ip : Nat) :
    Above outer base (frames.push { frame with ip }) := by
  rcases h.inv with ⟨rfl, hbase⟩ | ⟨h, hbase⟩
  · exact .callee hbase
  · exact .push h hbase

theorem Above.size_lt (h : Above outer base frames) : outer.size < frames.size := by
  induction h with
  | callee _ => simp
  | push _ _ ih =>
    rw [Array.size_push]
    omega

end Above

/-! ## What a return leaves -/

section Return

variable {base : Nat} {stack : Array Value}

theorem stack_returnTo (m : Memory κ σ) (base : Nat) (value : Value) :
    (m.returnTo base value).stack =
      (m.stack.shrink base).setIfInBounds ((m.stack.shrink base).size - 1) value := rfl

theorem SameBelow.returned {m : Memory κ σ} (hsize : base ≤ m.stack.size) {low : Nat}
    (hlow : low < base) (value : Value) :
    SameBelow low m.stack (m.returnTo base value).stack := by
  rw [stack_returnTo, Array.size_shrink, Nat.min_eq_left hsize]
  exact (SameBelow.shrink (by omega)).trans (.set (by omega) value)

/-- The result stands on what lay below the callee. -/
theorem returned_eq {m : Memory κ σ} (hpos : 0 < base) (hsize : base ≤ m.stack.size)
    (hstack : base ≤ stack.size) (hbelow : SameBelow base stack m.stack) (value : Value) :
    (m.returnTo base value).stack = (stack.extract 0 (base - 1)).push value := by
  have hshrunk : (m.stack.shrink base).size = base := by
    rw [Array.size_shrink, Nat.min_eq_left hsize]
  rw [stack_returnTo, hshrunk]
  refine Array.ext_getElem? fun i => ?_
  have hprefix : (stack.extract 0 (base - 1)).size = base - 1 := by
    rw [Array.size_extract]
    omega
  rw [Array.getElem?_push, hprefix]
  by_cases hi : i = base - 1
  · rw [if_pos hi, hi, Array.getElem?_setIfInBounds_self_of_lt (by omega)]
  · rw [if_neg hi, Array.getElem?_setIfInBounds_ne (by omega), getElem?_shrink,
      Array.getElem?_extract]
    by_cases hlt : i < base - 1
    · rw [if_pos (by omega), if_pos (by omega), Nat.zero_add]
      exact hbelow i (by omega)
    · rw [if_neg (by omega), if_neg (by omega)]

end Return

/-! ## Calls in progress -/

namespace Sound

variable {code : Site κ → Function → Prop} {globals base : Nat} {env : Environment κ σ}
  {outer frames₁ frames₂ : Array Frame} {m₁ m₂ : Memory κ σ}

/-- A step that goes on moves the innermost frame; a collection behind it does not touch the
stack. -/
theorem exists_moved (h : Sound code globals env frames₁ m₁)
    (hstep : stepReading env frames₁ m₁ = .running frames₂ m₂) :
    ∃ (callers : Array Frame) (frame : Frame) (k : Site κ) (m' : Memory κ σ),
      frames₁ = callers.push frame ∧ m₂.stack = m'.stack ∧
        Moved k env callers frame m₁ (.running frames₂ m') := by
  rw [h.held.stepReading_eq] at hstep
  obtain ⟨m', hexecute, rfl⟩ := step_eq_running hstep
  obtain ⟨callers, frame, rfl⟩ := Array.exists_push_of_ne_empty h.active
  obtain ⟨k, -, -, -, hmoved⟩ := h.moved
  rw [execute_push] at hexecute
  rw [hexecute] at hmoved
  exact ⟨callers, frame, k.on m₁.heap, m', rfl, Memory.stack_collectIfDue .., hmoved⟩

/-- A step while a call is in progress leaves alone what lies below the frame of
the call, unless it is the return. -/
theorem step_above (h : Sound code globals env frames₁ m₁) (habove : Above outer base frames₁)
    (hstep : stepReading env frames₁ m₁ = .running frames₂ m₂)
    (hdepth : outer.size < frames₂.size) :
    Above outer base frames₂ ∧ SameBelow base m₁.stack m₂.stack := by
  obtain ⟨callers, frame, k, m', rfl, hafter, hmoved⟩ := h.exists_moved hstep
  rw [hafter]
  cases hmoved with
  | stays _ _ hbelow => exact ⟨habove.withIp _, hbelow.mono habove.base_le⟩
  | enters _ hpos _ _ _ =>
    have hle := habove.base_le
    exact ⟨.push (habove.withIp _) (by dsimp only; omega), .refl _ _⟩
  | leaves _ hstack hsize =>
    -- It is not the frame of the call that returns, but one further up.
    rcases habove.inv with ⟨rfl, -⟩ | ⟨habove', hbase⟩
    · exact absurd hdepth (Nat.lt_irrefl _)
    · refine ⟨habove', ?_⟩
      rw [hstack]
      refine (SameBelow.of_push (by omega) _).trans ?_
      exact .returned hsize hbase _

/-- The return from a call: the callers go on, with the result on what lay below
the callee. -/
theorem step_return (h : Sound code globals env frames₁ m₁) (habove : Above outer base frames₁)
    (hstep : stepReading env frames₁ m₁ = .running frames₂ m₂)
    (hdepth : frames₂.size ≤ outer.size) {stack : Array Value} (hstack : base ≤ stack.size)
    (hbelow : SameBelow base stack m₁.stack) :
    frames₂ = outer ∧ ∃ result, m₁.stack.back? = some result ∧
      m₂.stack = (stack.extract 0 (base - 1)).push result := by
  obtain ⟨callers, frame, k, m', rfl, hafter, hmoved⟩ := h.exists_moved hstep
  obtain ⟨n, -, hlinked, -, -⟩ := h.linked.inv
  rw [hafter]
  cases hmoved with
  | stays => exact absurd hdepth (Nat.not_le.2 (habove.withIp _).size_lt)
  | enters =>
    have hlt := (habove.withIp 0).size_lt
    simp only [Array.size_push] at hlt hdepth
    omega
  | @leaves value rest _ hpushed hsize =>
    rcases habove.inv with ⟨rfl, rfl⟩ | ⟨habove', -⟩
    · refine ⟨rfl, value, by rw [hpushed, Array.back?_push], ?_⟩
      have hrest : SameBelow frame.base stack rest := by
        rw [hpushed] at hbelow
        exact hbelow.trans (.of_push hsize value)
      exact returned_eq hlinked.base_pos hsize hstack hrest value
    · exact absurd hdepth (Nat.not_le.2 habove'.size_lt)

/-- All states while a call is in progress. -/
theorem inside {m : Memory κ σ} {frames : Array Frame} (h : Sound code globals env frames m)
    (habove : Above outer base frames) (hinside : Inside env outer.size frames m frames₂ m₂) :
    Sound code globals env frames₂ m₂ ∧ Above outer base frames₂ ∧
      SameBelow base m.stack m₂.stack := by
  induction hinside with
  | refl => exact ⟨h, habove, .refl _ _⟩
  | tail _ hstep hdepth ih =>
    obtain ⟨hsound, habove', hbelow⟩ := ih
    obtain ⟨habove'', hbelow'⟩ := hsound.step_above habove' hstep hdepth
    exact ⟨hsound.step hstep, habove'', hbelow.trans hbelow'⟩

/-- The step that makes a call. The callee lies below its arguments, and nothing
else happens to the stack. -/
theorem step_enter {frames : Array Frame} {callee : Frame} {m : Memory κ σ}
    (h : Sound code globals env frames m)
    (hstep : stepReading env frames m = .running (outer.push callee) m₁)
    (hdeeper : outer.size = frames.size) :
    0 < callee.base ∧ m.stack.size = callee.base + callee.function.arity ∧
      m.stack[callee.base - 1]? = some (.object callee.handle) ∧ m₁.stack = m.stack := by
  obtain ⟨callers, frame, k, m', rfl, hafter, hmoved⟩ := h.exists_moved hstep
  rw [hafter]
  generalize hframes : outer.push callee = frames' at hmoved
  have hsizes := congrArg Array.size hframes
  simp only [Array.size_push] at hsizes hdeeper
  cases hmoved with
  | stays =>
    rw [Array.size_push] at hsizes
    omega
  | enters _ hpos hsize hcallee _ =>
    obtain ⟨rfl, rfl⟩ := Array.push_eq_push.1 hframes
    exact ⟨by dsimp only; omega, hsize, hcallee, rfl⟩
  | leaves => omega

end Sound

end ScriptMachine
