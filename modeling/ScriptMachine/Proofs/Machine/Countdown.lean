import ScriptMachine.Machine.Run

/-!
# Counting down to the end of a run

A stack of counters, the outermost first, descends when one of them is lowered,
whatever happens to those behind it, or when counters are dropped from its end.
As long as their number is bounded, this cannot go on forever
(`Countdown.wellFounded`).

A step makes the counters of a run descend (`shortens_of_step`): code only runs
forward, so the code that a frame has before it shrinks, a call makes that of the
caller shrink before it adds a frame, a return drops a frame, and the number of
frames is bounded.
-/

namespace ScriptMachine

variable {κ σ : Type}

/-- `Descends n xs ys` says that the counters `ys`, of which the first `n` count,
have descended to `xs`. -/
def Descends : Nat → List Nat → List Nat → Prop
  | 0, _, _ => False
  | _ + 1, _, [] => False
  | _ + 1, [], _ :: _ => True
  | n + 1, x :: xs, y :: ys => x < y ∨ x = y ∧ Descends n xs ys

theorem acc_nil_descends (n : Nat) : Acc (Descends n) [] := by
  refine ⟨_, fun xs h => ?_⟩
  cases n <;> cases h

theorem acc_cons_descends {n : Nat} (wf : ∀ ys, Acc (Descends n) ys) (y : Nat) (ys : List Nat) :
    Acc (Descends (n + 1)) (y :: ys) := by
  induction y using Nat.strongRecOn generalizing ys with
  | _ y outer =>
    induction wf ys with
    | _ ys _ inner =>
      refine ⟨_, fun xs h => ?_⟩
      cases xs with
      | nil => exact acc_nil_descends _
      | cons x xs =>
        rcases h with lower | ⟨rfl, behind⟩
        · exact outer x lower xs
        · exact inner xs behind

theorem acc_descends (n : Nat) (ys : List Nat) : Acc (Descends n) ys := by
  induction n generalizing ys with
  | zero => exact ⟨_, fun _ h => h.elim⟩
  | succ n ih =>
    cases ys with
    | nil => exact acc_nil_descends _
    | cons y ys => exact acc_cons_descends ih y ys

/-- Lowering the last counter, whatever is put behind it. -/
theorem descends_of_lower {n : Nat} (xs : List Nat) {y z : Nat} (ys : List Nat)
    (room : xs.length < n) (h : y < z) : Descends n (xs ++ y :: ys) (xs ++ [z]) := by
  induction xs generalizing n with
  | nil =>
    obtain ⟨n, rfl⟩ : ∃ m, n = m + 1 := ⟨n - 1, by simp at room; omega⟩
    exact .inl h
  | cons x xs ih =>
    obtain ⟨n, rfl⟩ : ∃ m, n = m + 1 := ⟨n - 1, by simp at room; omega⟩
    exact .inr ⟨rfl, ih (by simpa using room)⟩

/-- Dropping the last counter. -/
theorem descends_of_drop {n : Nat} (xs : List Nat) (z : Nat) (room : xs.length < n) :
    Descends n xs (xs ++ [z]) := by
  induction xs generalizing n with
  | nil =>
    obtain ⟨n, rfl⟩ : ∃ m, n = m + 1 := ⟨n - 1, by simp at room; omega⟩
    exact trivial
  | cons x xs ih =>
    obtain ⟨n, rfl⟩ : ∃ m, n = m + 1 := ⟨n - 1, by simp at room; omega⟩
    exact .inr ⟨rfl, ih (by simpa using room)⟩

/-- Counters of which the first `n` count. -/
structure Countdown (n : Nat) where
  counters : List Nat

instance Countdown.wellFounded (n : Nat) : WellFoundedRelation (Countdown n) where
  rel a b := Descends n a.counters b.counters
  wf := InvImage.wf Countdown.counters ⟨acc_descends n⟩

/-! ## What frames have before them -/

/-- The code bytes that a frame has still before it. -/
def Frame.remaining (frame : Frame) : Nat := frame.function.chunk.code.size - frame.ip

/-- How many frames there can be: even without room for calls, the outermost
function runs. -/
def Config.frameBound (config : Config) : Nat := max 1 config.maxFrames

/-- What the frames have still before them, from the outermost. -/
def countdown (config : Config) (frames : Array Frame) : Countdown config.frameBound :=
  ⟨frames.toList.map Frame.remaining⟩

/-- Going on from `frames` with `next` brings a run nearer to its end. -/
def Shortens (config : Config) (next frames : Array Frame) : Prop :=
  next.size ≤ config.frameBound ∧
    Descends config.frameBound (countdown config next).counters (countdown config frames).counters

theorem shortens_of_advance {config : Config} {outer : Array Frame} {frame : Frame} {ip : Nat}
    (room : outer.size < config.frameBound)
    (less : frame.function.chunk.code.size - ip < frame.remaining) :
    Shortens config (outer.push { frame with ip }) (outer.push frame) := by
  refine ⟨by simpa using Nat.succ_le_of_lt room, ?_⟩
  simp only [countdown, Array.toList_push, List.map_append, List.map_cons, List.map_nil]
  exact descends_of_lower _ [] (by simpa using room) less

theorem shortens_of_enter {config : Config} {outer : Array Frame} {frame inner : Frame} {ip : Nat}
    (room : outer.size + 1 < config.frameBound)
    (less : frame.function.chunk.code.size - ip < frame.remaining) :
    Shortens config ((outer.push { frame with ip }).push inner) (outer.push frame) := by
  refine ⟨by simpa using Nat.succ_le_of_lt room, ?_⟩
  simp only [countdown, Array.toList_push, List.map_append, List.map_cons, List.map_nil,
    List.append_assoc, List.cons_append, List.nil_append]
  refine descends_of_lower _ _ ?_ less
  simp
  omega

theorem shortens_of_leave {config : Config} {outer : Array Frame} {frame : Frame}
    (room : outer.size < config.frameBound) : Shortens config outer (outer.push frame) := by
  refine ⟨by omega, ?_⟩
  simp only [countdown, Array.toList_push, List.map_append, List.map_cons, List.map_nil]
  exact descends_of_drop _ _ (by simpa using room)

theorem shortens_of_executeIn {env : Environment κ σ} {outer next : Array Frame} {frame : Frame}
    {m m' : Memory κ σ} (bounded : outer.size < env.config.frameBound)
    (h : executeIn env outer frame m = .running next m') :
    Shortens env.config next (outer.push frame) := by
  unfold executeIn at h
  split at h
  · cases h
  · split at h
    · cases h
    · rename_i i ip fetched
      obtain ⟨forward, inside⟩ := Chunk.lt_next_of_fetch fetched
      have less : ∀ distance,
          frame.function.chunk.code.size - (ip + distance) < frame.remaining := by
        intro distance
        unfold Frame.remaining
        omega
      dsimp only at h
      split at h
      · cases h
      · rename_i t _ _
        cases t with
        | next =>
          cases h
          exact shortens_of_advance bounded (less 0)
        | jump distance =>
          cases h
          exact shortens_of_advance bounded (less distance)
        | enter handle function argc =>
          simp only [transfer] at h
          split at h
          · cases h
          · cases h
            refine shortens_of_enter ?_ (less 0)
            simp only [Config.frameBound] at *
            omega
        | leave result =>
          simp only [transfer] at h
          split at h
          · cases h
          · cases h
            exact shortens_of_leave bounded

theorem shortens_of_step {env : Environment κ σ} {frames next : Array Frame} {m m' : Memory κ σ}
    (bounded : frames.size ≤ env.config.frameBound) (h : step env frames m = .running next m') :
    Shortens env.config next frames := by
  obtain ⟨m₁, executed, -⟩ := step_eq_running h
  obtain ⟨outer, frame, rfl, advanced⟩ := exists_executeIn executed
  rw [Array.size_push] at bounded
  exact shortens_of_executeIn bounded advanced

end ScriptMachine
