import ScriptMachine.Proofs.Machine.Tracking

/-!
# Traces of runs that stop

The trace of a run that stops has one entry for each call in progress, the innermost
first, with the name of the function and a line: that of what the instruction belongs
to which has failed, or that of the call expression which waits for its result
(`Executable.CallTrace`). The script has an entry of its own just when no call is in
progress (`Tracked.traces`).
-/

namespace ScriptMachine

variable {κ σ : Type}

/-! ## What a trace should be -/

/-- The instruction is that of a call expression. -/
def Listed.IsCall (l : Listed) : Prop :=
  l.opcode = .call ∧ ∃ callee args s, l.node = .expr (.call callee args s)

/-- An instruction that has failed is the listed one. It does not belong to the end of a
block; and if it has tested a condition, it belongs to a conditional or to `and` or
`or`. -/
structure Listed.Failed (l : Listed) (i : Instruction) : Prop where
  opcode : l.opcode = i.opcode
  node : ¬l.node.EndsBlock
  test : l.opcode.Tests →
    (∃ test thenBlock elseBlock s, l.node = .stmt (.cond test thenBlock elseBlock s)) ∨
      ∃ op left right s, l.node = .expr (.logical op left right s)

namespace Executable

/-- What runs while calls are in progress: what has been called last, or the script. -/
def running (exe : Executable κ) : List ActiveCall → Handle
  | [] => exe.script
  | call :: _ => call.callee

/-- The entries for calls in progress, of which the innermost has come to `p` in its
function, where `stopped` holds of what is listed. The others wait at call
expressions. -/
inductive CallTrace (exe : Executable κ) :
    (stopped : Listed → Prop) → List ActiveCall → Nat → List TraceEntry → Prop
  | nil {stopped : Listed → Prop} {p : Nat} : CallTrace exe stopped [] p []
  | cons {stopped : Listed → Prop} {d : FnDecl} {call : ActiveCall} {calls : List ActiveCall}
      {p : Nat} {l : Listed} {entries : List TraceEntry} (hd : (d, call.callee) ∈ exe.fns)
      (hl : listedAt? (d.listed exe.globals exe.count) p = some l) (hstopped : stopped l)
      (h : CallTrace exe Listed.IsCall calls call.site entries) :
      CallTrace exe stopped (call :: calls) p (⟨d.name, l.node.line⟩ :: entries)

/-- The trace of a run that has stopped in the instruction `i` at `p`. -/
inductive Traces (exe : Executable κ) (i : Instruction) :
    List ActiveCall → Nat → List TraceEntry → Prop
  | script {p : Nat} {l : Listed}
      (hl : listedAt? (exe.program.listed exe.globals exe.count exe.fns) p = some l)
      (hfailed : l.Failed i) : Traces exe i [] p [⟨"script", l.node.line⟩]
  | calls {call : ActiveCall} {calls : List ActiveCall} {p : Nat} {entries : List TraceEntry}
      (h : exe.CallTrace (·.Failed i) (call :: calls) p entries) :
      Traces exe i (call :: calls) p entries

end Executable

/-! ## What the trace is -/

/-- The entry of a frame. -/
def Frame.entry (frame : Frame) : TraceEntry :=
  ⟨frame.function.name, frame.function.chunk.lineAt (frame.ip - 1)⟩

/-- All frames whose functions are on the heap have an entry. -/
theorem traceOf_eq {frames : Array Frame} {heap : Heap κ} (h : Held frames heap) :
    traceOf heap frames =
      (frames.toList.drop (if 1 < frames.size then 1 else 0)).reverse.map Frame.entry := by
  unfold traceOf
  rw [← List.filterMap_eq_map]
  refine List.filterMap_congr fun frame hframe => ?_
  have hmem : frame ∈ frames :=
    Array.mem_toList_iff.1 (List.mem_of_mem_drop (List.mem_reverse.1 hframe))
  rw [Heap.function_eq_ok.2 (h frame hmem)]
  rfl

section Traces

variable {exe : Executable κ} {outer : Array Frame} {frame : Frame} {calls : List ActiveCall}
  {i : Instruction} {p next : Nat}

theorem Stacked.callTrace (h : Stacked exe (outer.push frame) calls) (hexe : exe.Accurate)
    (hheld : Held (outer.push frame) exe.heap) (hplaces : exe.Places frame p)
    (hfetch : frame.function.chunk.fetch p = .instruction i next) {stopped : Listed → Prop}
    (hstopped : ∀ {l : Listed}, l.InFunction → l.opcode = i.opcode → stopped l) :
    exe.CallTrace stopped calls p
      (((outer.push { frame with ip := next }).toList.drop 1).reverse.map Frame.entry) := by
  generalize hframes : outer.push frame = frames at h
  induction h generalizing outer frame p next i stopped with
  | @script frame' h =>
    obtain ⟨rfl, rfl⟩ := Array.push_eq_push.1 (show outer.push frame = #[].push frame' from hframes)
    exact .nil
  | @call callers caller _ calls site i' h hsite hfetch' hop hne ih =>
    obtain ⟨rfl, rfl⟩ := Array.push_eq_push.1 hframes
    obtain ⟨d, hd⟩ : ∃ d, (d, frame.handle) ∈ exe.fns := by
      rcases hexe.only (hheld frame Array.mem_push_self) with heq | ⟨fn, hfn, heq⟩
      · exact absurd heq hne
      · exact ⟨fn.1, heq ▸ hfn⟩
    obtain ⟨hname, hstands⟩ := hplaces _ _ (.fn hd)
    obtain ⟨l, hl, hopcode, hline⟩ := hstands.line hfetch
    have hfunction := d.listed_inFunction exe.globals exe.count l (mem_of_listedAt? hl)
    have hrest : exe.CallTrace Listed.IsCall calls site _ :=
      ih (fun other hother => hheld other (Array.mem_push_of_mem _ hother)) hsite hfetch'
      (fun hl hlop => ⟨hlop.trans hop, hl.call (hlop.trans hop)⟩) rfl
    have hentries : (((callers.push caller).push { frame with ip := next }).toList.drop 1).reverse =
        { frame with ip := next } :: ((callers.push caller).toList.drop 1).reverse := by
      rw [Array.toList_push, List.drop_append_of_le_length (by simp), List.reverse_append]
      rfl
    rw [hentries, List.map_cons]
    have hentry : Frame.entry { frame with ip := next } = ⟨d.name, l.node.line⟩ := by
      rw [Frame.entry, hname, hline]
    rw [hentry]
    exact .cons hd hl (hstopped hfunction hopcode) hrest

end Traces

namespace Tracked

variable {exe : Executable κ} {env : Environment κ σ} {calls : List ActiveCall}
  {outer frames' : Array Frame} {frame : Frame} {m m' : Memory κ σ} {fault : Fault}

/-- The functions of the frames are on the heap of the executable. -/
theorem held (h : Tracked exe env calls frames' m) : Held frames' exe.heap := by
  obtain ⟨code, globals, hsound⟩ := h.sound
  exact fun frame hframe => h.inherits (hsound.held frame hframe)

/-- Popping does not fail. -/
theorem pops_perform (h : Tracked exe env calls (outer.push frame) m) {i : Instruction} {ip : Nat}
    (hfetch : frame.function.chunk.fetch frame.ip = .instruction i ip)
    (hop : i.opcode = .pop ∨ i.opcode = .popN) :
    ∃ m', perform env { frame with ip } i m = .ok .next m' := by
  obtain ⟨k, n, hready, hpops, -⟩ := h.fetched hfetch
  obtain ⟨op, first, second⟩ := i
  rcases hop with rfl | rfl
  · obtain ⟨n, rfl⟩ := Nat.exists_eq_add_of_le' hpops
    obtain ⟨rest, value, hstack, -⟩ := exists_push hready.size
    exact ⟨_, (perform_bare rfl first second).trans (perform_pop hstack)⟩
  · exact ⟨_, (perform_byte rfl first second).trans (perform_popN first)⟩

/-- A step that fails leaves the innermost frame behind its instruction, which does not
just pop. -/
theorem faulted (h : Tracked exe env calls (outer.push frame) m) (hexe : exe.Accurate)
    (hstep : stepReading env (outer.push frame) m = .faulted fault frames' m') :
    ∃ i ip, frame.function.chunk.fetch frame.ip = .instruction i ip ∧
      frames' = outer.push { frame with ip } ∧ Held frames' m'.heap ∧
        ¬(i.opcode = .pop ∨ i.opcode = .popN) := by
  obtain ⟨code, globals, hsound⟩ := h.sound
  have hheld := hsound.held frame Array.mem_push_self
  rw [hsound.held.stepReading_eq] at hstep
  have hexecute := step_eq_faulted hstep
  rw [execute_push] at hexecute
  obtain ⟨name, L, hL⟩ := hexe.exists_lists (h.inherits hheld)
  obtain ⟨i, -, -, -, hfetch⟩ := (h.innermost frame Array.back?_push name L hL).2.fetch
  have hevolves := perform_keeps hsound.keeps m.heap { frame with ip := frame.ip + i.length } i m
    (.refl hsound.wf)
  have hframes : Held (outer.push { frame with ip := frame.ip + i.length }) m.heap :=
    Held.push (fun other hother => hsound.held other (Array.mem_push_of_mem _ hother)) hheld
  have hpops := h.pops_perform hfetch
  refine ⟨i, _, hfetch, ?_⟩
  unfold executeIn at hexecute
  rw [Heap.function_eq_ok.2 hheld, hfetch] at hexecute
  dsimp only at hexecute
  generalize perform env { frame with ip := frame.ip + i.length } i m = result
    at hexecute hevolves hpops
  cases result with
  | error fault' m₁ =>
    cases hexecute
    refine ⟨rfl, hframes.kept hevolves, fun hop => ?_⟩
    obtain ⟨_, heq⟩ := hpops hop
    cases heq
  | ok t m₁ =>
    cases t with
    | enter handle function argc =>
      simp only [transfer] at hexecute
      split at hexecute
      · cases hexecute
        refine ⟨rfl, hframes.kept hevolves, fun hop => ?_⟩
        obtain ⟨_, heq⟩ := hpops hop
        cases heq
      · cases hexecute
    | leave result =>
      simp only [transfer] at hexecute
      split at hexecute <;> cases hexecute
    | next => cases hexecute
    | jump distance => cases hexecute

/-- What runs is what has been called last. -/
theorem running (h : Tracked exe env calls (outer.push frame) m) :
    frame.handle = exe.running calls ∧ (outer.push frame).size = calls.length + 1 := by
  have hsize : ∀ {frames : Array Frame} {calls : List ActiveCall}, Stacked exe frames calls →
      frames.size = calls.length + 1 := by
    intro frames calls hstacked
    induction hstacked with
    | script => rfl
    | call _ _ _ _ _ ih => rw [Array.size_push, ih, List.length_cons]
  refine ⟨?_, hsize h.stacked⟩
  have hstacked := h.stacked
  generalize hframes : outer.push frame = frames at hstacked
  cases hstacked with
  | @script frame' hscript =>
    obtain ⟨rfl, rfl⟩ := Array.push_eq_push.1 (show outer.push frame = #[].push frame' from hframes)
    exact hscript
  | call =>
    obtain ⟨rfl, rfl⟩ := Array.push_eq_push.1 hframes
    rfl

/-- The trace of a run that stops has an entry for each call in progress. -/
theorem traces (h : Tracked exe env calls (outer.push frame) m) (hexe : exe.Accurate)
    (hstep : stepReading env (outer.push frame) m = .faulted fault frames' m') :
    ∃ i ip, (frame.reread m.heap).function.chunk.fetch frame.ip = .instruction i ip ∧
      exe.Traces i calls frame.ip (traceOf m'.heap frames') := by
  obtain ⟨i, ip, hfetch, rfl, hheld, hop⟩ := h.faulted hexe hstep
  have hplaces := h.innermost frame Array.back?_push
  have hfailed : ∀ {l : Listed}, l.InFunction → l.opcode = i.opcode → l.Failed i :=
    fun hl hopcode => ⟨hopcode, fun hnode => hop (hopcode ▸ hl.blockEnd hnode), hl.test⟩
  have hcalls := h.stacked.callTrace hexe h.held hplaces hfetch hfailed
  obtain ⟨code, globals, hsound⟩ := h.sound
  refine ⟨i, ip, by rwa [hsound.held.reread_eq Array.mem_push_self], ?_⟩
  rw [traceOf_eq hheld]
  have hstacked := h.stacked
  generalize hframes : outer.push frame = frames at hstacked
  cases hstacked with
  | @script frame' hscript =>
    obtain ⟨rfl, rfl⟩ := Array.push_eq_push.1 (show outer.push frame = #[].push frame' from hframes)
    have hlists : exe.Lists frame.handle "script"
      (exe.program.listed exe.globals exe.count exe.fns) := by
      rw [hscript]
      exact .script
    obtain ⟨hname, hstands⟩ := hplaces _ _ hlists
    obtain ⟨l, hl, hopcode, hline⟩ := hstands.line hfetch
    have hentry : Frame.entry { frame with ip } = ⟨"script", l.node.line⟩ := by
      rw [Frame.entry, hname, hline]
    show exe.Traces i [] frame.ip [Frame.entry { frame with ip }]
    rw [hentry]
    refine .script hl ?_
    rcases Program.listed_origin (mem_of_listedAt? hl) with hfunction | ⟨hnode, htest⟩
    · exact hfailed hfunction hopcode
    · refine ⟨hopcode, ?_, fun h => absurd h htest⟩
      rw [hnode]
      exact not_false
  | @call callers caller _ calls site i' hstacked hsite hfetch' hopcall hne =>
    obtain ⟨rfl, rfl⟩ := Array.push_eq_push.1 hframes
    rw [if_pos (by simp)]
    exact .calls hcalls

end Tracked

end ScriptMachine
