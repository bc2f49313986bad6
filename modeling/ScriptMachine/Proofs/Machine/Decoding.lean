import ScriptMachine.Proofs.Chunk.Listing
import ScriptMachine.Proofs.Codegen.WellFormed
import ScriptMachine.Proofs.Machine.Sparing

/-!
# Listings and the machine decode alike

In compiled code a listing lists the instructions that the machine fetches, with the
operands that it reads (`Chunk.Decodes`). Frames of such code are at the start of an
instruction, whatever function is entered first and whatever native code does: where an
instruction goes on is one of its targets (`AtStarts.execute`), and so it is in every run
(`AtStarts.steps`).
-/

namespace ScriptMachine

variable {κ σ : Type} {chunk : Chunk} {instructions : List Instruction}

/-! ## Where instructions start -/

/-- Instructions one after the other, with the offsets where they start. -/
def placedFrom (p : Nat) : List Instruction → List (Nat × Instruction)
  | [] => []
  | i :: instructions => (p, i) :: placedFrom (p + i.length) instructions

theorem mem_placedFrom {p q : Nat} {i : Instruction} :
    (q, i) ∈ placedFrom p instructions ↔ ∃ d, StartsAt instructions d i ∧ q = p + d := by
  induction instructions generalizing p with
  | nil =>
    refine ⟨fun h => absurd h List.not_mem_nil, ?_⟩
    rintro ⟨d, ⟨front, back, heq, -⟩, -⟩
    simp at heq
  | cons j instructions ih =>
    rw [placedFrom, List.mem_cons, ih]
    constructor
    · rintro (heq | ⟨d, ⟨front, back, rfl, rfl⟩, rfl⟩)
      · cases heq
        exact ⟨0, ⟨[], instructions, rfl, rfl⟩, rfl⟩
      · refine ⟨j.length + _, ⟨j :: front, back, rfl, ?_⟩, Nat.add_assoc _ _ _⟩
        rw [List.flatMap_cons, List.length_append, Instruction.length_bytes]
    · rintro ⟨d, ⟨front, back, heq, rfl⟩, rfl⟩
      cases front with
      | nil =>
        cases heq
        exact .inl rfl
      | cons j' front =>
        cases heq
        refine .inr ⟨_, ⟨front, back, rfl, rfl⟩, ?_⟩
        rw [List.flatMap_cons, List.length_append, Instruction.length_bytes, Nat.add_assoc]

/-- Code of whole instructions is read one of them after the other. -/
theorem Chunk.sweeps_placedFrom {p : Nat}
    (hfetch : ∀ q i, (q, i) ∈ placedFrom p instructions →
      chunk.fetch q = .instruction i (q + i.length))
    (hend : p + (instructions.flatMap Instruction.bytes).length = chunk.code.size) :
    chunk.Sweeps p ((placedFrom p instructions).map Prod.fst) := by
  induction instructions generalizing p with
  | nil => exact .done (Nat.le_of_eq hend.symm)
  | cons i instructions ih =>
    rw [List.flatMap_cons, List.length_append, Instruction.length_bytes, ← Nat.add_assoc] at hend
    exact .step (.instruction (hfetch p i List.mem_cons_self))
      (ih (fun q j hq => hfetch q j (List.mem_cons_of_mem _ hq)) hend)

/-! ## Jumps -/

/-- A jump is taken with this stack. -/
def Instruction.JumpsOn (i : Instruction) (stack : Array Value) : Prop :=
  match i.opcode with
  | .jump => True
  | .jumpIfFalse => stack.back? = some (.bool false)
  | .jumpIfTrue => stack.back? = some (.bool true)
  | _ => False

theorem perform_of_jumpsOn {i : Instruction} {m : Memory κ σ} (h : i.JumpsOn m.stack)
    (env : Environment κ σ) (frame : Frame) : perform env frame i m = .ok (.jump i.distance) m := by
  obtain ⟨op, first, second⟩ := i
  unfold Instruction.JumpsOn at h
  cases op with
  | jump => exact perform_jump first second
  | jumpIfFalse =>
    obtain ⟨rest, hstack⟩ := Array.back?_eq_some_iff.1 h
    exact perform_jumpIfFalse hstack first second
  | jumpIfTrue =>
    obtain ⟨rest, hstack⟩ := Array.back?_eq_some_iff.1 h
    exact perform_jumpIfTrue hstack first second
  | _ => cases h

theorem Instruction.JumpsOn.mem_jumps {i : Instruction} {stack : Array Value}
    (h : i.JumpsOn stack) : i.opcode ∈ Opcode.jumps := by
  unfold Instruction.JumpsOn at h
  split at h <;> simp_all [Opcode.jumps]

/-- The machine goes on where a listing says that a jump leads. -/
theorem stepReading_of_jumpsOn {i : Instruction} {m : Memory κ σ} (h : i.JumpsOn m.stack)
    {frame : Frame} {f : Function} (hfunction : m.heap.function frame.handle = .ok f)
    (hfetch : f.chunk.fetch frame.ip = .instruction i (frame.ip + i.length))
    (env : Environment κ σ) (outer : Array Frame) :
    let next := outer.push { frame with function := f, ip := i.target frame.ip }
    stepReading env (outer.push frame) m = .running next (m.collectIfDue env next) := by
  rw [stepReading_push, Frame.reread, hfunction]
  dsimp only
  rw [step, execute_push, executeIn, hfunction]
  dsimp only
  rw [hfetch]
  dsimp only
  rw [perform_of_jumpsOn h, Instruction.target_eq h.mem_jumps]
  rfl

/-! ## Frames at the start of an instruction -/

/-- Every frame of the code is at the start of one of its instructions. -/
def AtStarts (chunk : Chunk) (instructions : List Instruction) (frames : Array Frame) : Prop :=
  ∀ frame ∈ frames, frame.function.chunk = chunk → ∃ i, StartsAt instructions frame.ip i

/-- Code whose instructions are fetched where they start, and go on where others start. -/
structure Chunk.Linked (chunk : Chunk) (instructions : List Instruction) : Prop where
  first : ∃ i, StartsAt instructions 0 i
  fetch : ∀ {p i}, StartsAt instructions p i → chunk.fetch p = .instruction i (p + i.length)
  targets : ∀ {p i}, StartsAt instructions p i → ∀ q ∈ i.targets p, ∃ j, StartsAt instructions q j

section Frames

variable {env : Environment κ σ} {frames frames' : Array Frame} {m m' : Memory κ σ}

theorem AtStarts.push {outer : Array Frame} {frame : Frame}
    (houter : AtStarts chunk instructions outer)
    (hframe : frame.function.chunk = chunk → ∃ i, StartsAt instructions frame.ip i) :
    AtStarts chunk instructions (outer.push frame) := by
  intro other hother
  rcases Array.mem_push.1 hother with hother | rfl
  · exact houter other hother
  · exact hframe

theorem AtStarts.enter (hlinked : chunk.Linked instructions) (handle : Handle) (function : Function)
    (base : Nat) : AtStarts chunk instructions #[⟨handle, function, base, 0⟩] := by
  have hnone : AtStarts chunk instructions #[] :=
    fun _ hother => absurd hother (Array.not_mem_empty _)
  exact hnone.push fun _ => hlinked.first

/-- An instruction leads from frames at the start of instructions to such frames. -/
theorem AtStarts.execute (h : AtStarts chunk instructions frames)
    (hlinked : chunk.Linked instructions) (hexecute : execute env frames m = .running frames' m') :
    AtStarts chunk instructions frames' := by
  obtain ⟨outer, frame, i, ip, t, m₁, rfl, hfetch, hperform, hleads⟩ := execute_eq_running hexecute
  have houter : AtStarts chunk instructions outer :=
    fun other hother => h other (Array.mem_push_of_mem _ hother)
  -- Where a target of the instruction is, another one starts.
  have hgoesOn : ∀ distance, frame.ip + i.length + distance ∈ i.targets frame.ip →
      AtStarts chunk instructions (outer.push { frame with ip := ip + distance }) := by
    intro distance htarget
    refine houter.push fun hchunk => ?_
    obtain ⟨i', hi'⟩ := h frame Array.mem_push_self hchunk
    rw [show frame.function.chunk = chunk from hchunk, hlinked.fetch hi'] at hfetch
    cases hfetch
    exact hlinked.targets hi' _ htarget
  have hstays := staysIn_perform env { frame with ip } i frame.ip m t m₁ hperform
  cases hleads with
  | next => exact hgoesOn 0 (hstays 0 rfl)
  | jump distance => exact hgoesOn distance (hstays distance rfl)
  | enter handle function argc =>
    have hop : i.opcode = .call := by
      by_contra hne
      exact not_isCall_of_perform hne m _ _ hperform trivial
    exact (hgoesOn 0 (by simp [Instruction.targets, hop])).push fun _ => hlinked.first
  | leave result => exact houter

theorem AtStarts.step (h : AtStarts chunk instructions frames) (hlinked : chunk.Linked instructions)
    (hstep : step env frames m = .running frames' m') : AtStarts chunk instructions frames' := by
  obtain ⟨m₁, hexecute, -⟩ := step_eq_running hstep
  exact h.execute hlinked hexecute

/-- Whatever runs, frames are at the start of instructions throughout. -/
theorem AtStarts.steps (h : AtStarts chunk instructions frames)
    (hlinked : chunk.Linked instructions)
    (hsteps : Steps (ScriptMachine.step env) frames m frames' m') :
    AtStarts chunk instructions frames' := by
  induction hsteps with
  | refl => exact h
  | tail _ hstep ih => exact ih.step hlinked hstep

theorem AtStarts.of_bare (h : AtStarts chunk instructions frames)
    (hbare : frames.map Frame.bare = frames'.map Frame.bare) :
    AtStarts chunk instructions frames' := by
  intro frame hframe hchunk
  have hmem := Array.mem_map_of_mem (f := Frame.bare) hframe
  rw [← hbare] at hmem
  obtain ⟨other, hother, heq⟩ := Array.mem_map.1 hmem
  obtain ⟨-, hfunction, -, hip⟩ := Frame.mk.inj heq
  rw [← hip]
  exact h other hother ((Function.mk.inj hfunction).2.2.trans hchunk)

end Frames

/-! ## Compiled code -/

/-- A listing of the code and a machine that runs it find the same instructions. -/
structure Chunk.Decodes (κ : Type) (chunk : Chunk) (instructions : List Instruction) : Prop where
  /-- A listing has one line for each instruction, with the offset where it starts, its
  name and its operands. -/
  listing : ∀ (heap : Heap κ) (title : String), ∃ lines,
    chunk.listing heap title = "== " ++ title ++ " ==\n" ++ String.join lines ∧
      List.Forall₂ (fun (p, i) line => chunk.Prints heap p i line) (placedFrom 0 instructions) lines
  /-- What is listed is what the machine fetches, with its operands. -/
  fetch : ∀ {p i}, (p, i) ∈ placedFrom 0 instructions →
    chunk.fetch p = .instruction i (p + i.length)
  /-- The constant that is listed is the one that the machine reads. -/
  constant : ∀ {p i}, (p, i) ∈ placedFrom 0 instructions →
    i.opcode = .constant ∨ i.opcode = .invoke →
      ∃ value, (∀ (heap : Heap κ) (text : String),
        chunk.Quotes heap i.first text → text = heap.display value) ∧
        ∀ {σ : Type} {frame : Frame}, frame.function.chunk = chunk →
          (constantAt frame i.first : Act κ σ Value) = pure value
  /-- Whichever function is entered first, and whatever native code does, a frame that keeps
  the code is at an offset that is listed. -/
  kept : ∀ {σ : Type} {env : Environment κ σ} {handle function base m frames m'},
    Steps (step env) #[⟨handle, function, base, 0⟩] m frames m' →
      ∀ frame ∈ frames, frame.function.chunk = chunk →
        ∃ i, (frame.ip, i) ∈ placedFrom 0 instructions
  /-- So it is in a run, which reads code from the heap before each instruction. -/
  reached : ∀ {σ : Type} {env : Environment κ σ} {handle function base m frames m'},
    LeavesCode env.call → m.heap.WF → m.heap.function handle = .ok function →
      Steps (stepReading env) #[⟨handle, function, base, 0⟩] m frames m' →
        ∀ frame ∈ frames, frame.function.chunk = chunk →
          ∃ i, (frame.ip, i) ∈ placedFrom 0 instructions
  /-- Where a jump is listed to lead, there is an instruction, and the machine goes on
  there when the jump is taken. -/
  jump : ∀ {p i}, (p, i) ∈ placedFrom 0 instructions → i.opcode ∈ Opcode.jumps →
    (∃ j, (i.target p, j) ∈ placedFrom 0 instructions) ∧
      ∀ {σ : Type} (env : Environment κ σ) (outer : Array Frame) {frame : Frame}
        {m : Memory κ σ} {f : Function}, m.heap.function frame.handle = .ok f →
          f.chunk = chunk → frame.ip = p → i.JumpsOn m.stack →
            let next := outer.push { frame with function := f, ip := i.target p }
            stepReading env (outer.push frame) m = .running next (m.collectIfDue env next)

section Compiled

variable {heap : Heap κ} {globals arity : Nat} {height : Nat → Nat} {L : List Listed}

theorem mem_placed {p : Nat} {i : Instruction} :
    (p, i) ∈ placedFrom 0 instructions ↔ StartsAt instructions p i := by
  simp [mem_placedFrom]

/-- The constants and names of methods of well-formed code are there. -/
theorem Chunk.WellFormed.exists_constant
    (h : chunk.WellFormed heap globals arity instructions height) {p : Nat} {i : Instruction}
    (hi : StartsAt instructions p i) (hop : i.opcode = .constant ∨ i.opcode = .invoke) :
    ∃ value, chunk.constants[i.first.toNat]? = some value := by
  have hoperand := h.operand hi
  obtain ⟨op, first, second⟩ := i
  cases op with
  | constant => exact hoperand
  | invoke =>
    obtain ⟨name, handle, hconstant, -⟩ := hoperand
    exact ⟨_, hconstant⟩
  | _ => simp at hop

theorem Chunk.WellFormed.linked (h : chunk.WellFormed heap globals arity instructions height)
    (hlisted : List.Forall₂ (Listed.Encodes ⟨chunk.constants, heap, True⟩) L instructions) :
    chunk.Linked instructions where
  first := by
    obtain ⟨front, hfront⟩ := h.ending
    cases instructions with
    | nil => simp at hfront
    | cons i instructions => exact ⟨i, [], instructions, rfl, rfl⟩
  fetch := by
    intro p i hi
    obtain ⟨l, -, hencodes⟩ := hi.exists_listed hlisted
    have hname : i.opcode.layout = .method → i.first.toNat < chunk.constants.size := by
      intro hlayout
      obtain ⟨value, hvalue⟩ := h.exists_constant hi (.inr (Opcode.layout_eq_method.1 hlayout))
      exact (Array.getElem?_eq_some_iff.1 hvalue).1
    obtain ⟨front, back, rfl, rfl⟩ := hi
    have hcode : chunk.code.toList =
        front.flatMap Instruction.bytes ++ (i.bytes ++ back.flatMap Instruction.bytes) := by
      rw [h.code, List.flatMap_append, List.flatMap_cons]
    exact Chunk.fetch_of_bytes hcode hencodes.first hencodes.second hname
  targets hi q hq := (h.targets hi q hq).1

/-- Linked code is listed instruction by instruction. -/
theorem Chunk.Linked.exists_lines (h : chunk.Linked instructions)
    (hcode : chunk.code.toList = instructions.flatMap Instruction.bytes) (heap : Heap κ)
    (title : String) : ∃ lines,
    chunk.listing heap title = "== " ++ title ++ " ==\n" ++ String.join lines ∧
      List.Forall₂ (fun (p, i) line => chunk.Prints heap p i line)
        (placedFrom 0 instructions) lines := by
  have hend : 0 + (instructions.flatMap Instruction.bytes).length = chunk.code.size := by
    rw [← hcode, Array.length_toList, Nat.zero_add]
  have hsweeps := Chunk.sweeps_placedFrom (fun p i hi => h.fetch (mem_placed.1 hi)) hend
  have hlines : ((placedFrom 0 instructions).map Prod.fst).map
      (fun p => (chunk.listingLine heap p).1) =
        (placedFrom 0 instructions).map fun (p, i) =>
          chunk.lineHead p ++ chunk.instructionText heap p i ++ "\n" := by
    rw [List.map_map]
    refine List.map_congr_left fun ⟨p, i⟩ hi => ?_
    rw [Function.comp_apply, Chunk.listingLine_of_fetch (h.fetch (mem_placed.1 hi))]
  refine ⟨_, by rw [hsweeps.listing_eq, hlines], ?_⟩
  exact List.forall₂_map_right_iff.2 (List.forall₂_same.2 fun (p, i) _ => chunk.prints heap p i)

theorem AtStarts.steps_of_reading {env : Environment κ σ} {handle : Handle} {function : Function}
    {base : Nat} {m m' : Memory κ σ} {frames : Array Frame} (hlinked : chunk.Linked instructions)
    (hcall : LeavesCode env.call) (hwf : m.heap.WF)
    (hfunction : m.heap.function handle = .ok function)
    (hsteps : Steps (stepReading env) #[⟨handle, function, base, 0⟩] m frames m') :
    AtStarts chunk instructions frames := by
  obtain ⟨frames₁, hsteps', hbare⟩ :=
    ((UpToDate.start hwf hfunction).steps_of_reading hcall hsteps).2
  exact ((AtStarts.enter hlinked handle function base).steps hlinked hsteps').of_bare hbare

/-- Where a jump of linked code is listed to lead, an instruction starts. -/
theorem Chunk.Linked.startsAt_target (h : chunk.Linked instructions) {p : Nat}
    {i : Instruction} (hi : StartsAt instructions p i) (hop : i.opcode ∈ Opcode.jumps) :
    ∃ j, StartsAt instructions (i.target p) j := by
  have htarget : i.target p ∈ i.targets p := by
    rw [Instruction.targets, Instruction.target_eq hop]
    simp only [Opcode.jumps, List.mem_cons, List.not_mem_nil, or_false] at hop
    rcases hop with hop | hop | hop <;> rw [hop]
    · exact List.mem_cons_self
    · exact List.mem_cons_of_mem _ List.mem_cons_self
    · exact List.mem_cons_of_mem _ List.mem_cons_self
  exact h.targets hi _ htarget

/-- Well-formed code is listed as the machine decodes it. -/
theorem Chunk.WellFormed.decodes (h : chunk.WellFormed heap globals arity instructions height)
    (hlisted : List.Forall₂ (Listed.Encodes ⟨chunk.constants, heap, True⟩) L instructions) :
    chunk.Decodes κ instructions where
  listing := (h.linked hlisted).exists_lines h.code
  fetch hi := (h.linked hlisted).fetch (mem_placed.1 hi)
  constant := by
    intro p i hi hop
    obtain ⟨value, hvalue⟩ := h.exists_constant (mem_placed.1 hi) hop
    refine ⟨value, fun heap text htext => ?_, fun {σ frame} hchunk => ?_⟩
    · cases htext with
      | constant htext => rw [Option.some.inj (hvalue.symm.trans htext)]
      | missing hmissing => exact absurd (Array.getElem?_eq_some_iff.1 hvalue).1 (by omega)
    · rw [constantAt, hchunk, hvalue]
  kept := by
    intro σ env handle function base m frames m' hsteps frame hframe hchunk
    have hlinked := h.linked hlisted
    have hstarts := (AtStarts.enter hlinked handle function base).steps hlinked hsteps
    exact (hstarts frame hframe hchunk).imp fun _ => mem_placed.2
  reached := by
    intro σ env handle function base m frames m' hcall hwf hfunction hsteps frame hframe hchunk
    have hstarts := AtStarts.steps_of_reading (h.linked hlisted) hcall hwf hfunction hsteps
    exact (hstarts frame hframe hchunk).imp fun _ => mem_placed.2
  jump := by
    intro p i hi hop
    have hstarts := mem_placed.1 hi
    refine ⟨((h.linked hlisted).startsAt_target hstarts hop).imp fun _ => mem_placed.2, ?_⟩
    intro σ env outer frame m f hfunction hchunk hip hjumps
    subst hip hchunk
    exact stepReading_of_jumpsOn hjumps hfunction ((h.linked hlisted).fetch hstarts) env outer

end Compiled

/-- At a handle there is a function whose code is that of a listing, and whose listing and
the machine decode alike. -/
def Heap.Decodes (heap : Heap κ) (handle : Handle) (L : List Listed) : Prop :=
  ∃ (f : Function) (instructions : List Instruction), heap.get handle = .ok (.function f) ∧
    f.chunk.code.toList = instructions.flatMap Instruction.bytes ∧
      List.Forall₂ (Listed.Encodes ⟨f.chunk.constants, heap, True⟩) L instructions ∧
        f.chunk.Decodes κ instructions

theorem Heap.WellFormed.decodes {heap : Heap κ} {globals arity : Nat} {handle : Handle}
    {name : String} {L : List Listed} (h : heap.WellFormed globals handle name arity L) :
    heap.Decodes handle L := by
  obtain ⟨chunk, instructions, height, hget, hwf, hlisted, -⟩ := h
  exact ⟨_, instructions, hget, hwf.code, hlisted, hwf.decodes hlisted⟩

/-- A listing and the machine decode alike. A listing of any bytes ends, reads nothing
out of range and goes over the code as the machine would if it went on behind each
instruction. What a program compiles to without errors is decoded by both into the same
instructions, with the same operands; a run is at the start of one of them whenever it
fetches, and after a jump where the listing says that it leads. -/
theorem listings_decode :
    (∀ (chunk : Chunk) (heap : Heap κ) (title : String), ∃ offsets lines,
      chunk.Sweeps 0 offsets ∧ (∀ p ∈ offsets, p < chunk.code.size) ∧
        chunk.listing heap title = "== " ++ title ++ " ==\n" ++ String.join lines ∧
          List.Forall₂ (chunk.Lists heap) offsets lines) ∧
    ∀ {program : Program} {symbols : SymbolTable} {heap : Heap κ}, Compilable program symbols →
      heap.WF → (program.compile heap symbols).errors = [] →
        let c := program.compile heap symbols
        let globals := c.symbols.globalCount
        ∃ fns : List (FnDecl × Handle), fns.map Prod.fst = program.fns ∧
          c.heap.Decodes c.script (program.listed globals symbols.size fns) ∧
          ∀ fn ∈ fns, c.heap.Decodes fn.2 (fn.1.listed globals symbols.size) := by
  refine ⟨fun chunk heap title => ?_, fun {program symbols heap} h hheap herrors => ?_⟩
  · obtain ⟨offsets, hsweeps⟩ := Chunk.Sweeps.exists_sweeps chunk 0
    obtain ⟨lines, hlisting, hlines⟩ := hsweeps.exists_lines heap title
    exact ⟨offsets, lines, hsweeps, hsweeps.lt_size, hlisting, hlines⟩
  · obtain ⟨fns, hfns⟩ := h.transcribed hheap
    have hglobals := SymbolTable.globalCount_eq (program.compile_kinds heap symbols)
    dsimp only
    rw [hglobals]
    have hscript := hfns.script.wellFormed hfns.kept.wf herrors
      (program.listed_selfContained _ _ fns)
    have hfunctions : ∀ fn ∈ fns, _ := fun fn hfn =>
      (hfns.functions fn hfn).wellFormed hfns.kept.wf herrors (fn.1.listed_selfContained _ _)
    exact ⟨fns, hfns.decls, hscript.decodes, fun fn hfn => (hfunctions fn hfn).decodes⟩

/-- A program with a conditional, a disjunction and a call. -/
def branching : String :=
  "fn main() { if (not(true)) { print 1; } }\nfn not(b) { return b or !b; }"

/-- The theorem applies: a resolved program compiles without errors. -/
theorem listings_decode_demo : ∃ (program : Program) (fns : List (FnDecl × Handle)),
    Program.ofSource "demo" branching = .ok program ∧
    let r := program.resolve ["clock"]
    let c := r.program.compile ({} : Heap Empty) r.symbols
    c.errors = [] ∧ fns.map Prod.fst = r.program.fns ∧
      c.heap.Decodes c.script (r.program.listed c.symbols.globalCount r.symbols.size fns) := by
  have hok : (match Program.ofSource "demo" branching with
      | .ok program =>
        let r := program.resolve ["clock"]
        (r.program.compile ({} : Heap Empty) r.symbols).errors.isEmpty
      | .error _ => false) = true := by decide +kernel
  split at hok
  · next program hprogram =>
    have herrors := List.isEmpty_iff.1 hok
    obtain ⟨fns, hfns, hscript, -⟩ :=
      listings_decode.2 (.resolved ["clock"] program) Heap.WF.empty herrors
    exact ⟨program, fns, hprogram, herrors, hfns, hscript⟩
  · cases hok

end ScriptMachine
