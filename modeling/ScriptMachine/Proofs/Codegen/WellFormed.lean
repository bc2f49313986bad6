import ScriptMachine.Proofs.Codegen.Flow
import ScriptMachine.Proofs.Codegen.Settling
import ScriptMachine.Proofs.Codegen.Transcribed
import ScriptMachine.Program.OfSource

/-!
# Compiled code is well-formed

A program that compiles without errors has well-formed code, whether or not its
names have been resolved, and whether or not they have been without errors
(`Program.compile_wellFormed`). Well-formed code (`Chunk.WellFormed`) is made of
whole instructions, names only what is there, leads only to its own instructions,
and has at each of them one height of the stack, whichever way it is reached.
-/

namespace ScriptMachine

variable {κ : Type}

/-! ## Well-formed code -/

/-- Among instructions one after the other, one starts at an offset. -/
def StartsAt (instructions : List Instruction) (p : Nat) (i : Instruction) : Prop :=
  ∃ front back, instructions = front ++ i :: back ∧ (front.flatMap Instruction.bytes).length = p

/-- The code of a chunk is that of some instructions, in front of which the stack has
certain heights. -/
structure Chunk.WellFormed (chunk : Chunk) (heap : Heap κ) (globals arity : Nat)
    (instructions : List Instruction) (height : Nat → Nat) : Prop where
  /-- The code consists of whole instructions. -/
  code : chunk.code.toList = instructions.flatMap Instruction.bytes
  /-- The last of them return null. -/
  ending : [{ opcode := .loadNull }, { opcode := .ret }] <:+ instructions
  /-- At the start the arguments are on the stack. -/
  start : height 0 = arity
  /-- What an instruction takes off the stack is there. -/
  pops : ∀ {p i}, StartsAt instructions p i → i.pops ≤ height p
  /-- Constants, names of methods, globals and locals are there. -/
  operand : ∀ {p i}, StartsAt instructions p i →
    i.OperandOk ⟨chunk, heap, globals, height⟩ (height p)
  /-- What follows an instruction or is jumped to is an instruction, in front of which
  the stack is as high as it is left. -/
  targets : ∀ {p i}, StartsAt instructions p i → ∀ q ∈ i.targets p,
    (∃ j, StartsAt instructions q j) ∧ height q = height p - i.pops + i.pushes

/-! ## Code that spells a listing -/

theorem Spells.exists_instructions {b : Backing κ} {L : List Listed} {bytes : List UInt8}
    (h : Spells b L bytes) : ∃ instructions : List Instruction,
      List.Forall₂ (Listed.Encodes b) L instructions ∧
        bytes = instructions.flatMap Instruction.bytes := by
  induction h with
  | nil => exact ⟨[], .nil, rfl⟩
  | cons hl _ ih =>
    obtain ⟨instructions, hinstructions, rfl⟩ := ih
    exact ⟨_ :: instructions, .cons hl hinstructions, rfl⟩

section Encoded

variable {b : Backing κ} {L : List Listed} {instructions : List Instruction}

/-- An instruction is listed where it starts. -/
theorem StartsAt.exists_listed (h : List.Forall₂ (Listed.Encodes b) L instructions) {p : Nat}
    {i : Instruction} (hi : StartsAt instructions p i) :
    ∃ l, listedAt? L p = some l ∧ l.Encodes b i := by
  induction h generalizing p with
  | nil =>
    obtain ⟨front, back, heq, -⟩ := hi
    simp at heq
  | @cons l j L instructions hl _ ih =>
    obtain ⟨front, back, heq, rfl⟩ := hi
    cases front with
    | nil =>
      cases heq
      exact ⟨l, rfl, hl⟩
    | cons j' front =>
      cases heq
      obtain ⟨l', hl', hencodes⟩ := ih ⟨front, back, rfl, rfl⟩
      have hpos := l.size_pos
      have hlength : ((j :: front).flatMap Instruction.bytes).length =
          l.size + (front.flatMap Instruction.bytes).length := by
        rw [List.flatMap_cons, List.length_append, Instruction.length_bytes, hl.length_eq]
      refine ⟨l', ?_, hencodes⟩
      rw [hlength, listedAt?, if_neg (by omega), if_neg (by omega), Nat.add_sub_cancel_left, hl']

/-- A listed instruction starts where it is listed. -/
theorem exists_startsAt (h : List.Forall₂ (Listed.Encodes b) L instructions) {p : Nat} {l : Listed}
    (hl : listedAt? L p = some l) : ∃ i, StartsAt instructions p i := by
  induction h generalizing p with
  | nil => cases hl
  | @cons l' j L instructions hl' _ ih =>
    rw [listedAt?] at hl
    split at hl
    · next hzero => exact ⟨j, [], instructions, rfl, hzero.symm⟩
    · split at hl
      · cases hl
      · next hge =>
        obtain ⟨i, front, back, rfl, hlength⟩ := ih hl
        refine ⟨i, j :: front, back, rfl, ?_⟩
        rw [List.flatMap_cons, List.length_append, Instruction.length_bytes, hl'.length_eq, hlength]
        omega

variable {globals : Nat} {l : Listed} {i : Instruction}

theorem Listed.Encodes.pops_eq (h : l.Encodes b i) (hexact : b.exact) (hl : l.OperandOk globals) :
    i.pops = l.pops := by
  obtain ⟨op, first, second⟩ := i
  obtain ⟨op', operand, node, height⟩ := l
  obtain ⟨rfl, hoperand, -, -⟩ := h
  unfold Listed.OperandOk at hl
  dsimp only at hl hoperand
  split at hl <;> first
    | rfl
    | exact hoperand
    | exact hoperand hexact
    | exact congrArg Nat.succ (hoperand hexact)
    | exact congrArg Nat.succ (hoperand hexact).1
    | cases hl
    | skip
  all_goals cases op <;> first | rfl | cases hl

/-- A jump leads over as many bytes as its listing says. -/
theorem Listed.Encodes.distance_eq (h : l.Encodes b i) (hexact : b.exact)
    (hl : l.OperandOk globals) (hop : l.opcode.layout = .distance) :
    i.distance = l.operand.amount := by
  obtain ⟨op, first, second⟩ := i
  obtain ⟨op', operand, node, height⟩ := l
  obtain ⟨rfl, hoperand, -, -⟩ := h
  cases operand with
  | distance n => exact hoperand hexact
  | _ => cases op <;> first | (cases hop; done) | cases hl

theorem Listed.Encodes.targets_eq (h : l.Encodes b i) (hexact : b.exact)
    (hl : l.OperandOk globals) (p : Nat) : i.targets p = l.targets p := by
  have hlength := h.length_eq
  have hdistance := h.distance_eq hexact hl
  have hop := h.opcode
  unfold Instruction.targets Listed.targets
  rw [hlength, hop]
  cases hjump : l.opcode with
  | jump | jumpIfFalse | jumpIfTrue =>
    dsimp only
    rw [hdistance (by rw [hjump]; rfl), Nat.add_assoc]
  | _ => rfl

theorem Listed.Encodes.eq_bare (h : l.Encodes b i) (hop : l.opcode.layout = .bare) :
    i = { opcode := l.opcode } := by
  obtain ⟨op, first, second⟩ := i
  obtain ⟨rfl, -, hfirst, hsecond⟩ := h
  dsimp only at hop hfirst hsecond
  rw [hop] at hfirst hsecond
  rw [hfirst rfl, hsecond (Nat.zero_le _)]

theorem Listed.Encodes.pushes_eq (h : l.Encodes b i) : i.pushes = l.pushes := by
  obtain ⟨op, first, second⟩ := i
  obtain ⟨rfl, -, -, -⟩ := h
  rfl

theorem Listed.Encodes.operandOk {chunk : Chunk} {heap : Heap κ} {height : Nat → Nat}
    (h : l.Encodes ⟨chunk.constants, heap, True⟩ i) (hl : l.OperandOk globals) :
    i.OperandOk ⟨chunk, heap, globals, height⟩ l.height := by
  obtain ⟨op, first, second⟩ := i
  obtain ⟨op', operand, node, n⟩ := l
  obtain ⟨rfl, hoperand, -, -⟩ := h
  cases op with
  | constant =>
    cases operand with
    | constant value => exact ⟨value, hoperand trivial⟩
    | _ => cases hl
  | invoke =>
    cases operand with
    | method name count => exact ⟨name, (hoperand trivial).2⟩
    | _ => cases hl
  | getLocal | setLocal | getGlobal | setGlobal =>
    cases operand with
    | byte slot =>
      obtain rfl : first.toNat = slot := hoperand
      exact hl
    | _ => cases hl
  | _ => trivial

end Encoded

/-- The heights in front of the instructions of a listing. -/
def heightsOf (L : List Listed) (p : Nat) : Nat := ((listedAt? L p).map Listed.height).getD 0

theorem heightsOf_eq {L : List Listed} {p : Nat} {l : Listed} (h : listedAt? L p = some l) :
    heightsOf L p = l.height := by
  rw [heightsOf, h]
  rfl

theorem exists_listedAt? {L : List Listed} {l : Listed} (h : l ∈ L) :
    ∃ p, listedAt? L p = some l := by
  induction L with
  | nil => cases h
  | cons l' L ih =>
    rcases List.mem_cons.1 h with rfl | h
    · exact ⟨0, rfl⟩
    · obtain ⟨p, hp⟩ := ih h
      have hpos := l'.size_pos
      exact ⟨l'.size + p, by
        rw [listedAt?, if_neg (by omega), if_neg (by omega), Nat.add_sub_cancel_left, hp]⟩

/-- No jump of a self-contained listing has been left open. -/
theorem SelfContained.closed {globals n : Nat} {L : List Listed} (h : SelfContained globals n L) :
    ∀ l ∈ L, l.operand ≠ .pending := by
  intro l hl hpending
  obtain ⟨p, hp⟩ := exists_listedAt? hl
  have hoperand := h.operand hp
  unfold Listed.OperandOk at hoperand
  rw [hpending] at hoperand
  cases hop : l.opcode <;> rw [hop] at hoperand <;> cases hoperand

/-- Code that spells a listing is well-formed. -/
theorem SelfContained.wellFormed {globals n : Nat} {L : List Listed} (h : SelfContained globals n L)
    {chunk : Chunk} {heap : Heap κ} {instructions : List Instruction}
    (hcode : chunk.code.toList = instructions.flatMap Instruction.bytes)
    (hlisted : List.Forall₂ (Listed.Encodes ⟨chunk.constants, heap, True⟩) L instructions) :
    chunk.WellFormed heap globals n instructions (heightsOf L) := by
  refine ⟨hcode, ?_, ?_, fun {p i} hi => ?_, fun {p i} hi => ?_, fun {p i} hi q hq => ?_⟩
  · obtain ⟨front, node, m, rfl⟩ := h.ending
    have hlast := List.forall₂_drop_append _ _ _ hlisted.flip
    have hsuffix := List.drop_suffix front.length instructions
    generalize instructions.drop front.length = last at hlast hsuffix
    cases hlast with
    | cons hnull hrest =>
      cases hrest with
      | cons hret hnil =>
        cases hnil
        rwa [Listed.Encodes.eq_bare hnull rfl, Listed.Encodes.eq_bare hret rfl] at hsuffix
  · obtain ⟨l, hl, hheight⟩ := h.start
    rw [heightsOf_eq hl, hheight]
  all_goals obtain ⟨l, hl, hencodes⟩ := hi.exists_listed hlisted
  all_goals have hoperand := h.operand hl
  all_goals rw [heightsOf_eq hl]
  · rw [hencodes.pops_eq trivial hoperand]
    exact h.pops hl
  · exact hencodes.operandOk hoperand
  · rw [hencodes.targets_eq trivial hoperand] at hq
    obtain ⟨l', hl', hafter⟩ := h.targets hl q hq
    refine ⟨exists_startsAt hlisted hl', ?_⟩
    rw [heightsOf_eq hl', hafter, hencodes.pops_eq trivial hoperand, hencodes.pushes_eq,
      Listed.after]

/-! ## Programs -/

/-- A program that can be compiled with a table of symbols: one whose names are not
resolved, without any symbols, or one whose names have been resolved, with or
without errors. -/
inductive Compilable : Program → SymbolTable → Prop
  | unresolved (program : Program) : Compilable program #[]
  | resolved (hostNames : List String) (program : Program) :
      Compilable (program.resolve hostNames).program (program.resolve hostNames).symbols

/-- Without symbols every name is settled, since none has a slot. -/
theorem settledFrom_zero (front places : List Place) :
    settledFrom 0 0 (fun _ => True) front places := by
  induction places generalizing front with
  | nil => trivial
  | cons p places ih =>
    refine ⟨?_, ih _⟩
    cases p with
    | used name id span => exact fun i _ hlt => absurd hlt (Nat.not_lt_zero i)
    | declared isParam name id span =>
      exact ⟨fun i _ hlt => absurd hlt (Nat.not_lt_zero i), fun _ => trivial⟩
    | assigned assignable span => cases assignable <;> trivial
    | opening => trivial
    | closing => trivial

theorem Compilable.transcribed {program : Program} {symbols : SymbolTable}
    (h : Compilable program symbols) {heap : Heap κ} (hheap : heap.WF) :
    ∃ fns, program.Transcribed symbols.globalCount symbols.size (fun _ => True) heap symbols
      (program.compile heap symbols) fns := by
  have hQ : Tolerant fun _ => True := fun _ _ _ => trivial
  cases h with
  | unresolved =>
    have hsettled : program.Settled 0 0 fun _ => True :=
      ⟨fun _ _ i _ hlt => absurd hlt (Nat.not_lt_zero i),
        fun decl _ => Decl.settled_of_places (settledFrom_zero [] decl.places)⟩
    exact Program.compile_transcribed hQ hsettled (Nat.zero_le _) (fun h => by simp at h) hheap
  | resolved hostNames program =>
    have hresolves := program.resolve_resolves hostNames
    have hcount := SymbolTable.globalCount_of_kinds hresolves.globals_le hresolves.kind
    rw [hcount]
    exact Program.compile_transcribed hQ (hresolves.settled (.inl ⟨trivial, trivial⟩))
      hresolves.globals_le hresolves.kind hheap

/-- At a handle there is a function with well-formed code, whose instructions are
those of a listing, in which no jump has been left open. -/
def Heap.WellFormed (heap : Heap κ) (globals : Nat) (handle : Handle) (name : String) (arity : Nat)
    (L : List Listed) : Prop :=
  ∃ (chunk : Chunk) (instructions : List Instruction) (height : Nat → Nat),
    heap.get handle = .ok (.function ⟨name, arity, chunk⟩) ∧
      chunk.WellFormed heap globals arity instructions height ∧
        List.Forall₂ (Listed.Encodes ⟨chunk.constants, heap, True⟩) L instructions ∧
          ∀ l ∈ L, l.operand ≠ .pending

theorem Heap.Transcribes.wellFormed {heap : Heap κ} {exact : Prop} {handle : Handle} {name : String}
    {arity globals : Nat} {L : List Listed} (h : heap.Transcribes exact handle name arity L)
    (hheap : heap.WF) (hexact : exact) (hL : SelfContained globals arity L) :
    heap.WellFormed globals handle name arity L := by
  obtain ⟨chunk, hget, hchunk⟩ := h
  have hcode : Spells ⟨chunk.constants, heap, True⟩ L chunk.code.toList :=
    (hchunk.kept (.refl hheap) fun _ => hexact).code
  obtain ⟨instructions, hlisted, hcode⟩ := hcode.exists_instructions
  exact ⟨chunk, instructions, heightsOf L, hget, hL.wellFormed hcode hlisted, hlisted, hL.closed⟩

/-- A program that compiles without errors has well-formed code: its script and all its
functions. -/
theorem Program.compile_wellFormed {program : Program} {symbols : SymbolTable}
    (h : Compilable program symbols) {heap : Heap κ} (hheap : heap.WF)
    (herrors : (program.compile heap symbols).errors = []) :
    let c := program.compile heap symbols
    let globals := c.symbols.globalCount
    ∃ fns : List (FnDecl × Handle), fns.map Prod.fst = program.fns ∧
      c.heap.WellFormed globals c.script "script" 0 (program.listed globals symbols.size fns) ∧
      ∀ fn ∈ fns, c.heap.WellFormed globals fn.2 fn.1.name fn.1.params.length
        (fn.1.listed globals symbols.size) := by
  obtain ⟨fns, hfns⟩ := h.transcribed hheap
  have hglobals := SymbolTable.globalCount_eq (program.compile_kinds heap symbols)
  dsimp only
  rw [hglobals]
  exact ⟨fns, hfns.decls, hfns.script.wellFormed hfns.kept.wf herrors
    (program.listed_selfContained _ _ fns),
    fun fn hfn => (hfns.functions fn hfn).wellFormed hfns.kept.wf herrors
      (fn.1.listed_selfContained _ _)⟩

/-- A program with locals, a conditional and a call. -/
def eitherWay : String :=
  "fn main() { var x = true; if (x) { var y = !x; print y; } else { x = not(x); } }\n" ++
    "fn not(b) { return b or !b; }"

/-- The theorem applies: a resolved program compiles without errors. -/
theorem compile_wellFormed_demo : ∃ (program : Program) (fns : List (FnDecl × Handle)),
    Program.ofSource "demo" eitherWay = .ok program ∧
    let r := program.resolve ["clock"]
    let c := r.program.compile ({} : Heap Empty) r.symbols
    c.errors = [] ∧ fns.map Prod.fst = r.program.fns ∧
      c.heap.WellFormed c.symbols.globalCount c.script "script" 0
        (r.program.listed c.symbols.globalCount r.symbols.size fns) := by
  have hok : (match Program.ofSource "demo" eitherWay with
      | .ok program =>
        let r := program.resolve ["clock"]
        (r.program.compile ({} : Heap Empty) r.symbols).errors.isEmpty
      | .error _ => false) = true := by decide +kernel
  split at hok
  · next program hprogram =>
    have herrors := List.isEmpty_iff.1 hok
    obtain ⟨fns, hfns, hscript, -⟩ :=
      Program.compile_wellFormed (.resolved ["clock"] program) Heap.WF.empty herrors
    exact ⟨program, fns, hprogram, herrors, hfns, hscript⟩
  · cases hok

end ScriptMachine
