import Mathlib.Data.List.Basic
import ScriptMachine.Chunk.Listing

/-!
# Listings go over code as execution reads it

Code of any bytes can be read from its start to its end, one instruction after the
other, as `Chunk.fetch` reads them (`Chunk.Sweeps`). A byte that is no opcode stands
alone, and an instruction that breaks off, or names what is not there, takes as many
bytes as its opcode asks for. A listing has one line for each of the offsets where
something is read (`Sweeps.exists_lines`). What stands on the line of an instruction is
said column by column (`Chunk.Prints`), and what stands on any line by what is read at its
offset (`Chunk.Lists`).
-/

namespace ScriptMachine

variable {κ : Type}

namespace Opcode

/-! ## Operands -/

/-- The opcodes that are followed by a count or a slot, in one byte. -/
def counted : List Opcode := [.popN, .getLocal, .setLocal, .getGlobal, .setGlobal, .makeList, .call]

/-- The opcodes that are followed by a distance, in two bytes. -/
def jumps : List Opcode := [.jump, .jumpIfFalse, .jumpIfTrue]

/-- How many operand bytes there are: the index of a constant takes one, and the index of a
name and a count of arguments take two. -/
def operandBytes (op : Opcode) : Nat :=
  if op = .constant ∨ op ∈ counted then 1 else if op = .invoke ∨ op ∈ jumps then 2 else 0

theorem layout_width (op : Opcode) : op.layout.width = op.operandBytes := by cases op <;> decide

theorem layout_eq_constant {op : Opcode} : op.layout = .constant ↔ op = .constant := by
  cases op <;> decide

theorem layout_eq_method {op : Opcode} : op.layout = .method ↔ op = .invoke := by
  cases op <;> decide

theorem layout_eq_byte {op : Opcode} : op.layout = .byte ↔ op ∈ counted := by cases op <;> decide

theorem layout_eq_distance {op : Opcode} : op.layout = .distance ↔ op ∈ jumps := by
  cases op <;> decide

/-- What the opcodes are called, in the order of their bytes. -/
def mnemonics : List String :=
  ["CONSTANT", "NULL", "TRUE", "FALSE", "POP", "POP_N",
    "GET_LOCAL", "SET_LOCAL", "GET_GLOBAL", "SET_GLOBAL",
    "ADD", "SUB", "MUL", "DIV", "FLOOR_DIV", "MOD",
    "EQUAL", "NOT_EQUAL", "LESS", "LESS_EQUAL", "GREATER", "GREATER_EQUAL",
    "NEGATE", "NOT", "LIST", "GET_INDEX", "SET_INDEX",
    "JUMP", "JUMP_IF_FALSE", "JUMP_IF_TRUE", "CALL", "INVOKE", "RETURN", "PRINT"]

/-- An opcode is called so. -/
def Called (op : Opcode) (name : String) : Prop := mnemonics[op.toByte.toNat]? = some name

theorem called_name (op : Opcode) : op.Called op.name := by cases op <;> rfl

end Opcode

namespace Instruction

/-- Where a jump leads: behind its own three bytes, as far as both operand bytes say. -/
def target (i : Instruction) (p : Nat) : Nat := p + 3 + (256 * i.first.toNat + i.second.toNat)

theorem target_eq {i : Instruction} (h : i.opcode ∈ Opcode.jumps) (p : Nat) :
    i.target p = p + i.length + i.distance := by
  rw [target, length, Opcode.layout_eq_distance.2 h, distance, Chunk.wordOf, Layout.width]

end Instruction

namespace Chunk

/-! ## Reading on -/

/-- Reading at an offset leads on to the next one. -/
inductive ReadsOn (chunk : Chunk) (p : Nat) : Nat → Prop
  /-- Behind an instruction the next one is read. -/
  | instruction {next : Nat} {i : Instruction} (h : chunk.fetch p = .instruction i next) :
      ReadsOn chunk p next
  /-- A byte that is no opcode stands alone. -/
  | unknown {next : Nat} {byte : UInt8}
      (h : chunk.fetch p = .fault (.unknownOpcode byte) next) : ReadsOn chunk p next
  /-- An instruction that cannot be fetched takes all the same as many bytes as its
  opcode asks for. -/
  | incomplete {ip : Nat} {fault : FetchFault} {op : Opcode}
      (h : chunk.fetch p = .fault fault ip)
      (hop : chunk.code[p]?.bind Opcode.ofByte? = some op) :
      ReadsOn chunk p (p + 1 + op.operandBytes)

/-- Reading the code from an offset to its end, something is read at these offsets. -/
inductive Sweeps (chunk : Chunk) : Nat → List Nat → Prop
  | done {p : Nat} (h : chunk.code.size ≤ p) : Sweeps chunk p []
  | step {p next : Nat} {offsets : List Nat} (h : chunk.ReadsOn p next)
      (hrest : Sweeps chunk next offsets) : Sweeps chunk p (p :: offsets)

section Fetch

variable {chunk : Chunk} {p next : Nat} {byte : UInt8}

theorem byteAt_eq (h : chunk.code[p]? = some byte) : chunk.byteAt p = byte := by
  rw [byteAt, h, Option.getD_some]

theorem code_of_fetch {i : Instruction} (h : chunk.fetch p = .instruction i next) :
    ∃ byte, chunk.code[p]? = some byte ∧ Opcode.ofByte? byte = some i.opcode := by
  unfold fetch at h
  grind

/-- What is fetched is what a listing finds. -/
theorem instructionAt?_of_fetch {i : Instruction} (h : chunk.fetch p = .instruction i next) :
    chunk.instructionAt? p = some i ∧ next = p + i.length := by
  obtain ⟨byte, hcode, hop⟩ := code_of_fetch h
  unfold fetch at h
  rw [hcode] at h
  dsimp only at h
  rw [hop] at h
  rw [instructionAt?, byteAt_eq hcode, hop, Option.map_some, Instruction.length]
  cases hlayout : i.opcode.layout <;> simp only [hlayout, Layout.width] at h ⊢ <;> grind [byteAt]

theorem code_of_unknown (h : chunk.fetch p = .fault (.unknownOpcode byte) next) :
    chunk.code[p]? = some byte ∧ Opcode.ofByte? byte = none ∧ next = p + 1 := by
  unfold fetch at h
  grind

theorem fetch_of_unknown (hcode : chunk.code[p]? = some byte) (hop : Opcode.ofByte? byte = none) :
    chunk.fetch p = .fault (.unknownOpcode byte) (p + 1) := by
  rw [fetch, hcode]
  dsimp only
  rw [hop]

namespace ReadsOn

theorem exists_readsOn (hlt : p < chunk.code.size) : ∃ next, p < next ∧ chunk.ReadsOn p next := by
  have hcode := Array.getElem?_eq_getElem hlt
  cases hop : Opcode.ofByte? chunk.code[p] with
  | none => exact ⟨p + 1, Nat.lt_succ_self p, .unknown (fetch_of_unknown hcode hop)⟩
  | some op =>
    cases hfetch : chunk.fetch p with
    | instruction i next => exact ⟨next, (lt_next_of_fetch hfetch).1, .instruction hfetch⟩
    | fault fault ip =>
      exact ⟨p + 1 + op.operandBytes, by omega,
        .incomplete hfetch (by rw [hcode, Option.bind_some, hop])⟩

theorem lt_size (h : chunk.ReadsOn p next) : p < chunk.code.size := by
  have hcode : ∃ byte, chunk.code[p]? = some byte := by
    cases h with
    | instruction h => exact (code_of_fetch h).imp fun _ h => h.1
    | unknown h => exact ⟨_, (code_of_unknown h).1⟩
    | incomplete _ hop => exact (Option.bind_eq_some_iff.1 hop).imp fun _ h => h.1
  obtain ⟨byte, hcode⟩ := hcode
  exact (Array.getElem?_eq_some_iff.1 hcode).1

end ReadsOn

end Fetch

/-! ## What is printed -/

/-- A number in four places, with a character before it where it is shorter. -/
def fourPlaces (fill : Char) (n : Nat) : String :=
  String.ofList (List.replicate (4 - (toString n).length) fill) ++ toString n

/-- A name in sixteen places. -/
def sixteenPlaces (name : String) : String :=
  name ++ String.ofList (List.replicate (16 - name.length) ' ')

/-- A line begins with the offset, and with the source line or, where the byte before has
the same one, with a bar. -/
inductive PrintsHead (chunk : Chunk) (p : Nat) : String → Prop
  | bar (hp : 0 < p) (hline : chunk.lineAt p = chunk.lineAt (p - 1)) :
      PrintsHead chunk p (fourPlaces '0' p ++ " " ++ "   | ")
  | line (hline : p = 0 ∨ chunk.lineAt p ≠ chunk.lineAt (p - 1)) :
      PrintsHead chunk p (fourPlaces '0' p ++ " " ++ (fourPlaces ' ' (chunk.lineAt p) ++ " "))

/-- The constant at an index is printed, or a question mark where there is none. -/
inductive Quotes (chunk : Chunk) (heap : Heap κ) (index : UInt8) : String → Prop
  | constant {value : Value} (h : chunk.constants[index.toNat]? = some value) :
      Quotes chunk heap index (heap.display value)
  | missing (h : chunk.constants.size ≤ index.toNat) : Quotes chunk heap index "?"

/-- Of an instruction, the name of the opcode and the operands are printed: a count or slot; a
constant; the offset of a jump and where it leads; or a count of arguments and the name of
a method. -/
inductive PrintsText (chunk : Chunk) (heap : Heap κ) (p : Nat) (i : Instruction) : String → Prop
  | bare {name : String} (hname : i.opcode.Called name) (hop : i.opcode.operandBytes = 0) :
      PrintsText chunk heap p i name
  | count {name : String} (hname : i.opcode.Called name) (hop : i.opcode ∈ Opcode.counted) :
      PrintsText chunk heap p i (sixteenPlaces name ++ " " ++ fourPlaces ' ' i.first.toNat)
  | constant {name text : String} (hname : i.opcode.Called name) (hop : i.opcode = .constant)
      (htext : chunk.Quotes heap i.first text) :
      PrintsText chunk heap p i
        (sixteenPlaces name ++ " " ++ fourPlaces ' ' i.first.toNat ++ " '" ++ text ++ "'")
  | jump {name : String} (hname : i.opcode.Called name) (hop : i.opcode ∈ Opcode.jumps) :
      PrintsText chunk heap p i (sixteenPlaces name ++ " " ++ fourPlaces ' ' p ++ " -> " ++
        toString (i.target p))
  | invoke {name text : String} (hname : i.opcode.Called name) (hop : i.opcode = .invoke)
      (htext : chunk.Quotes heap i.first text) :
      PrintsText chunk heap p i (sixteenPlaces name ++ " (" ++ toString i.second.toNat ++
        " args) " ++ fourPlaces ' ' i.first.toNat ++ " '" ++ text ++ "'")

/-- The line that is printed of an instruction at an offset. -/
def Prints (chunk : Chunk) (heap : Heap κ) (p : Nat) (i : Instruction) (line : String) : Prop :=
  ∃ head text, chunk.PrintsHead p head ∧ chunk.PrintsText heap p i text ∧
    line = head ++ text ++ "\n"

/-- The line that is printed at an offset of any code. -/
inductive Lists (chunk : Chunk) (heap : Heap κ) (p : Nat) : String → Prop
  /-- An instruction that is fetched is printed. -/
  | instruction {i : Instruction} {next : Nat} {line : String}
      (h : chunk.fetch p = .instruction i next) (hline : chunk.Prints heap p i line) :
      Lists chunk heap p line
  /-- A byte that is no opcode is printed as a number. -/
  | unknown {byte : UInt8} {next : Nat} {head : String}
      (h : chunk.fetch p = .fault (.unknownOpcode byte) next) (hhead : chunk.PrintsHead p head) :
      Lists chunk heap p (head ++ ("<unknown " ++ toString byte.toNat ++ ">") ++ "\n")
  /-- An instruction that cannot be fetched is printed with zero for operand bytes. -/
  | incomplete {ip : Nat} {fault : FetchFault} {i : Instruction} {line : String}
      (h : chunk.fetch p = .fault fault ip)
      (hop : chunk.code[p]?.bind Opcode.ofByte? = some i.opcode)
      (hfirst : chunk.code[p + 1]? = some i.first ∨ i.first = 0)
      (hsecond : chunk.code[p + 2]? = some i.second ∨ i.second = 0)
      (hline : chunk.Prints heap p i line) : Lists chunk heap p line

section Printed

variable (chunk : Chunk) (heap : Heap κ) (p : Nat)

theorem printsHead : chunk.PrintsHead p (chunk.lineHead p) := by
  unfold lineHead
  dsimp only
  split
  · next h => exact .bar h.1 h.2
  · next h => exact .line (by omega)

theorem quotes (index : UInt8) : chunk.Quotes heap index (chunk.constantText heap index) := by
  unfold constantText
  split
  · next h => exact .constant h
  · next h => exact .missing (Array.getElem?_eq_none_iff.1 h)

theorem printsText (i : Instruction) :
    chunk.PrintsText heap p i (chunk.instructionText heap p i) := by
  have hname := i.opcode.called_name
  unfold instructionText
  cases hlayout : i.opcode.layout with
  | bare => exact .bare hname (by rw [← Opcode.layout_width, hlayout, Layout.width])
  | byte => exact .count hname (Opcode.layout_eq_byte.1 hlayout)
  | constant => exact .constant hname (Opcode.layout_eq_constant.1 hlayout) (chunk.quotes heap _)
  | distance =>
    have hop := Opcode.layout_eq_distance.1 hlayout
    dsimp only
    rw [jumpTarget, ← Instruction.target_eq hop]
    exact .jump hname hop
  | method => exact .invoke hname (Opcode.layout_eq_method.1 hlayout) (chunk.quotes heap _)

theorem prints (i : Instruction) :
    chunk.Prints heap p i (chunk.lineHead p ++ chunk.instructionText heap p i ++ "\n") :=
  ⟨_, _, chunk.printsHead p, chunk.printsText heap p i, rfl⟩

end Printed

/-! ## The lines of a listing -/

section Listing

variable {chunk : Chunk} {p next : Nat} {offsets : List Nat}

theorem listingLine_of_fetch {i : Instruction} (h : chunk.fetch p = .instruction i next)
    (heap : Heap κ) : chunk.listingLine heap p =
      (chunk.lineHead p ++ chunk.instructionText heap p i ++ "\n", i.length) := by
  rw [listingLine, (instructionAt?_of_fetch h).1]

theorem instructionAt?_of_unknown {byte : UInt8}
    (h : chunk.fetch p = .fault (.unknownOpcode byte) next) : chunk.instructionAt? p = none := by
  obtain ⟨hcode, hop, -⟩ := code_of_unknown h
  rw [instructionAt?, byteAt_eq hcode, hop, Option.map_none]

/-- Where the opcode is known, a listing finds an instruction with operand bytes that are
there, or zero. -/
theorem exists_instructionAt? {op : Opcode}
    (hop : chunk.code[p]?.bind Opcode.ofByte? = some op) :
    ∃ i, chunk.instructionAt? p = some i ∧ i.opcode = op ∧
      (chunk.code[p + 1]? = some i.first ∨ i.first = 0) ∧
        (chunk.code[p + 2]? = some i.second ∨ i.second = 0) := by
  obtain ⟨byte, hcode, hop⟩ := Option.bind_eq_some_iff.1 hop
  have hbyte (q : Nat) : chunk.code[q]? = some (chunk.byteAt q) ∨ chunk.byteAt q = 0 := by
    unfold byteAt
    cases chunk.code[q]? with
    | none => exact .inr rfl
    | some byte => exact .inl rfl
  rw [instructionAt?, byteAt_eq hcode, hop, Option.map_some]
  refine ⟨_, rfl, ?_⟩
  cases op.layout with
  | bare => exact ⟨rfl, .inr rfl, .inr rfl⟩
  | byte => exact ⟨rfl, hbyte _, .inr rfl⟩
  | constant => exact ⟨rfl, hbyte _, .inr rfl⟩
  | method => exact ⟨rfl, hbyte _, hbyte _⟩
  | distance =>
    dsimp only
    split
    · next first second hfirst hsecond => exact ⟨rfl, .inl hfirst, .inl hsecond⟩
    · exact ⟨rfl, .inr rfl, .inr rfl⟩

/-- What a listing says at an offset is about what is read there. -/
theorem ReadsOn.lists (h : chunk.ReadsOn p next) (heap : Heap κ) :
    chunk.Lists heap p (chunk.listingLine heap p).1 := by
  cases h with
  | instruction h =>
    rw [listingLine_of_fetch h]
    exact .instruction h (chunk.prints heap p _)
  | @unknown next byte h =>
    have hline : (chunk.listingLine heap p).1 =
        chunk.lineHead p ++ ("<unknown " ++ toString byte.toNat ++ ">") ++ "\n" := by
      have hend : ">\n" = ">" ++ "\n" := rfl
      rw [listingLine, instructionAt?_of_unknown h, byteAt_eq (code_of_unknown h).1, hend]
      simp only [String.append_assoc]
      rfl
    rw [hline]
    exact .unknown h (chunk.printsHead p)
  | incomplete h hop =>
    obtain ⟨i, hat, rfl, hfirst, hsecond⟩ := exists_instructionAt? hop
    rw [listingLine, hat]
    exact .incomplete h hop hfirst hsecond (chunk.prints heap p i)

/-- A listing goes on by as many bytes as the opcode asks for. -/
theorem listingLine_length {op : Opcode} (hop : chunk.code[p]?.bind Opcode.ofByte? = some op)
    (heap : Heap κ) : (chunk.listingLine heap p).2 = 1 + op.operandBytes := by
  obtain ⟨i, hat, rfl, -⟩ := exists_instructionAt? hop
  rw [listingLine, hat, ← Opcode.layout_width]
  rfl

/-- A listing goes on where reading goes on. -/
theorem ReadsOn.eq_listingLine (h : chunk.ReadsOn p next) (heap : Heap κ) :
    next = p + (chunk.listingLine heap p).2 := by
  cases h with
  | instruction h =>
    rw [listingLine_of_fetch h]
    exact (instructionAt?_of_fetch h).2
  | unknown h =>
    rw [listingLine, instructionAt?_of_unknown h]
    exact (code_of_unknown h).2.2
  | incomplete _ hop => rw [listingLine_length hop, Nat.add_assoc]

namespace Sweeps

theorem exists_sweeps (chunk : Chunk) (p : Nat) : ∃ offsets, chunk.Sweeps p offsets := by
  -- By induction on what lies behind the offset.
  induction hleft : chunk.code.size - p using Nat.strongRecOn generalizing p with
  | _ left ih =>
    subst hleft
    by_cases hend : chunk.code.size ≤ p
    · exact ⟨[], .done hend⟩
    · obtain ⟨next, hlt, hnext⟩ := ReadsOn.exists_readsOn (Nat.lt_of_not_le hend)
      obtain ⟨offsets, hrest⟩ := ih _ (by omega) next rfl
      exact ⟨p :: offsets, .step hnext hrest⟩

/-- Nothing is read out of range. -/
theorem lt_size (h : chunk.Sweeps p offsets) : ∀ q ∈ offsets, q < chunk.code.size := by
  induction h with
  | done => exact fun q hq => absurd hq List.not_mem_nil
  | step h _ ih => exact List.forall_mem_cons.2 ⟨h.lt_size, ih⟩

theorem listingFrom_eq (h : chunk.Sweeps p offsets) (heap : Heap κ) (out : String) :
    chunk.listingFrom heap p out =
      out ++ String.join (offsets.map fun q => (chunk.listingLine heap q).1) := by
  induction h generalizing out with
  | done h =>
    rw [listingFrom, if_neg (Nat.not_lt.2 h), List.map_nil, String.join_nil, String.append_empty]
  | step h _ ih =>
    rw [listingFrom, if_pos h.lt_size]
    dsimp only
    rw [← h.eq_listingLine heap, ih, List.map_cons, String.join_cons, String.append_assoc]

theorem lists (h : chunk.Sweeps p offsets) (heap : Heap κ) :
    List.Forall₂ (chunk.Lists heap) offsets
      (offsets.map fun q => (chunk.listingLine heap q).1) := by
  induction h with
  | done => exact .nil
  | step h _ ih => exact .cons (h.lists heap) ih

theorem listing_eq (h : chunk.Sweeps 0 offsets) (heap : Heap κ) (title : String) :
    chunk.listing heap title = "== " ++ title ++ " ==\n" ++
      String.join (offsets.map fun q => (chunk.listingLine heap q).1) :=
  h.listingFrom_eq heap _

/-- A listing has a title and one line for each offset where something is read. -/
theorem exists_lines (h : chunk.Sweeps 0 offsets) (heap : Heap κ) (title : String) :
    ∃ lines, chunk.listing heap title = "== " ++ title ++ " ==\n" ++ String.join lines ∧
      List.Forall₂ (chunk.Lists heap) offsets lines :=
  ⟨_, h.listing_eq heap title, h.lists heap⟩

end Sweeps

end Listing

end Chunk

end ScriptMachine
