import ScriptMachine.Proofs.Chunk.Lines
import ScriptMachine.Proofs.Codegen.Listing
import ScriptMachine.Proofs.Codegen.Placement

/-!
# Code that spells a listing

Bytes spell a listing (`Spells`) if they are those of its instructions, one after
the other, and the operand bytes stand for what the listing says. Slots and the
sizes of batches of pops are there in any case; constants, counts, names and
distances only where no error has been reported, since code generation puts zero
or leaves a jump alone otherwise. An instruction is fetched where its bytes stand
(`Chunk.fetch_of_bytes`).
-/

namespace ScriptMachine

variable {κ : Type}

/-! ## Bytes of instructions -/

namespace Instruction

/-- The bytes of an instruction. -/
def bytes (i : Instruction) : List UInt8 :=
  i.opcode.toByte :: [i.first, i.second].take i.opcode.layout.width

theorem length_bytes (i : Instruction) : i.bytes.length = i.length := by
  rw [bytes, length]
  cases i.opcode.layout <;> rfl

section Widths

variable {op : Opcode} (first second : UInt8)

theorem bytes_bare (h : op.layout.width = 0) : (mk op first second).bytes = [op.toByte] := by
  simp [bytes, h]

theorem bytes_one (h : op.layout.width = 1) : (mk op first second).bytes = [op.toByte, first] := by
  simp [bytes, h]

theorem bytes_two (h : op.layout.width = 2) :
    (mk op first second).bytes = [op.toByte, first, second] := by
  simp [bytes, h]

end Widths

end Instruction

/-! ## What operand bytes stand for -/

/-- What operand bytes are read against: the constants of the function, the heap
on which its names live, and whether everything has been generated without an
error. -/
structure Backing (κ : Type) where
  constants : Array Value
  heap : Heap κ
  exact : Prop

/-- A backing that comes later. -/
structure Backing.Keeps (b b' : Backing κ) : Prop where
  constants : ∀ {i : Nat} {value}, b.constants[i]? = some value → b'.constants[i]? = some value
  heap : b.heap.Kept b'.heap
  exact : b'.exact → b.exact

theorem Backing.Keeps.trans {b b' b'' : Backing κ} (h : b.Keeps b') (h' : b'.Keeps b'') :
    b.Keeps b'' :=
  ⟨fun hvalue => h'.constants (h.constants hvalue), h.heap.trans h'.heap,
    fun he => h.exact (h'.exact he)⟩

/-- The constant at an index is the name of a method. -/
def Backing.Names (b : Backing κ) (index : UInt8) (name : String) : Prop :=
  ∃ handle, b.constants[index.toNat]? = some (.object handle) ∧ b.heap.get handle = .ok
    (.string name)

theorem Backing.Names.keeps {b b' : Backing κ} {index : UInt8} {name : String}
    (h : b.Names index name) (hb : b.Keeps b') : b'.Names index name := by
  obtain ⟨handle, hconstant, hget⟩ := h
  exact ⟨handle, hb.constants hconstant, hb.heap.get hget (by simp [Object.kind])⟩

/-- The operand bytes are those of an operand. -/
def Operand.Stands (b : Backing κ) (first second : UInt8) : Operand → Prop
  | .none | .pending => True
  | .missing => ¬b.exact
  | .byte n => first.toNat = n
  | .constant value => b.exact → b.constants[first.toNat]? = some value
  | .count n => b.exact → first.toNat = n
  | .method name size => b.exact → second.toNat = size ∧ b.Names first name
  | .distance n => b.exact → Chunk.wordOf first second = n

theorem Operand.Stands.keeps {b b' : Backing κ} {first second : UInt8} {operand : Operand}
    (h : operand.Stands b first second) (hb : b.Keeps b') : operand.Stands b' first second := by
  cases operand with
  | none | pending | byte n => exact h
  | missing => exact fun he => h (hb.exact he)
  | constant value => exact fun he => hb.constants (h (hb.exact he))
  | count n | distance n => exact fun he => h (hb.exact he)
  | method name size => exact fun he => ⟨(h (hb.exact he)).1, (h (hb.exact he)).2.keeps hb⟩

/-- An instruction is the one that is listed. Operand bytes that it does not have
are zero. -/
structure Listed.Encodes (b : Backing κ) (l : Listed) (i : Instruction) : Prop where
  opcode : i.opcode = l.opcode
  operand : l.operand.Stands b i.first i.second
  first : i.opcode.layout.width = 0 → i.first = 0
  second : i.opcode.layout.width ≤ 1 → i.second = 0

theorem Listed.Encodes.keeps {b b' : Backing κ} {l : Listed} {i : Instruction}
    (h : l.Encodes b i) (hb : b.Keeps b') : l.Encodes b' i :=
  ⟨h.opcode, h.operand.keeps hb, h.first, h.second⟩

theorem Listed.Encodes.length_eq {b : Backing κ} {l : Listed} {i : Instruction}
    (h : l.Encodes b i) : i.length = l.size := by
  rw [Instruction.length, h.opcode, Listed.size]

/-! ## Spelling -/

/-- The bytes of listed instructions one after the other. -/
inductive Spells (b : Backing κ) : List Listed → List UInt8 → Prop
  | nil : Spells b [] []
  | cons {l : Listed} {i : Instruction} {L : List Listed} {bytes : List UInt8}
      (h : l.Encodes b i) (hrest : Spells b L bytes) : Spells b (l :: L) (i.bytes ++ bytes)

namespace Spells

variable {b b' : Backing κ} {L L' : List Listed} {bytes bytes' : List UInt8}

theorem single {l : Listed} {i : Instruction} (h : l.Encodes b i) : Spells b [l] i.bytes := by
  have hsingle := cons h nil
  rwa [List.append_nil] at hsingle

theorem append (h : Spells b L bytes) (h' : Spells b L' bytes') :
    Spells b (L ++ L') (bytes ++ bytes') := by
  induction h with
  | nil => exact h'
  | cons hl _ ih =>
    rw [List.append_assoc]
    exact .cons hl ih

theorem keeps (h : Spells b L bytes) (hb : b.Keeps b') : Spells b' L bytes := by
  induction h with
  | nil => exact .nil
  | cons hl _ ih => exact .cons (hl.keeps hb) ih

theorem length_eq (h : Spells b L bytes) : bytes.length = codeLength L := by
  induction h with
  | nil => rfl
  | cons hl _ ih =>
    rw [List.length_append, Instruction.length_bytes, hl.length_eq, ih, codeLength_cons]

/-- What spells two listings one after the other is in two parts. -/
theorem split (h : Spells b (L ++ L') bytes) :
    ∃ bytes₁ bytes₂, bytes = bytes₁ ++ bytes₂ ∧ Spells b L bytes₁ ∧ Spells b L' bytes₂ := by
  induction L generalizing bytes with
  | nil => exact ⟨[], bytes, rfl, .nil, h⟩
  | cons l L ih =>
    cases h with
    | cons hl hrest =>
      obtain ⟨bytes₁, bytes₂, rfl, h₁, h₂⟩ := ih hrest
      exact ⟨_, bytes₂, (List.append_assoc _ _ _).symm, .cons hl h₁, h₂⟩

/-- The instruction at an offset of a listing. -/
theorem exists_of_listedAt? (h : Spells b L bytes) {p : Nat} {l : Listed}
    (hl : listedAt? L p = some l) :
    ∃ i front back, l.Encodes b i ∧ bytes = front ++ (i.bytes ++ back) ∧ front.length = p := by
  induction h generalizing p with
  | nil => cases hl
  | @cons l' i L bytes hencodes hrest ih =>
    rw [listedAt?] at hl
    split at hl
    · next hzero =>
      cases hl
      exact ⟨i, [], bytes, hencodes, rfl, hzero.symm⟩
    · split at hl
      · cases hl
      · next hle =>
        obtain ⟨j, front, back, hj, rfl, hlength⟩ := ih hl
        refine ⟨j, i.bytes ++ front, back, hj, (List.append_assoc _ _ _).symm, ?_⟩
        rw [List.length_append, Instruction.length_bytes, hencodes.length_eq, hlength]
        omega

end Spells

/-! ## Fetching -/

/-- An instruction is fetched where its bytes stand. -/
theorem Chunk.fetch_of_bytes {chunk : Chunk} {i : Instruction} {front back : List UInt8}
    (hcode : chunk.code.toList = front ++ (i.bytes ++ back))
    (hfirst : i.opcode.layout.width = 0 → i.first = 0)
    (hsecond : i.opcode.layout.width ≤ 1 → i.second = 0)
    (hname : i.opcode.layout = .method → i.first.toNat < chunk.constants.size) :
    chunk.fetch front.length = .instruction i (front.length + i.length) := by
  obtain ⟨op, first, second⟩ := i
  have hget : ∀ j, chunk.code[front.length + j]? =
    ((Instruction.mk op first second).bytes ++ back)[j]? := by
    intro j
    rw [← Array.getElem?_toList, hcode, List.getElem?_append_right (Nat.le_add_right _ _),
      Nat.add_sub_cancel_left]
  have hop : chunk.code[front.length]? = some op.toByte := hget 0
  have hwidth : op.layout.width = 0 ∨ op.layout.width = 1 ∨ op.layout.width = 2 := by
    cases op.layout <;> simp [Layout.width]
  have hget₁ := hget 1
  have hget₂ := hget 2
  dsimp only [Instruction.length, Instruction.bytes] at hfirst hsecond hname hget₁ hget₂ ⊢
  rcases hwidth with hwidth | hwidth | hwidth <;> rw [hwidth] at hfirst hsecond hget₁ hget₂ ⊢
  · cases hfirst rfl
    cases hsecond (Nat.zero_le _)
    exact Chunk.fetch_bare hop hwidth
  · cases hsecond (Nat.le_refl _)
    exact Chunk.fetch_byte hop hget₁ hwidth
  · exact Chunk.fetch_two hop hget₁ hget₂ hwidth hname

end ScriptMachine
