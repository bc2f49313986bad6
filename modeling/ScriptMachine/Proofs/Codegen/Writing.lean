import ScriptMachine.Proofs.Codegen.Spelling

/-!
# How a draft grows by a listing

`d.Writes Q σ A L d'` says that a part of code generation has turned the draft `d`
into `d'` by writing the listing `L`: its bytes and its lines come behind what was
there, the symbols `A` have got their slots, only faults in `Q` have been
reported, and afterwards the slots `σ` are taken. This holds whether or not errors
are reported on the way; parts that follow each other write listings that follow
each other (`Draft.Writes.append`), and a jump that was left open is closed behind
what follows it (`Draft.Writes.land`).
-/

namespace ScriptMachine

variable {κ : Type} {Q : CodeFault → Prop} {σ : Slots}

/-! ## Slots in a draft -/

/-- The table in which symbols have got slots, one after the other. -/
def SymbolTable.assign (table : SymbolTable) (assigned : List (SymbolId × Nat)) : SymbolTable :=
  assigned.foldl (fun table a => table.setSlot a.1 a.2) table

theorem SymbolTable.getElem?_setSlot (table : SymbolTable) (i : SymbolId) (slot : Nat)
    (id : SymbolId) : (table.setSlot i slot)[id]? =
      if id = i then table[id]?.map fun symbol => { symbol with slot := some slot }
      else table[id]? := by
  rw [setSlot, Array.getElem?_modify]
  by_cases heq : id = i
  · rw [if_pos heq, if_pos heq.symm]
  · rw [if_neg heq, if_neg (Ne.symm heq)]

/-- A draft that can be gone on with, in which just the slots `σ` are taken. -/
structure Slots.Fits (σ : Slots) (d : Draft κ) : Prop where
  wf : d.heap.WF
  pool : d.chunk.constants.size ≤ maxConstants
  size : d.symbols.size = σ.count
  height : d.height = σ.height
  globalSlot : ∀ {id : SymbolId}, id < σ.globals →
    ∃ symbol, d.symbols[id]? = some symbol ∧ symbol.kind = .global ∧ symbol.slot = some id
  localKind : ∀ {id : SymbolId} {symbol}, σ.globals ≤ id → d.symbols[id]? = some symbol →
    symbol.kind = .local
  localSlot : ∀ {slot : Nat} {id : SymbolId}, σ.locals[slot]? = some (some id) → id < σ.count →
    σ.globals ≤ id ∧ ∃ symbol, d.symbols[id]? = some symbol ∧ symbol.slot = some slot

/-- What is written for a name is the number of something that has a slot, if it
is the number of a symbol at all. -/
def Slots.Knows (σ : Slots) (id : Option SymbolId) : Prop :=
  ∀ i, id = some i → i < σ.count → i < σ.globals ∨ some i ∈ σ.locals

/-- A symbol may become a local: it is not one already, and there is room or the
lack of it may be reported. -/
structure Slots.Admits (σ : Slots) (Q : CodeFault → Prop) (id : Option SymbolId) : Prop where
  fresh : ∀ i, id = some i → i < σ.count → σ.globals ≤ i ∧ some i ∉ σ.locals
  room : σ.height = maxSlots → Q .tooManyLocals

theorem Slots.lt_of_find? (σ : Slots) {id : SymbolId} {place : SymbolKind × Nat}
    (h : σ.find? id = some place) : place.2 < maxSlots := by
  unfold find? at h
  split at h
  · split at h
    · next hlt =>
      cases h
      exact hlt
    · cases h
  · split at h
    · obtain ⟨slot, hslot, rfl⟩ := Option.map_eq_some_iff.1 h
      simpa using (Option.filter_eq_some_iff.1 hslot).2
    · cases h

namespace Slots.Fits

variable {d : Draft κ}

theorem withChunk (h : σ.Fits d) {chunk : Chunk} (hpool : chunk.constants.size ≤ maxConstants) :
    σ.Fits { d with chunk } :=
  ⟨h.wf, hpool, h.size, h.height, h.globalSlot, h.localKind, h.localSlot⟩

theorem withErrors (h : σ.Fits d) (errors : Array CodeError) : σ.Fits { d with errors } :=
  ⟨h.wf, h.pool, h.size, h.height, h.globalSlot, h.localKind, h.localSlot⟩

/-- The slot of a local is unique. -/
theorem idxOf?_eq (h : σ.Fits d) {slot : Nat} {id : SymbolId}
    (hslot : σ.locals[slot]? = some (some id)) (hid : id < σ.count) :
    σ.locals.idxOf? (some id) = some slot := by
  cases hfound : σ.locals.idxOf? (some id) with
  | none => exact absurd (List.mem_of_getElem? hslot) (List.idxOf?_eq_none_iff.1 hfound)
  | some slot' =>
    obtain ⟨hlt, heq, -⟩ := List.idxOf?_eq_some_iff.1 hfound
    obtain ⟨-, symbol, hsymbol, hslot₁⟩ := h.localSlot hslot hid
    obtain ⟨-, symbol', hsymbol', hslot₂⟩ :=
      h.localSlot (List.getElem?_eq_some_iff.2 ⟨hlt, heq⟩) hid
    rw [hsymbol] at hsymbol'
    cases hsymbol'
    rw [← hslot₂, hslot₁]

/-- A draft finds the slots that are taken. -/
theorem slot?_eq (h : σ.Fits d) {id : SymbolId} (hid : σ.Knows (some id)) :
    d.slot? id = (σ.find? id).map fun place => (place.1, place.2.toUInt8) := by
  rcases Nat.lt_or_ge id σ.globals with hglobal | hlocal
  · obtain ⟨⟨_, _, kind, slot⟩, hsymbol, hkind, hslot⟩ := h.globalSlot hglobal
    subst hkind hslot
    rw [find?, if_pos hglobal, Draft.slot?, hsymbol]
    dsimp only
    split <;> rfl
  · rw [find?, if_neg (Nat.not_lt.2 hlocal)]
    rcases Nat.lt_or_ge id σ.count with hlt | hge
    · rw [if_pos hlt]
      obtain ⟨slot, hslot⟩ := List.mem_iff_getElem?.1
        ((hid id rfl hlt).resolve_left (Nat.not_lt.2 hlocal))
      obtain ⟨-, ⟨_, _, kind, _⟩, hsymbol, rfl⟩ := h.localSlot hslot hlt
      obtain rfl : kind = .local := h.localKind hlocal hsymbol
      rw [h.idxOf?_eq hslot hlt, Draft.slot?, hsymbol]
      dsimp only
      split
      · next hroom => simp [hroom]
      · next hroom => simpa using hroom
    · have hnone : d.symbols[id]? = none := by
        rw [Array.getElem?_eq_none_iff, h.size]
        exact hge
      rw [if_neg (Nat.not_lt.2 hge), Draft.slot?, hnone]
      rfl

/-- A local that is live behind one more is live before it, or the one more. -/
theorem locals_declare {σ : Slots} {id id' : Option SymbolId} {slot : Nat}
    (h : (σ.declare id).locals[slot]? = some id') :
    σ.locals[slot]? = some id' ∨ slot = σ.height ∧ id = id' := by
  unfold Slots.declare at h
  unfold Slots.height
  grind

theorem declare_none (h : σ.Fits d) : (σ.declare none).Fits { d with height := d.height + 1 } := by
  refine ⟨h.wf, h.pool, h.size, ?_, h.globalSlot, h.localKind, fun {slot id} hslot hid => ?_⟩
  · rw [height_declare, ← h.height]
  · obtain hslot | ⟨-, hnone⟩ := locals_declare hslot
    · exact h.localSlot hslot hid
    · cases hnone

/-- A symbol that may become a local becomes one. -/
theorem declare (h : σ.Fits d) {i : SymbolId} (hi : σ.Admits Q (some i)) :
    (σ.declare (some i)).Fits
      { d with symbols := d.symbols.setSlot i d.height, height := d.height + 1 } := by
  refine ⟨h.wf, h.pool, ?_, ?_, fun {id} hid => ?_, fun {id symbol} hid hsymbol => ?_,
    fun {slot id} hslot hid => ?_⟩
  · exact (Array.size_modify ..).trans h.size
  · rw [height_declare, ← h.height]
  · obtain ⟨symbol, hsymbol, hkind, hslot⟩ := h.globalSlot hid
    have hlt : id < d.symbols.size := (Array.getElem?_eq_some_iff.1 hsymbol).1
    have hne : id ≠ i := by
      rintro rfl
      exact absurd hid (Nat.not_lt.2 (hi.fresh id rfl (h.size ▸ hlt)).1)
    exact ⟨symbol, by rw [SymbolTable.getElem?_setSlot, if_neg hne, hsymbol], hkind, hslot⟩
  · rw [SymbolTable.getElem?_setSlot] at hsymbol
    split at hsymbol
    · obtain ⟨symbol', hsymbol', rfl⟩ := Option.map_eq_some_iff.1 hsymbol
      have hkind : symbol'.kind = .local := h.localKind hid hsymbol'
      exact hkind
    · exact h.localKind hid hsymbol
  · have hid' : id < σ.count := hid
    rw [SymbolTable.getElem?_setSlot]
    obtain hold | ⟨rfl, heq⟩ := locals_declare hslot
    · obtain ⟨hle, symbol, hsymbol, hat⟩ := h.localSlot hold hid'
      have hne : id ≠ i := by
        rintro rfl
        exact (hi.fresh id rfl hid').2 (List.mem_of_getElem? hold)
      exact ⟨hle, symbol, by rw [if_neg hne, hsymbol], hat⟩
    · obtain rfl : i = id := Option.some.inj heq
      have hlt : i < d.symbols.size := h.size.symm ▸ hid'
      refine ⟨(hi.fresh i rfl hid').1, { d.symbols[i] with slot := some d.height }, ?_, ?_⟩
      · rw [if_pos rfl, Array.getElem?_eq_getElem hlt]
        rfl
      · rw [h.height]

end Slots.Fits

/-! ## Growing by a listing -/

/-- What the operands in a draft are read against. -/
def Draft.backing (d : Draft κ) : Backing κ := ⟨d.chunk.constants, d.heap, d.errors = #[]⟩

/-- The lines of all bytes of a listing. -/
def listedLines (L : List Listed) : List Nat :=
  L.flatMap fun l => List.replicate l.size l.node.line

/-- A draft that has grown by a listing. -/
structure Draft.Writes (Q : CodeFault → Prop) (σ : Slots) (A : List (SymbolId × Nat)) (d : Draft κ)
    (L : List Listed) (d' : Draft κ) : Prop where
  code : ∃ bytes, d'.chunk.code.toList = d.chunk.code.toList ++ bytes ∧ Spells d'.backing L bytes
  lines : d'.chunk.lineTable = d.chunk.lineTable ++ listedLines L
  keeps : d.backing.Keeps d'.backing
  faults : ∀ e ∈ d'.errors, e ∈ d.errors ∨ Q e.fault
  symbols : d'.symbols = d.symbols.assign A
  fits : σ.Fits d'

/-- A draft that has grown by a listing which declares nothing. -/
abbrev Draft.Computes (Q : CodeFault → Prop) (σ : Slots) (d : Draft κ) (L : List Listed)
    (d' : Draft κ) : Prop := d.Writes Q σ [] L d'

/-- Every fault is expected but the two that scoping should rule out. -/
def Tolerant (Q : CodeFault → Prop) : Prop :=
  ∀ fault, fault ≠ .badTarget → fault ≠ .tooManyLocals → Q fault

namespace Draft.Writes

variable {σ' : Slots} {A A' : List (SymbolId × Nat)} {d d' d'' : Draft κ} {L L' : List Listed}

theorem append (h : d.Writes Q σ A L d') (h' : d'.Writes Q σ' A' L' d'') :
    d.Writes Q σ' (A ++ A') (L ++ L') d'' := by
  obtain ⟨bytes, hcode, hspells⟩ := h.code
  obtain ⟨bytes', hcode', hspells'⟩ := h'.code
  refine ⟨⟨bytes ++ bytes', ?_, (hspells.keeps h'.keeps).append hspells'⟩, ?_,
    h.keeps.trans h'.keeps, fun e he => ?_, ?_, h'.fits⟩
  · rw [hcode', hcode, List.append_assoc]
  · rw [h'.lines, h.lines, List.append_assoc, listedLines, listedLines, listedLines,
      List.flatMap_append]
  · rcases h'.faults e he with he | he
    · exact h.faults e he
    · exact .inr he
  · rw [h'.symbols, h.symbols, SymbolTable.assign, SymbolTable.assign, SymbolTable.assign,
      List.foldl_append]

theorem size_eq (h : d.Writes Q σ A L d') :
    d'.chunk.code.size = d.chunk.code.size + codeLength L := by
  obtain ⟨bytes, hcode, hspells⟩ := h.code
  rw [← Array.length_toList, hcode, List.length_append, hspells.length_eq, Array.length_toList]

end Draft.Writes

/-! ## Single instructions -/

/-- The draft with some bytes more, all of one line. -/
def Draft.put (d : Draft κ) (bytes : List UInt8) (line : Nat) : Draft κ :=
  { d with chunk := bytes.foldl (fun chunk byte => chunk.write byte line) d.chunk }

section Put

variable (chunk : Chunk) (bytes : List UInt8) (line : Nat)

theorem Chunk.code_foldl_write :
    (bytes.foldl (fun chunk byte => chunk.write byte line) chunk).code.toList =
      chunk.code.toList ++ bytes := by
  induction bytes generalizing chunk with
  | nil => exact (List.append_nil _).symm
  | cons byte bytes ih =>
    rw [List.foldl_cons, ih, Chunk.write, Array.toList_push, List.append_assoc]
    rfl

theorem Chunk.constants_foldl_write :
    (bytes.foldl (fun chunk byte => chunk.write byte line) chunk).constants = chunk.constants := by
  induction bytes generalizing chunk with
  | nil => rfl
  | cons byte bytes ih => exact ih _

theorem Chunk.lineTable_foldl_write :
    (bytes.foldl (fun chunk byte => chunk.write byte line) chunk).lineTable =
      chunk.lineTable ++ List.replicate bytes.length line := by
  induction bytes generalizing chunk with
  | nil => exact (List.append_nil _).symm
  | cons byte bytes ih =>
    rw [List.foldl_cons, ih, Chunk.lineTable_write, List.append_assoc]
    rfl

end Put

theorem Draft.backing_put (d : Draft κ) (bytes : List UInt8) (line : Nat) :
    (d.put bytes line).backing = d.backing := by
  rw [backing, put, backing, Chunk.constants_foldl_write]

namespace Draft.Computes

variable {d d' d'' : Draft κ} {L L' : List Listed}

theorem append (h : d.Computes Q σ L d') (h' : d'.Computes Q σ L' d'') :
    d.Computes Q σ (L ++ L') d'' := Draft.Writes.append h h'

theorem nil (h : σ.Fits d) : d.Computes Q σ [] d :=
  ⟨⟨[], (List.append_nil _).symm, .nil⟩, (List.append_nil _).symm,
    ⟨fun h => h, .refl h.wf, fun h => h⟩, fun _ he => .inl he, rfl, h⟩

theorem put (h : σ.Fits d) {l : Listed} {i : Instruction} (hi : l.Encodes d.backing i)
    {bytes : List UInt8} (hbytes : i.bytes = bytes) :
    d.Computes Q σ [l] (d.put bytes l.node.line) := by
  subst hbytes
  have hpool : (d.put i.bytes l.node.line).chunk.constants.size ≤ maxConstants := by
    rw [Draft.put, Chunk.constants_foldl_write]
    exact h.pool
  refine ⟨⟨i.bytes, Chunk.code_foldl_write .., ?_⟩, ?_, ?_, fun e he => .inl he, rfl,
    h.withChunk hpool⟩
  · rw [Draft.backing_put]
    exact .single hi
  · have hlines := Chunk.lineTable_foldl_write d.chunk i.bytes l.node.line
    rw [Instruction.length_bytes, hi.length_eq] at hlines
    rw [Draft.put, hlines]
    simp [listedLines]
  · rw [Draft.backing_put]
    exact ⟨fun hvalue => hvalue, .refl h.wf, fun he => he⟩

theorem emit (h : σ.Fits d) {op : Opcode} (hop : op.layout = .bare) (node : Node) (n : Nat) :
    d.Computes Q σ [⟨op, .none, node, n⟩] (emit op node.line d).2 := by
  have hi : Listed.Encodes d.backing ⟨op, .none, node, n⟩ ⟨op, 0, 0⟩ :=
    ⟨rfl, trivial, fun _ => rfl, fun _ => rfl⟩
  exact put h hi (Instruction.bytes_bare 0 0 (congrArg Layout.width hop))

/-- What takes the place of an expression for which there is no code. -/
theorem emitMissing (h : σ.Fits d) (hreported : d.errors ≠ #[]) (node : Node) (n : Nat) :
    d.Computes Q σ [⟨.loadNull, .missing, node, n⟩]
      (ScriptMachine.emit .loadNull node.line d).2 := by
  have hi : Listed.Encodes d.backing ⟨.loadNull, .missing, node, n⟩ ⟨.loadNull, 0, 0⟩ :=
    ⟨rfl, hreported, fun _ => rfl, fun _ => rfl⟩
  exact put h hi rfl

theorem emitWith (h : σ.Fits d) {op : Opcode} (hop : op.layout.width = 1) {operand : Operand}
    {byte : UInt8} (hoperand : operand.Stands d.backing byte 0) (node : Node) (n : Nat) :
    d.Computes Q σ [⟨op, operand, node, n⟩] (emitWith op byte node.line d).2 := by
  have hi : Listed.Encodes d.backing ⟨op, operand, node, n⟩ ⟨op, byte, 0⟩ := by
    refine ⟨rfl, hoperand, fun hzero => ?_, fun _ => rfl⟩
    exact absurd (hop.symm.trans hzero) (by decide)
  exact put h hi (Instruction.bytes_one byte 0 hop)

/-- An instruction with two operand bytes. -/
theorem put_two (h : σ.Fits d) {op : Opcode} (hop : op.layout.width = 2) {operand : Operand}
    {first second : UInt8} (hoperand : operand.Stands d.backing first second) (node : Node)
    (n : Nat) :
    d.Computes Q σ [⟨op, operand, node, n⟩] (d.put [op.toByte, first, second] node.line) := by
  have hi : Listed.Encodes d.backing ⟨op, operand, node, n⟩ ⟨op, first, second⟩ := by
    refine ⟨rfl, hoperand, fun hzero => ?_, fun hone => ?_⟩
    · exact absurd (hop.symm.trans hzero) (by decide)
    · rw [hop] at hone
      exact absurd hone (by decide)
  exact put h hi (Instruction.bytes_two first second hop)

/-- The code that calls a method. -/
theorem emitInvoke (h : σ.Fits d) {operand : Operand} {index count : UInt8}
    (hoperand : operand.Stands d.backing index count) (node : Node) (n : Nat) :
    d.Computes Q σ [⟨.invoke, operand, node, n⟩]
      (emitByte count node.line (ScriptMachine.emitWith .invoke index node.line d).2).2 :=
  put_two h rfl hoperand node n

/-- A jump whose distance is left open. -/
theorem emitJump (h : σ.Fits d) {op : Opcode} (hop : op.layout = .distance)
    (node : Node) (n : Nat) :
    d.Computes Q σ [⟨op, .pending, node, n⟩] (emitJump op node.line d).2 := by
  have hpending : Operand.Stands d.backing 0xff 0xff .pending := trivial
  exact put_two h (by rw [hop]; rfl) hpending node n

/-! ## Operands -/

theorem reportCode (h : σ.Fits d) {fault : CodeFault} (hfault : Q fault) (span : Span) :
    d.Computes Q σ [] (reportCode fault span d).2 := by
  refine ⟨⟨[], (List.append_nil _).symm, .nil⟩, (List.append_nil _).symm,
    ⟨fun hvalue => hvalue, .refl h.wf, fun he => ?_⟩, fun e he => ?_, rfl, h.withErrors _⟩
  · exact absurd he Array.push_ne_empty
  · rcases Array.mem_push.1 he with he | rfl
    · exact .inl he
    · exact .inr hfault

theorem addConstant (h : σ.Fits d) (hQ : Tolerant Q) (value : Value) (span : Span) :
    d.Computes Q σ [] (addConstant value span d).2 ∧
      Operand.Stands (addConstant value span d).2.backing (addConstant value span d).1 0
        (.constant value) := by
  rw [addConstant_apply]
  split
  · next hroom =>
    have hpool : (d.chunk.constants.push value).size ≤ maxConstants := by
      rw [Array.size_push]
      exact hroom
    refine ⟨⟨⟨[], (List.append_nil _).symm, .nil⟩, (List.append_nil _).symm,
      ⟨fun hvalue => ?_, .refl h.wf, fun he => he⟩, fun e he => .inl he, rfl, h.withChunk hpool⟩,
      fun _ => ?_⟩
    · have hlt := (Array.getElem?_eq_some_iff.1 hvalue).1
      exact (Array.getElem?_push_lt hlt).trans (Array.getElem?_eq_getElem hlt ▸ hvalue)
    · rw [toNat_toUInt8 hroom]
      exact Array.getElem?_push_size
  · have hfull : Q (.tooManyConstants d.name) := hQ _ nofun nofun
    exact ⟨reportCode h hfull span, fun he => absurd he Array.push_ne_empty⟩

theorem emitConstant (h : σ.Fits d) (hQ : Tolerant Q) (value : Value) {span : Span} {node : Node}
    (hline : node.line = span.start.line) (n : Nat) :
    d.Computes Q σ [⟨.constant, .constant value, node, n⟩] (emitConstant value span d).2 := by
  obtain ⟨hadded, hstands⟩ := addConstant h hQ value span
  have hemitted : Draft.Computes Q σ _ [⟨.constant, .constant value, node, n⟩] _ :=
    emitWith hadded.fits rfl hstands node n
  rw [hline] at hemitted
  exact hadded.append hemitted

theorem methodConstant (h : σ.Fits d) (hQ : Tolerant Q) (name : String) (span : Span) :
    d.Computes Q σ [] (methodConstant name span d).2 ∧
      ((methodConstant name span d).2.errors = #[] →
        (methodConstant name span d).2.backing.Names (methodConstant name span d).1 name) := by
  rw [methodConstant_apply]
  split
  · next index hfound =>
    refine ⟨.nil h, fun _ => ?_⟩
    obtain ⟨handle, hconstant, hget⟩ := Emits.textConstant?_eq_some hfound
    have hlt := (Array.getElem?_eq_some_iff.1 hconstant).1
    refine ⟨handle, ?_, hget⟩
    rw [toNat_toUInt8 (Nat.lt_of_lt_of_le hlt h.pool)]
    exact hconstant
  · have hkept := (Heap.Kept.refl h.wf).alloc (.string name)
    have halloc : d.Computes Q σ [] { d with heap := (d.heap.alloc (.string name)).2 } :=
      ⟨⟨[], (List.append_nil _).symm, .nil⟩, (List.append_nil _).symm,
        ⟨fun hvalue => hvalue, hkept, fun he => he⟩, fun e he => .inl he, rfl,
        ⟨hkept.wf, h.pool, h.size, h.height, h.globalSlot, h.localKind, h.localSlot⟩⟩
    obtain ⟨hadded, hstands⟩ :=
      addConstant halloc.fits hQ (.object (d.heap.alloc (.string name)).1) span
    refine ⟨halloc.append hadded, fun he => ⟨_, hstands he, ?_⟩⟩
    exact hadded.keeps.heap.get (Heap.get_alloc_self h.wf _) (by simp [Object.kind])

theorem countOperand (h : σ.Fits d) (hQ : Tolerant Q) (role : CountRole) (size : Nat)
    (span : Span) :
    d.Computes Q σ [] (countOperand role size span d).2 ∧
      ((countOperand role size span d).2.errors = #[] →
        (countOperand role size span d).1.toNat = size) := by
  unfold ScriptMachine.countOperand
  split
  · next hle => exact ⟨.nil h, fun _ => toNat_toUInt8 (Nat.lt_succ_of_le hle)⟩
  · have hmany : Q (.tooMany role size) := hQ _ nofun nofun
    exact ⟨reportCode h hmany span, fun he => absurd he Array.push_ne_empty⟩

/-! ## Variables -/

/-- An access to a variable, or what takes its place. -/
theorem access (h : σ.Fits d) {x : Gen κ Unit} {id : SymbolId} (hid : σ.Knows (some id))
    {localOp globalOp : Opcode} (hlocal : localOp.layout = .byte)
    (hglobal : globalOp.layout = .byte) {node : Node} {n : Nat} {missing : List Listed}
    (hfound : ∀ kind slot, d.slot? id = some (kind, slot) → (x d).2 =
      (ScriptMachine.emitWith (match kind with | .local => localOp | .global => globalOp) slot
        node.line d).2)
    (hmissing : d.slot? id = none → d.Computes Q σ missing (x d).2) :
    d.Computes Q σ (σ.access localOp globalOp (some id) node n missing) (x d).2 := by
  have hslot := h.slot?_eq hid
  rw [Slots.access, Option.bind_some]
  cases hplace : σ.find? id with
  | none =>
    rw [hplace] at hslot
    exact hmissing hslot
  | some place =>
    obtain ⟨kind, slot⟩ := place
    rw [hplace] at hslot
    have hroom : slot < maxSlots := σ.lt_of_find? hplace
    have hstands : Operand.Stands d.backing slot.toUInt8 0 (.byte slot) := toNat_toUInt8 hroom
    rw [hfound kind slot.toUInt8 hslot]
    cases kind with
    | «local» => exact emitWith h (by rw [hlocal]; rfl) hstands node n
    | global => exact emitWith h (by rw [hglobal]; rfl) hstands node n

theorem emitLoad (h : σ.Fits d) {id : SymbolId} (hid : σ.Knows (some id)) (node : Node) (n : Nat) :
    d.Computes Q σ (σ.load (some id) node n) (emitLoad id node.line d).2 := by
  refine access h hid rfl rfl (fun kind slot hslot => ?_) fun hnone => ?_
  · rw [ScriptMachine.emitLoad, gen_bind, gen_get, hslot]
    cases kind <;> rfl
  · rw [ScriptMachine.emitLoad, gen_bind, gen_get, hnone]
    exact emit h rfl node n

theorem emitStore? (h : σ.Fits d) {id : Option SymbolId} (hid : σ.Knows id)
    (node : Node) (n : Nat) :
    d.Computes Q σ (σ.store id node n) (emitStore? id node.line d).2 := by
  cases id with
  | none => exact .nil h
  | some id =>
    refine access h hid rfl rfl (fun kind slot hslot => ?_) fun hnone => ?_
    · rw [ScriptMachine.emitStore?, ScriptMachine.emitStore, gen_bind, gen_get, hslot]
      cases kind <;> rfl
    · rw [ScriptMachine.emitStore?, ScriptMachine.emitStore, gen_bind, gen_get, hnone]
      exact .nil h

/-! ## Pops -/

theorem emitPopMany (h : σ.Fits d) (count : Nat) (node : Node) (n : Nat) :
    d.Computes Q σ (popManyListed count node n) (emitPopMany count node.line d).2 := by
  fun_induction popManyListed count node n generalizing d with
  | case1 count hpos ih =>
    have hbatch : Operand.Stands d.backing (min count maxCount).toUInt8 0
      (.byte (min count maxCount)) :=
      toNat_toUInt8 (by unfold maxCount; omega)
    have hpop : d.Computes Q σ [⟨.popN, .byte (min count maxCount), node, n + count⟩] _ :=
      emitWith h rfl hbatch node (n + count)
    rw [ScriptMachine.emitPopMany, if_pos hpos]
    exact hpop.append (ih hpop.fits)
  | case2 count hzero =>
    rw [ScriptMachine.emitPopMany, if_neg hzero]
    exact .nil h

theorem emitPops (h : σ.Fits d) (count : Nat) (node : Node) (n : Nat) :
    d.Computes Q σ (popsListed count node n) (emitPops count node.line d).2 := by
  unfold popsListed ScriptMachine.emitPops
  split
  · exact emit h rfl node (n + 1)
  · exact emitPopMany h count node n

end Draft.Computes

/-! ## Jumps -/

/-- Filling in the distance of a jump among other code. -/
theorem Chunk.code_patchJump {chunk : Chunk} {front back : List UInt8} {op first second : UInt8}
    (h : chunk.code.toList = front ++ (op :: first :: second :: back)) (distance : Nat) :
    (chunk.patchJump front.length distance).code.toList =
      front ++ (op :: (distance / 256).toUInt8 :: (distance % 256).toUInt8 :: back) := by
  simp [patchJump, h]

/-- A jump lands behind everything that has been written since. -/
theorem Draft.Writes.land {d d' : Draft κ} {A : List (SymbolId × Nat)} {front back : List Listed}
    {op : Opcode} {node : Node} {n : Nat}
    (h : d.Writes Q σ A (front ++ ⟨op, .pending, node, n⟩ :: back) d') (hop : op.layout = .distance)
    (hQ : Tolerant Q) {offset : Nat} (hoffset : offset = d.chunk.code.size + codeLength front)
    (span : Span) :
    d.Writes Q σ A (front ++ ⟨op, .distance (codeLength back), node, n⟩ :: back)
      (landJump offset span d').2 := by
  have hwidth : op.layout.width = 2 := by rw [hop]; rfl
  have hdistance : d'.chunk.code.size - (offset + 3) = codeLength back := by
    rw [h.size_eq, hoffset, codeLength_append, codeLength_cons, Listed.size, hwidth]
    omega
  have hlines : listedLines (front ++ ⟨op, .distance (codeLength back), node, n⟩ :: back) =
      listedLines (front ++ ⟨op, .pending, node, n⟩ :: back) := by
    simp [listedLines, Listed.size]
  obtain ⟨bytes, hcode, hspells⟩ := h.code
  obtain ⟨bytes₁, bytes₂, rfl, hfront, hrest⟩ := hspells.split
  cases hrest with
  | @cons _ i _ bytes₃ hjump hback =>
    obtain ⟨op', first, second⟩ := i
    obtain rfl : op' = op := hjump.opcode
    rw [Instruction.bytes_two first second hwidth, ← List.append_assoc] at hcode
    have hplace : (d.chunk.code.toList ++ bytes₁).length = offset := by
      rw [hoffset, List.length_append, hfront.length_eq, Array.length_toList]
    by_cases hnear : codeLength back ≤ maxDistance
    · have hland : (landJump offset span d').2 =
          { d' with chunk := d'.chunk.patchJump offset (codeLength back) } := by
        simp only [landJump, gen_bind]
        rw [gen_get, hdistance, if_pos hnear]
        rfl
      have hpatched := Chunk.code_patchJump hcode (codeLength back)
      rw [hplace, List.append_assoc] at hpatched
      have hlanded : Listed.Encodes d'.backing ⟨op', .distance (codeLength back), node, n⟩
          ⟨op', (codeLength back / 256).toUInt8, (codeLength back % 256).toUInt8⟩ :=
        ⟨rfl, fun _ => Chunk.wordOf_bytes hnear, fun hzero => absurd (hwidth.symm.trans hzero)
          (by decide),
          fun hone => absurd (hwidth ▸ hone) (by decide)⟩
      have hspelt := hfront.append (.cons hlanded hback)
      rw [Instruction.bytes_two _ _ hwidth] at hspelt
      rw [hland]
      exact ⟨⟨_, hpatched, hspelt⟩, h.lines.trans (by rw [hlines]), h.keeps, h.faults, h.symbols,
        h.fits.withChunk h.fits.pool⟩
    · have hland : (landJump offset span d').2 =
        (ScriptMachine.reportCode .jumpTooFar span d').2 := by
        simp only [landJump, gen_bind]
        rw [gen_get, hdistance, if_neg hnear]
      have hfar : Q .jumpTooFar := hQ _ (by simp) (by simp)
      have hreported := Draft.Computes.reportCode (Q := Q) h.fits hfar span
      have hopen : Listed.Encodes (ScriptMachine.reportCode .jumpTooFar span d').2.backing
          ⟨op', .distance (codeLength back), node, n⟩ ⟨op', first, second⟩ :=
        ⟨rfl, fun he => absurd he Array.push_ne_empty, hjump.first, hjump.second⟩
      have hspelt := (hfront.keeps hreported.keeps).append
        (.cons hopen (hback.keeps hreported.keeps))
      rw [Instruction.bytes_two _ _ hwidth] at hspelt
      rw [List.append_assoc] at hcode
      rw [hland]
      refine ⟨⟨_, hcode, hspelt⟩, h.lines.trans (by rw [hlines]), h.keeps.trans hreported.keeps,
        fun e he => ?_, h.symbols, hreported.fits⟩
      rcases hreported.faults e he with he | he
      · exact h.faults e he
      · exact .inr he

end ScriptMachine
