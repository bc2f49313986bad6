import ScriptMachine.Proofs.Codegen.Edits
import ScriptMachine.Proofs.Codegen.Layout

/-!
# Generated code stands where it should

A part of code generation that reports no errors emits code of a certain kind
(`Emits`): in every site that agrees with the finished draft, the code stands in
the place where it was written. Parts that follow each other emit code that
follows each other (`Emits.bind`), because what comes later leaves alone what
was written before, up to the jumps it fills in. The heights of the stack are
found on the way, piece by piece.
-/

namespace ScriptMachine

variable {κ α δ : Type} {known : Handle → Prop}

/-! ## What edits keep -/

section Edits

variable {start : Nat} {d d' : Draft κ}

theorem Draft.Edits.errors_eq_empty (h : Draft.Edits known start d d') (hd : d'.errors = #[]) :
    d.errors = #[] := by
  induction h with
  | refl => exact hd
  | tail _ hedit ih =>
    refine ih ?_
    cases hedit with
    | report error => simp at hd
    | _ => exact hd

theorem Draft.Edits.constant_eq (h : Draft.Edits known start d d') {i : Nat} {value : Value}
    (hvalue : d.chunk.constants[i]? = some value) : d'.chunk.constants[i]? = some value := by
  induction h with
  | refl => exact hvalue
  | tail _ hedit ih =>
    have hlt := (Array.getElem?_eq_some_iff.1 ih).1
    cases hedit with
    | constant other hother => simpa [Array.getElem?_push, Nat.ne_of_lt hlt] using ih
    | name name => simpa [Array.getElem?_push, Nat.ne_of_lt hlt] using ih
    | _ => exact ih

theorem Draft.Edits.kept (h : Draft.Edits known start d d') (hd : d.heap.WF) :
    d.heap.Kept d'.heap :=
  h.allocs.kept hd

/-- The drafts have the same code from `a` up to `b`. -/
def Draft.SameCode (d d' : Draft κ) (a b : Nat) : Prop :=
  ∀ i, a ≤ i → i < b → d'.chunk.code[i]? = d.chunk.code[i]?

theorem Draft.SameCode.trans {d'' : Draft κ} {a b : Nat} (h : d.SameCode d' a b)
    (h' : d'.SameCode d'' a b) : d.SameCode d'' a b :=
  fun i hi hi' => (h' i hi hi').trans (h i hi hi')

theorem Draft.SameCode.within {a b a' b' : Nat} (h : d.SameCode d' a b) (ha : a ≤ a')
    (hb : b' ≤ b) : d.SameCode d' a' b' :=
  fun i hi hi' => h i (Nat.le_trans ha hi) (Nat.lt_of_lt_of_le hi' hb)

/-- Edits leave alone what stands before them. -/
theorem Draft.Edits.sameCode (h : Draft.Edits known start d d') (hd : start ≤ d.chunk.code.size)
    (a : Nat) : d.SameCode d' a start := by
  intro i _ hi
  induction h with
  | refl => rfl
  | @tail d₁ d₂ hedits hedit ih =>
    have hsize := Draft.Edits.size_le hedits
    rw [← ih]
    cases hedit with
    | write byte line =>
      have hne : i ≠ d₁.chunk.code.size := by omega
      simp [Chunk.write, Array.getElem?_push, hne]
    | patch offset distance hoffset =>
      have hne : offset + 1 ≠ i := by omega
      have hne' : offset + 2 ≠ i := by omega
      simp [Chunk.patchJump, hne, hne']
    | _ => rfl

end Edits

/-! ## Sites that agree with a draft -/

/-- A site that has the code of a draft from `a` up to `b`, its constants and its
heap, and the heights `H` there. -/
structure Site.Agrees (k : Site κ) (d : Draft κ) (a b : Nat) (H : Nat → Nat) : Prop where
  code : ∀ i, a ≤ i → i < b → k.chunk.code[i]? = d.chunk.code[i]?
  constants : ∀ {i : Nat} {value}, d.chunk.constants[i]? = some value →
    k.chunk.constants[i]? = some value
  heap : d.heap.Kept k.heap
  height : ∀ i, a ≤ i → i ≤ b → k.height i = H i

theorem Site.Agrees.within {k : Site κ} {d : Draft κ} {a b a' b' : Nat} {H H' : Nat → Nat}
    (h : k.Agrees d a b H) (ha : a ≤ a') (hb : b' ≤ b)
    (hheight : ∀ i, a' ≤ i → i ≤ b' → H i = H' i) : k.Agrees d a' b' H' where
  code i hi hi' := h.code i (by omega) (by omega)
  constants := h.constants
  heap := h.heap
  height i hi hi' := (h.height i (by omega) (by omega)).trans (hheight i hi hi')

/-- What agrees with a draft agrees with an earlier one where the code is the
same. -/
theorem Site.Agrees.back {k : Site κ} {d d' : Draft κ} {start a b a' b' : Nat} {H H' : Nat → Nat}
    (h : k.Agrees d' a b H) (hedits : Draft.Edits known start d d') (hd : d.heap.WF)
    (hcode : d.SameCode d' a' b') (ha : a ≤ a') (hb : b' ≤ b)
    (hheight : ∀ i, a' ≤ i → i ≤ b' → H i = H' i) : k.Agrees d a' b' H' where
  code i hi hi' := (h.code i (by omega) (by omega)).trans (hcode i hi hi')
  constants hvalue := h.constants (hedits.constant_eq hvalue)
  heap := (hedits.kept hd).trans h.heap
  height i hi hi' := (h.height i (by omega) (by omega)).trans (hheight i hi hi')

/-! ## Reading instructions -/

section Fetch

variable {c : Chunk} {p : Nat} {op : Opcode} {first second : UInt8}

theorem Chunk.fetch_bare (h : c.code[p]? = some op.toByte) (hop : op.layout.width = 0) :
    c.fetch p = .instruction { opcode := op } (p + 1) := by
  simp [Chunk.fetch, h, hop]

theorem Chunk.fetch_byte (h : c.code[p]? = some op.toByte) (h' : c.code[p + 1]? = some first)
    (hop : op.layout.width = 1) : c.fetch p = .instruction ⟨op, first, 0⟩ (p + 2) := by
  simp [Chunk.fetch, h, h', hop]

theorem Chunk.fetch_two (h : c.code[p]? = some op.toByte) (h' : c.code[p + 1]? = some first)
    (h'' : c.code[p + 2]? = some second) (hop : op.layout.width = 2)
    (hname : op.layout = .method → first.toNat < c.constants.size) :
    c.fetch p = .instruction ⟨op, first, second⟩ (p + 3) := by
  have hname' : ¬(op.layout = .method ∧ c.constants.size ≤ first.toNat) :=
    fun h => absurd (hname h.1) (Nat.not_lt.2 h.2)
  simp [Chunk.fetch, h, h', h'', hop, hname']

end Fetch

/-! ## Variables of a draft -/

/-- A draft with `count` symbols, in which the first `globals` have their own
numbers as slots, the locals `Γ` their places, and the stack holds just these
locals. -/
structure Draft.Fits (globals count : Nat) (Γ : List SymbolId) (d : Draft κ) :
    Prop where
  wf : d.heap.WF
  pool : d.chunk.constants.size ≤ maxConstants
  height : d.height = Γ.length
  symbol : ∀ {id : SymbolId}, globals ≤ id → id < count →
    ∃ symbol, d.symbols[id]? = some symbol ∧ symbol.kind = .local
  globalSlot : ∀ {id : SymbolId}, id < globals →
    ∃ symbol, d.symbols[id]? = some symbol ∧ symbol.kind = .global ∧ symbol.slot = some id
  localSlot : ∀ {i : Nat} {id : SymbolId}, Γ[i]? = some id →
    ∃ symbol, d.symbols[id]? = some symbol ∧ symbol.kind = .local ∧ symbol.slot = some i
  globals_le : globals ≤ maxSlots
  locals_le : Γ.length ≤ maxSlots

theorem Draft.Fits.withChunk {globals count : Nat} {Γ : List SymbolId}
    {d : Draft κ} (hd : d.Fits globals count Γ) {chunk : Chunk}
    (hpool : chunk.constants.size ≤ maxConstants) :
    Draft.Fits globals count Γ { d with chunk } :=
  ⟨hd.wf, hpool, hd.height, hd.symbol, hd.globalSlot, hd.localSlot, hd.globals_le, hd.locals_le⟩

theorem toNat_toUInt8 {n : Nat} (h : n < 256) : n.toUInt8.toNat = n := by
  simpa using Nat.mod_eq_of_lt h

/-- The slot of a variable that is visible. -/
theorem Draft.Fits.slot?_eq {globals count : Nat} {Γ : List SymbolId}
    {d : Draft κ} (hd : d.Fits globals count Γ) {id : SymbolId} (hid : id < globals ∨ id ∈ Γ) :
    (∃ slot : UInt8, d.slot? id = some (.global, slot) ∧ slot.toNat = id ∧ id < globals) ∨
      ∃ slot : UInt8, d.slot? id = some (.local, slot) ∧ Γ[slot.toNat]? = some id := by
  rcases hid with hid | hid
  · obtain ⟨symbol, hsymbol, hkind, hslot⟩ := hd.globalSlot hid
    have hlt := Nat.lt_of_lt_of_le hid hd.globals_le
    refine .inl ⟨id.toUInt8, ?_, toNat_toUInt8 hlt, hid⟩
    obtain ⟨_, _, _, _⟩ := symbol
    subst hkind hslot
    simp [Draft.slot?, hsymbol, hlt]
  · obtain ⟨i, hi⟩ := List.mem_iff_getElem?.1 hid
    obtain ⟨symbol, hsymbol, hkind, hslot⟩ := hd.localSlot hi
    have hlt := Nat.lt_of_lt_of_le (List.getElem?_eq_some_iff.1 hi).1 hd.locals_le
    refine .inr ⟨i.toUInt8, ?_, by rw [toNat_toUInt8 hlt, hi]⟩
    obtain ⟨_, _, _, _⟩ := symbol
    subst hkind hslot
    simp [Draft.slot?, hsymbol, hlt]

/-- A symbol that is not live yet becomes a local. -/
theorem Draft.Fits.declare {globals count : Nat} {Γ : List SymbolId} {d : Draft κ}
    (hd : d.Fits globals count Γ) {i : SymbolId} (hi : globals ≤ i) (hcount : i < count)
    (hfresh : i ∉ Γ) (hroom : d.height ≠ maxSlots) :
    Draft.Fits globals count (Γ ++ [i])
      { d with symbols := d.symbols.setSlot i d.height, height := d.height + 1 } := by
  have hother : ∀ {id : SymbolId}, id ≠ i → (d.symbols.setSlot i d.height)[id]? =
    d.symbols[id]? := by
    intro id hne
    simp only [SymbolTable.setSlot, Array.getElem?_modify]
    rw [if_neg (Ne.symm hne)]
  have hself : (d.symbols.setSlot i d.height)[i]? =
      (d.symbols[i]?).map fun symbol => { symbol with slot := some d.height } := by
    simp [SymbolTable.setSlot, Array.getElem?_modify]
  refine ⟨hd.wf, hd.pool, by simp [hd.height], fun {id} hid hid' => ?_, fun {id} hid => ?_,
    fun {j id} hj => ?_, hd.globals_le, ?_⟩
  · obtain ⟨symbol, hsymbol, hkind⟩ := hd.symbol hid hid'
    by_cases heq : id = i
    · subst heq
      exact ⟨{ symbol with slot := some d.height }, by rw [hself, hsymbol]; rfl, hkind⟩
    · exact ⟨symbol, (hother heq).trans hsymbol, hkind⟩
  · obtain ⟨symbol, hsymbol, hkind, hslot⟩ := hd.globalSlot hid
    have hne : id ≠ i := Nat.ne_of_lt (Nat.lt_of_lt_of_le hid hi)
    exact ⟨symbol, (hother hne).trans hsymbol, hkind, hslot⟩
  · rcases Nat.lt_or_ge j Γ.length with hlt | hge
    · rw [List.getElem?_append_left hlt] at hj
      obtain ⟨symbol, hsymbol, hkind, hslot⟩ := hd.localSlot hj
      have hne : id ≠ i := fun heq => hfresh (heq ▸ List.mem_of_getElem? hj)
      exact ⟨symbol, (hother hne).trans hsymbol, hkind, hslot⟩
    · rw [List.getElem?_append_right hge] at hj
      obtain ⟨hzero, heq⟩ := List.getElem?_eq_some_iff.1 hj
      simp only [List.length_singleton] at hzero
      obtain rfl : i = id := by simpa using heq
      obtain ⟨symbol, hsymbol, hkind⟩ := hd.symbol hi hcount
      have hheight := hd.height
      refine ⟨{ symbol with slot := some d.height }, by rw [hself, hsymbol]; rfl, hkind, ?_⟩
      exact congrArg some (by omega)
  · have hle := hd.locals_le
    have hheight := hd.height
    simp only [List.length_append, List.length_singleton]
    omega

/-- A part of code generation that turns drafts that fit `Γ` into drafts that fit
`Δ`, and whose code takes the height of the stack from `n` to `m`. Every site
that agrees with the code satisfies `P`, which says where it stands. -/
structure Emits (known : Handle → Prop) (globals count : Nat)
    (Γ Δ : List SymbolId) (n m : Nat) (x : Gen κ α) (P : α → Site κ → Nat → Nat → Prop) :
    Prop where
  walks : ∀ start, Walks known start AnyResult x
  emits : ∀ d : Draft κ, d.Fits globals count Γ → (x d).2.errors = #[] →
    (x d).2.Fits globals count Δ ∧
      ∃ H : Nat → Nat, H d.chunk.code.size = n ∧ H (x d).2.chunk.code.size = m ∧
        ∀ k : Site κ, k.globals = globals →
          k.Agrees (x d).2 d.chunk.code.size (x d).2.chunk.code.size H →
            P (x d).1 k d.chunk.code.size (x d).2.chunk.code.size

namespace Emits

variable {globals count : Nat} {Γ Δ Θ : List SymbolId} {n m l : Nat}

theorem mono {x : Gen κ α} {P Q : α → Site κ → Nat → Nat → Prop}
    (h : Emits known globals count Γ Δ n m x P) (hPQ : ∀ {a k p q}, P a k p q → Q a k p q) :
    Emits known globals count Γ Δ n m x Q where
  walks := h.walks
  emits d hd herrors := by
    obtain ⟨hfits, H, hstart, hend, hplaced⟩ := h.emits d hd herrors
    exact ⟨hfits, H, hstart, hend, fun k hk hagrees => hPQ (hplaced k hk hagrees)⟩

theorem pure (a : α) :
    Emits (κ := κ) known globals count Γ Γ n n (Pure.pure a) fun b _ p q => b = a ∧ p = q where
  walks _ := .pure trivial
  emits _ hd _ := ⟨hd, fun _ => n, rfl, rfl, fun _ _ _ => ⟨rfl, rfl⟩⟩

/-- Code that follows other code. -/
theorem bind {x : Gen κ α} {y : α → Gen κ δ} {P : α → Site κ → Nat → Nat → Prop}
    {Q : α → δ → Site κ → Nat → Nat → Prop} (hx : Emits known globals count Γ Δ n m x P)
    (hy : ∀ a, Emits known globals count Δ Θ m l (y a) (Q a)) :
    Emits known globals count Γ Θ n l (x >>= y) fun b k p q =>
      ∃ a r, P a k p r ∧ Q a b k r q where
  walks start := (hx.walks start).bind fun a _ => (hy a).walks start
  emits d hd herrors := by
    rw [gen_bind] at herrors ⊢
    generalize hxd : x d = xd at herrors ⊢
    obtain ⟨a, d₁⟩ := xd
    have hedits₁ : Draft.Edits known d.chunk.code.size d d₁ := by
      simpa [hxd] using ((hx.walks d.chunk.code.size) d (Nat.le_refl _)).1
    have hedits₂ := (((hy a).walks d₁.chunk.code.size) d₁ (Nat.le_refl _)).1
    have hx' := hx.emits d hd
    rw [hxd] at hx'
    obtain ⟨hfits₁, H₁, hstart₁, hend₁, hplaced₁⟩ := hx' (hedits₂.errors_eq_empty herrors)
    obtain ⟨hfits₂, H₂, hstart₂, hend₂, hplaced₂⟩ := (hy a).emits d₁ hfits₁ herrors
    dsimp only at hend₁ hplaced₁ ⊢
    have hle₁ := hedits₁.size_le
    have hle₂ := hedits₂.size_le
    -- The heights of the first part, and from its end on those of the second.
    refine ⟨hfits₂, fun i => if i < d₁.chunk.code.size then H₁ i else H₂ i, ?_, ?_, ?_⟩
    · dsimp only
      split
      · exact hstart₁
      · have heq : d.chunk.code.size = d₁.chunk.code.size := by omega
        rw [heq, hstart₂, ← hend₁, ← heq, hstart₁]
    · dsimp only
      rw [if_neg (by omega), hend₂]
    · intro k hk hagrees
      refine ⟨a, d₁.chunk.code.size, hplaced₁ k hk ?_, hplaced₂ k hk ?_⟩
      · refine hagrees.back hedits₂ hfits₁.wf (hedits₂.sameCode (Nat.le_refl _) _) (Nat.le_refl _)
          hle₂ fun i hi hi' => ?_
        split
        · rfl
        · have heq : i = d₁.chunk.code.size := by omega
          rw [heq, hstart₂, hend₁]
      · exact hagrees.within hle₁ (Nat.le_refl _) fun i hi hi' => if_neg (by omega)

/-! ### Single instructions -/

theorem emitByte (byte : UInt8) (n m line : Nat) :
    Emits (κ := κ) known globals count Γ Γ n m (emitByte byte line) fun _ k p q =>
      k.chunk.code[p]? = some byte ∧ k.height p = n ∧ q = p + 1 where
  walks _ := .emitByte byte line
  emits d hd _ := by
    have hsize : (ScriptMachine.emitByte byte line d).2.chunk.code.size = d.chunk.code.size + 1 :=
      Chunk.size_write d.chunk byte line
    refine ⟨hd.withChunk hd.pool, fun i => if i ≤ d.chunk.code.size then n else m, ?_, ?_, ?_⟩
    · exact if_pos (Nat.le_refl _)
    · exact if_neg (by omega)
    · intro k _ hagrees
      refine ⟨?_, ?_, hsize⟩
      · rw [hagrees.code _ (Nat.le_refl _) (by omega)]
        show (d.chunk.write byte line).code[d.chunk.code.size]? = some byte
        simp [Chunk.write]
      · rw [hagrees.height _ (Nat.le_refl _) (by omega)]
        exact if_pos (Nat.le_refl _)

theorem emit (op : Opcode) (hop : op.layout.width = 0) (n m line : Nat) :
    Emits (κ := κ) known globals count Γ Γ n m (emit op line) fun _ k p q =>
      k.Holds p n { opcode := op } ∧ q = p + 1 :=
  (emitByte op.toByte n m line).mono fun ⟨hcode, hheight, hq⟩ =>
    ⟨⟨by simpa [Instruction.length, hop] using Chunk.fetch_bare hcode hop, hheight⟩, hq⟩

theorem emitWith (op : Opcode) (hop : op.layout.width = 1) (operand : UInt8) (n m line : Nat) :
    Emits (κ := κ) known globals count Γ Γ n m (emitWith op operand line) fun _ k p q =>
      k.Holds p n ⟨op, operand, 0⟩ ∧ q = p + 2 := by
  refine ((emitByte op.toByte n n line).bind fun _ => emitByte operand n m line).mono ?_
  rintro _ k p q ⟨_, r, ⟨hcode, hheight, rfl⟩, hcode', _, rfl⟩
  exact ⟨⟨by simpa [Instruction.length, hop] using Chunk.fetch_byte hcode hcode' hop, hheight⟩, rfl⟩

/-! ### Operands -/

/-- A part of code generation that writes no code. -/
theorem silent {x : Gen κ α} {P : α → Site κ → Prop}
    (hwalks : ∀ start, Walks known start AnyResult x)
    (hx : ∀ d : Draft κ, d.Fits globals count Γ → (x d).2.errors = #[] →
      (x d).2.Fits globals count Δ ∧ (x d).2.chunk.code.size = d.chunk.code.size ∧
        ∀ (k : Site κ) (p : Nat) (H : Nat → Nat), k.Agrees (x d).2 p p H → P (x d).1 k) (n : Nat) :
    Emits known globals count Γ Δ n n x fun a k p q => P a k ∧ p = q where
  walks := hwalks
  emits d hd herrors := by
    obtain ⟨hfits, hsize, hplaced⟩ := hx d hd herrors
    refine ⟨hfits, fun _ => n, rfl, rfl, fun k _ hagrees => ⟨?_, hsize.symm⟩⟩
    rw [hsize] at hagrees
    exact hplaced k _ _ hagrees

theorem addConstant {value : Value} (hvalue : ∀ handle, value.handle? = some handle → known handle)
    (span : Span) (n : Nat) :
    Emits (κ := κ) known globals count Γ Γ n n (addConstant value span) fun index k p q =>
      k.chunk.constants[index.toNat]? = some value ∧ p = q := by
  refine silent (fun _ => .addConstant hvalue span) (fun d hd herrors => ?_) n
  rw [addConstant_apply] at herrors ⊢
  split at herrors
  · next hroom =>
    rw [if_pos hroom]
    refine ⟨hd.withChunk (by simpa using hroom), rfl, fun k p H hagrees => hagrees.constants ?_⟩
    simp [toNat_toUInt8 hroom]
  · simp at herrors

theorem emitConstant {value : Value}
    (hvalue : ∀ handle, value.handle? = some handle → known handle) (span : Span) (n m : Nat) :
    Emits (κ := κ) known globals count Γ Γ n m (emitConstant value span) fun _ k p q =>
      ∃ index : UInt8, k.Holds p n ⟨.constant, index, 0⟩ ∧
        k.chunk.constants[index.toNat]? = some value ∧ q = p + 2 := by
  refine ((addConstant hvalue span n).bind fun index =>
    emitWith .constant rfl index n m span.start.line).mono ?_
  rintro _ k p q ⟨index, _, ⟨hconstant, rfl⟩, hholds, rfl⟩
  exact ⟨index, hholds, hconstant, rfl⟩

theorem countOperand (role : CountRole) (size : Nat) (span : Span) (n : Nat) :
    Emits (κ := κ) known globals count Γ Γ n n (countOperand role size span) fun operand _ p q =>
      operand.toNat = size ∧ p = q := by
  refine silent (fun _ => .countOperand role size span) (fun d hd herrors => ?_) n
  unfold ScriptMachine.countOperand at herrors ⊢
  split at herrors
  · next hcount =>
    rw [if_pos hcount]
    exact ⟨hd, rfl, fun _ _ _ _ => toNat_toUInt8 (Nat.lt_succ_of_le hcount)⟩
  · simp [ScriptMachine.reportCode, gen_bind, gen_pure, modify, gen_modifyGet] at herrors

theorem textConstant?_eq_some {d : Draft κ} {name : String} {index : Nat}
    (h : d.textConstant? name = some index) :
    ∃ handle, d.chunk.constants[index]? = some (.object handle) ∧
      d.heap.get handle = .ok (.string name) := by
  unfold Draft.textConstant? at h
  obtain ⟨hlt, hfound, -⟩ := Array.findIdx?_eq_some_iff_getElem.1 h
  generalize hvalue : d.chunk.constants[index] = value at hfound
  cases value with
  | object handle =>
    refine ⟨handle, by rw [Array.getElem?_eq_getElem hlt, hvalue], ?_⟩
    simp only [Heap.string] at hfound
    cases hget : d.heap.get handle with
    | error fault => simp [hget] at hfound
    | ok object => cases object <;> simp_all
  | null => simp at hfound
  | bool b => simp at hfound
  | number x => simp at hfound

theorem methodConstant (name : String) (span : Span) (n : Nat) :
    Emits (κ := κ) known globals count Γ Γ n n (methodConstant name span) fun index k p q =>
      k.Names index name ∧ p = q := by
  refine silent (fun _ => .methodConstant name span) (fun d hd herrors => ?_) n
  rw [methodConstant_apply] at herrors ⊢
  split at herrors
  · next index hfound =>
    obtain ⟨handle, hconstant, hget⟩ := textConstant?_eq_some hfound
    refine ⟨hd, rfl, fun k p H hagrees => ⟨handle, hagrees.constants ?_,
      hagrees.heap.get hget (by simp [Object.kind])⟩⟩
    have hlt := (Array.getElem?_eq_some_iff.1 hconstant).1
    rw [toNat_toUInt8 (Nat.lt_of_lt_of_le hlt hd.pool), hconstant]
  · rw [addConstant_apply] at herrors ⊢
    split at herrors
    · next hroom =>
      rw [if_pos hroom]
      refine ⟨⟨hd.wf.alloc _, by simpa using hroom, hd.height, hd.symbol, hd.globalSlot,
        hd.localSlot, hd.globals_le, hd.locals_le⟩, rfl, fun k p H hagrees => ?_⟩
      refine ⟨_, hagrees.constants ?_, hagrees.heap.get (Heap.get_alloc_self hd.wf _)
        (by simp [Object.kind])⟩
      simp [toNat_toUInt8 hroom]
    · simp at herrors

/-! ### Variables -/

/-- Code that accesses a variable that is visible. -/
theorem access {x : Gen κ Unit} {global local' : Opcode} {id : SymbolId} (line : Nat)
    (hglobal : global.layout.width = 1) (hlocal : local'.layout.width = 1)
    (hwalks : ∀ start, Walks known start AnyResult x)
    (hx : ∀ (d : Draft κ) (kind : SymbolKind) (slot : UInt8), d.slot? id = some (kind, slot) →
      x d = ScriptMachine.emitWith (if kind = .global then global else local') slot line d)
    (hid : id < globals ∨ id ∈ Γ) (n m : Nat) :
    Emits known globals count Γ Γ n m x fun _ k p q =>
      k.Accesses Γ p n global local' id ∧ q = p + 2 where
  walks := hwalks
  emits d hd herrors := by
    rcases hd.slot?_eq hid with ⟨slot, hslot, hid', hlt⟩ | ⟨slot, hslot, hid'⟩
    · have hemits : Emits known globals count Γ Γ n m _ _ :=
        emitWith (κ := κ) global hglobal slot n m line
      rw [hx d _ slot hslot, if_pos rfl] at herrors ⊢
      obtain ⟨hfits, H, hstart, hend, hplaced⟩ := hemits.emits d hd herrors
      refine ⟨hfits, H, hstart, hend, fun k hk hagrees => ?_⟩
      obtain ⟨hholds, hq⟩ := hplaced k hk hagrees
      exact ⟨.global hholds hid' (hk ▸ hlt), hq⟩
    · have hemits : Emits known globals count Γ Γ n m _ _ :=
        emitWith (κ := κ) local' hlocal slot n m line
      rw [hx d _ slot hslot, if_neg (by decide)] at herrors ⊢
      obtain ⟨hfits, H, hstart, hend, hplaced⟩ := hemits.emits d hd herrors
      refine ⟨hfits, H, hstart, hend, fun k hk hagrees => ?_⟩
      obtain ⟨hholds, hq⟩ := hplaced k hk hagrees
      exact ⟨.local hholds hid', hq⟩

theorem emitLoad {id : SymbolId} (hid : id < globals ∨ id ∈ Γ) (n m line : Nat) :
    Emits (κ := κ) known globals count Γ Γ n m (emitLoad id line) fun _ k p q =>
      k.LoadAt Γ p n id ∧ q = p + 2 := by
  refine access line rfl rfl (fun _ => .emitLoad id line) (fun d kind slot hslot => ?_) hid n m
  simp only [ScriptMachine.emitLoad, gen_bind, gen_get, hslot]
  cases kind <;> rfl

theorem emitStore {id : SymbolId} (hid : id < globals ∨ id ∈ Γ) (n m line : Nat) :
    Emits (κ := κ) known globals count Γ Γ n m (emitStore id line) fun _ k p q =>
      k.StoreAt Γ p n id ∧ q = p + 2 := by
  refine access line rfl rfl (fun _ => .emitStore id line) (fun d kind slot hslot => ?_) hid n m
  simp only [ScriptMachine.emitStore, gen_bind, gen_get, hslot]
  cases kind <;> rfl

theorem emitStore? {id : Option SymbolId} {i : SymbolId} (hid : id = some i)
    (hi : i < globals ∨ i ∈ Γ) (n m line : Nat) :
    Emits (κ := κ) known globals count Γ Γ n m (emitStore? id line) fun _ k p q =>
      k.StoreAt Γ p n i ∧ q = p + 2 := by
  subst hid
  exact emitStore hi n m line

/-- A symbol that is not live yet becomes the next local. -/
theorem declareSlot {id : Option SymbolId} {i : SymbolId} (hid : id = some i) (hi : globals ≤ i)
    (hcount : i < count) (hfresh : i ∉ Γ) (span : Span) (n : Nat) :
    Emits (κ := κ) known globals count Γ (Γ ++ [i]) n n (declareSlot id span) fun _ _ p q =>
      p = q := by
  subst hid
  refine (silent (P := fun _ _ => True) (fun _ => .declareSlot (some i) span)
    (fun d hd herrors => ?_) n).mono fun h => h.2
  have happly : ScriptMachine.declareSlot (some i) span d =
      if d.height = maxSlots then
        ((), { d with
          errors := d.errors.push ⟨.tooManyLocals, span⟩
          symbols := d.symbols.setSlot i d.height
          height := d.height + 1 })
      else
        ((), { d with symbols := d.symbols.setSlot i d.height, height := d.height + 1 }) := by
    by_cases hfull : d.height = maxSlots
    · simp only [ScriptMachine.declareSlot, gen_bind, gen_get, hfull, if_true]
      rfl
    · simp only [ScriptMachine.declareSlot, gen_bind]
      rw [gen_get, if_neg hfull, if_neg hfull]
      rfl
  rw [happly] at herrors ⊢
  split at herrors
  · simp at herrors
  · next hroom =>
    rw [if_neg hroom]
    exact ⟨hd.declare hi hcount hfresh hroom, rfl, fun _ _ _ _ => trivial⟩

end Emits

/-! ## Jumps -/

section Jumps

variable {k : Site κ} {d : Draft κ} {op : Opcode}

theorem emitJump_apply (op : Opcode) (line : Nat) (d : Draft κ) :
    emitJump op line d = (d.chunk.code.size,
      { d with chunk := ((d.chunk.write op.toByte line).write 0xff line).write 0xff line }) := rfl

theorem code_emitJump (op : Opcode) (line : Nat) (d : Draft κ) :
    (emitJump op line d).2.chunk.code[d.chunk.code.size]? = some op.toByte := by
  have hne : d.chunk.code.size ≠ d.chunk.code.size + 1 := by omega
  have hne' : d.chunk.code.size ≠ d.chunk.code.size + 1 + 1 := by omega
  simp only [emitJump_apply, Chunk.write, Array.getElem?_push, Array.size_push, if_neg hne,
    if_neg hne', if_true]

theorem size_emitJump (op : Opcode) (line : Nat) (d : Draft κ) :
    (emitJump op line d).2.chunk.code.size = d.chunk.code.size + 3 := by
  simp only [emitJump_apply, Chunk.size_write]

/-- The draft in which the jump at `offset` leads to the end of the code. -/
def Draft.landed (d : Draft κ) (offset : Nat) : Draft κ :=
  { d with chunk := d.chunk.patchJump offset (d.chunk.code.size - (offset + 3)) }

theorem Draft.size_landed (d : Draft κ) (offset : Nat) :
    (d.landed offset).chunk.code.size = d.chunk.code.size := Chunk.size_patchJump _ _ _

theorem Draft.edits_landed (known : Handle → Prop) (d : Draft κ) (offset : Nat) :
    Draft.Edits known offset d (d.landed offset) := .single (.patch d _ _ (Nat.le_refl _))

theorem Draft.Fits.landed {globals count : Nat} {Γ : List SymbolId} (hd : d.Fits globals count Γ)
    (offset : Nat) : (d.landed offset).Fits globals count Γ := hd.withChunk hd.pool

/-- Filling in a jump changes nothing but its distance. -/
theorem Draft.sameCode_landed (d : Draft κ) {offset a b : Nat}
    (h : b ≤ offset + 1 ∨ offset + 3 ≤ a) : d.SameCode (d.landed offset) a b := by
  intro i hi hi'
  have hne : offset + 1 ≠ i := by omega
  have hne' : offset + 2 ≠ i := by omega
  simp [Draft.landed, Chunk.patchJump, hne, hne']

/-- A jump that lands without an error is not too far. -/
theorem landJump_apply {offset : Nat} {span : Span}
    (h : (landJump offset span d).2.errors = #[]) :
    d.chunk.code.size - (offset + 3) ≤ maxDistance ∧
      landJump offset span d = ((), d.landed offset) := by
  by_cases hfar : d.chunk.code.size - (offset + 3) ≤ maxDistance
  · refine ⟨hfar, ?_⟩
    simp only [landJump, gen_bind]
    rw [gen_get, if_pos hfar]
    rfl
  · simp only [landJump, gen_bind] at h
    rw [gen_get, if_neg hfar] at h
    simp [reportCode, modify, gen_modifyGet] at h

theorem Chunk.wordOf_bytes {distance : Nat} (h : distance ≤ maxDistance) :
    Chunk.wordOf (distance / 256).toUInt8 (distance % 256).toUInt8 = distance := by
  simp only [maxDistance] at h
  rw [Chunk.wordOf, toNat_toUInt8 (by omega), toNat_toUInt8 (by omega)]
  omega

/-- The jump that has been filled in. -/
theorem Site.Agrees.jumps {offset n a b : Nat} {H : Nat → Nat}
    (h : k.Agrees (d.landed offset) a b H) (hcode : d.chunk.code[offset]? = some op.toByte)
    (hop : op.layout = .distance) (hsize : offset + 3 ≤ d.chunk.code.size) (ha : a ≤ offset)
    (hb : offset + 3 ≤ b) (hnear : d.chunk.code.size - (offset + 3) ≤ maxDistance)
    (hheight : H offset = n) : k.Jumps offset n op d.chunk.code.size := by
  have hop' : k.chunk.code[offset]? = some op.toByte := by
    rw [h.code offset ha (by omega)]
    simpa [Draft.landed, Chunk.patchJump] using hcode
  have hfirst : k.chunk.code[offset + 1]? =
      some ((d.chunk.code.size - (offset + 3)) / 256).toUInt8 := by
    rw [h.code (offset + 1) (by omega) (by omega)]
    have hlt : offset + 1 < d.chunk.code.size := by omega
    simp [Draft.landed, Chunk.patchJump, hlt]
  have hsecond : k.chunk.code[offset + 2]? =
      some ((d.chunk.code.size - (offset + 3)) % 256).toUInt8 := by
    rw [h.code (offset + 2) (by omega) (by omega)]
    have hlt : offset + 2 < d.chunk.code.size := by omega
    simp [Draft.landed, Chunk.patchJump, hlt]
  refine ⟨((d.chunk.code.size - (offset + 3)) / 256).toUInt8,
    ((d.chunk.code.size - (offset + 3)) % 256).toUInt8, ⟨?_, ?_⟩, ?_⟩
  · rw [Chunk.fetch_two hop' hfirst hsecond (by rw [hop]; rfl) (by simp [hop])]
    simp [Instruction.length, hop, Layout.width]
  · rw [h.height offset ha (by omega), hheight]
  · rw [Chunk.wordOf_bytes hnear]
    omega

end Jumps

namespace Emits

variable {globals count : Nat} {Γ : List SymbolId} {m l h h' : Nat}

/-- A jump over some code. -/
theorem jumpOver (op : Opcode) {body : Gen κ Unit} {P : Unit → Site κ → Nat → Nat → Prop}
    (hop : op.layout = .distance) (hbody : Emits known globals count Γ Γ h m body P)
    (line : Nat) (span : Span) (n : Nat) :
    Emits known globals count Γ Γ n m (do
      let jump ← emitJump op line
      body
      landJump jump span) fun _ k p q => k.Jumps p n op q ∧ P () k (p + 3) q where
  walks _ := (Walks.emitJump op line).bind fun _ hjump => (hbody.walks _).bind fun _ _ =>
    .landJump hjump span
  emits d hd herrors := by
    simp only [gen_bind] at herrors ⊢
    have hfits₁ : (emitJump op line d).2.Fits globals count Γ := hd.withChunk hd.pool
    have hcode₁ := code_emitJump op line d
    have hsize₁ := size_emitJump op line d
    rw [show (emitJump op line d).1 = d.chunk.code.size from rfl] at herrors ⊢
    generalize (emitJump op line d).2 = d₁ at *
    obtain ⟨hnear, hland⟩ := landJump_apply herrors
    have hedits := (hbody.walks d₁.chunk.code.size d₁ (Nat.le_refl _)).1
    rw [hland] at herrors ⊢
    obtain ⟨hfits₂, H, -, hend, hplaced⟩ := hbody.emits d₁ hfits₁ herrors
    generalize (body d₁).2 = d₂ at *
    have hle := hedits.size_le
    dsimp only
    rw [Draft.size_landed]
    refine ⟨hfits₂.landed _, fun i => if i < d₁.chunk.code.size then n else H i,
      if_pos (by omega), (if_neg (by omega)).trans hend, fun k hk hagrees => ⟨?_, ?_⟩⟩
    · have hcode₂ : d₂.chunk.code[d.chunk.code.size]? = some op.toByte := by
        rw [hedits.sameCode (Nat.le_refl _) 0 _ (Nat.zero_le _) (by omega), hcode₁]
      exact hagrees.jumps hcode₂ hop (by omega) (Nat.le_refl _) (by omega) hnear (if_pos (by omega))
    · rw [← hsize₁]
      refine hplaced k hk (hagrees.back (d₂.edits_landed known _) hfits₂.wf
        (d₂.sameCode_landed (.inr (by omega))) (by omega) (Nat.le_refl _) fun i hi _ => ?_)
      exact if_neg (by omega)

/-- Two pieces of code, of which a jump leads behind the first, and one at its
end behind the second. -/
theorem branches (op op' : Opcode) {body body' : Gen κ Unit}
    {P P' : Unit → Site κ → Nat → Nat → Prop} (hop : op.layout = .distance)
    (hop' : op'.layout = .distance) (hbody : Emits known globals count Γ Γ h l body P)
    (hbody' : Emits known globals count Γ Γ h' m body' P') (line : Nat) (span : Span) (n : Nat) :
    Emits known globals count Γ Γ n m (do
      let jump ← emitJump op line
      body
      let jump' ← emitJump op' line
      landJump jump span
      body'
      landJump jump' span) fun _ k p q => ∃ r, k.Jumps p n op (r + 3) ∧ P () k (p + 3) r ∧
        k.Jumps r l op' q ∧ P' () k (r + 3) q where
  walks _ := (Walks.emitJump op line).bind fun _ hjump => (hbody.walks _).bind fun _ _ =>
    (Walks.emitJump op' line).bind fun _ hjump' => (Walks.landJump hjump span).bind fun _ _ =>
      (hbody'.walks _).bind fun _ _ => .landJump hjump' span
  emits d hd herrors := by
    simp only [gen_bind] at herrors ⊢
    have hfits₁ : (emitJump op line d).2.Fits globals count Γ := hd.withChunk hd.pool
    have hcode₁ := code_emitJump op line d
    have hsize₁ := size_emitJump op line d
    rw [show (emitJump op line d).1 = d.chunk.code.size from rfl] at herrors ⊢
    generalize (emitJump op line d).2 = d₁ at *
    have hedits₁ := (hbody.walks d₁.chunk.code.size d₁ (Nat.le_refl _)).1
    have hemits₁ := hbody.emits d₁ hfits₁
    generalize (body d₁).2 = d₂ at *
    have hcode₃ := code_emitJump op' line d₂
    have hsize₃ := size_emitJump op' line d₂
    have hwalks : Walks (κ := κ) known d₂.chunk.code.size _ (emitJump op' line) :=
      .emitJump op' line
    have hedits₂ := (hwalks d₂ (Nat.le_refl _)).1
    have hfits₃ : d₂.Fits globals count Γ → (emitJump op' line d₂).2.Fits globals count Γ :=
      fun hd₂ => hd₂.withChunk hd₂.pool
    rw [show (emitJump op' line d₂).1 = d₂.chunk.code.size from rfl] at herrors ⊢
    generalize (emitJump op' line d₂).2 = d₃ at *
    -- Errors are never taken back, so both jumps have landed.
    have hedits₄ := (hbody'.walks (landJump d.chunk.code.size span d₃).2.chunk.code.size
      (landJump d.chunk.code.size span d₃).2 (Nat.le_refl _)).1
    obtain ⟨hnear', hland'⟩ := landJump_apply herrors
    rw [hland'] at herrors ⊢
    obtain ⟨hnear, hland⟩ := landJump_apply (hedits₄.errors_eq_empty herrors)
    rw [hland] at herrors hnear' hedits₄ ⊢
    dsimp only at herrors hnear' hedits₄ ⊢
    have herrors₃ : d₃.errors = #[] := hedits₄.errors_eq_empty herrors
    obtain ⟨hfits₂, H₁, -, hend₁, hplaced₁⟩ := hemits₁ (hedits₂.errors_eq_empty herrors₃)
    have hfits₄ := (hfits₃ hfits₂).landed d.chunk.code.size
    obtain ⟨hfits₅, H₂, -, hend₂, hplaced₂⟩ := hbody'.emits _ hfits₄ herrors
    generalize (body' (d₃.landed d.chunk.code.size)).2 = d₅ at *
    have hle₁ := hedits₁.size_le
    have hle₄ := hedits₄.size_le
    rw [Draft.size_landed] at hedits₄ hle₄ hplaced₂ ⊢
    have hsame₂ : d₂.SameCode d₃ 0 d₂.chunk.code.size := hedits₂.sameCode (Nat.le_refl _) 0
    have hsame₄ : (d₃.landed d.chunk.code.size).SameCode d₅ 0 d₃.chunk.code.size :=
      hedits₄.sameCode (Nat.le_of_eq (d₃.size_landed _).symm) 0
    refine ⟨hfits₅.landed _, fun i => if i < d₁.chunk.code.size then n else
      if i < d₂.chunk.code.size then H₁ i else if i < d₃.chunk.code.size then l else H₂ i,
      if_pos (by omega), ?_, fun k hk hagrees => ?_⟩
    · dsimp only
      rw [if_neg (by omega), if_neg (by omega), if_neg (by omega), hend₂]
    -- Up to the second jump, what is written behind the first piece changes nothing.
    have hagrees₄ : ∀ {a b H'}, d.chunk.code.size ≤ a → b ≤ d₂.chunk.code.size →
        (∀ i, a ≤ i → i ≤ b → k.height i = H' i) →
          k.Agrees (d₃.landed d.chunk.code.size) a b H' := by
      intro a b H' ha hb hheight
      have hagrees₅ : k.Agrees d₅ a b _ := hagrees.back (d₅.edits_landed known _) hfits₅.wf
        (d₅.sameCode_landed (.inl (by omega))) ha (by omega)
        fun _ _ _ => rfl
      have hback := hagrees₅.back hedits₄ hfits₄.wf (hsame₄.within (Nat.zero_le _) (by omega))
        (Nat.le_refl _) (Nat.le_refl _) fun _ _ _ => rfl
      exact ⟨hback.code, hback.constants, hback.heap, hheight⟩
    refine ⟨d₂.chunk.code.size, ?_, ?_, ?_, ?_⟩
    · have hcode : d₃.chunk.code[d.chunk.code.size]? = some op.toByte := by
        rw [hsame₂ _ (Nat.zero_le _) (by omega),
          hedits₁.sameCode (Nat.le_refl _) 0 _ (Nat.zero_le _) (by omega), hcode₁]
      have hjumps := (hagrees₄ (Nat.le_refl _) hle₁ fun _ _ _ => rfl).jumps hcode hop (by omega)
        (Nat.le_refl _) (by omega) hnear (hagrees.height _ (Nat.le_refl _) (by omega))
      rw [hsize₃] at hjumps
      rwa [if_pos (by omega)] at hjumps
    · rw [← hsize₁]
      have hagrees₃ := (hagrees₄ (Nat.le_of_lt (by omega)) (Nat.le_refl _) fun _ _ _ => rfl).back
        (d₃.edits_landed known _) (hfits₃ hfits₂).wf
        (d₃.sameCode_landed (.inr (Nat.le_of_eq hsize₁.symm))) (Nat.le_refl _) (Nat.le_refl _)
        fun _ _ _ => rfl
      refine hplaced₁ k hk (hagrees₃.back hedits₂ hfits₂.wf (hsame₂.within (Nat.zero_le _)
        (Nat.le_refl _)) (Nat.le_refl _) (Nat.le_refl _) fun i hi hi' => ?_)
      rw [hagrees.height i (by omega) (by omega), if_neg (by omega)]
      split
      · rfl
      · rw [if_pos (by omega), show i = d₂.chunk.code.size by omega, hend₁]
    · have hcode : d₅.chunk.code[d₂.chunk.code.size]? = some op'.toByte := by
        rw [hsame₄ _ (Nat.zero_le _) (by omega),
          d₃.sameCode_landed (.inr (Nat.le_refl _)) _ (by omega) (Nat.lt_succ_self _), hcode₃]
      refine hagrees.jumps hcode hop' (by omega) (by omega) (by omega) hnear' ?_
      rw [if_neg (by omega), if_neg (by omega), if_pos (by omega)]
    · rw [← hsize₃]
      refine hplaced₂ k hk (hagrees.back (d₅.edits_landed known _)
        hfits₅.wf (d₅.sameCode_landed (.inr (by omega))) (by omega) (Nat.le_refl _) fun i hi _ =>
          ?_)
      rw [if_neg (by omega), if_neg (by omega), if_neg (by omega)]

end Emits

end ScriptMachine
