import ScriptMachine.Proofs.Codegen.Transcribed

/-!
# What instructions of functions belong to

In the listing of a function only call expressions call functions, conditions are
tested for conditionals and for `and` and `or`, and the ends of blocks do nothing but
pop (`Listed.InFunction`, `FnDecl.listed_inFunction`). The line of a listed instruction
is that of all its bytes (`Chunk.Transcribes.lineAt_eq`).
-/

namespace ScriptMachine

/-! ## Lines -/

/-- Every byte of a listed instruction has the line of what that belongs to. -/
theorem getElem?_listedLines {L : List Listed} {p : Nat} {l : Listed} (h : listedAt? L p = some l)
    {j : Nat} (hj : j < l.size) : (listedLines L)[p + j]? = some l.node.line := by
  induction L generalizing p with
  | nil => cases h
  | cons l' L ih =>
    rw [listedLines, List.flatMap_cons]
    rw [listedAt?] at h
    split at h
    · next hzero =>
      cases h
      rw [hzero, Nat.zero_add, List.getElem?_append_left (by rwa [List.length_replicate]),
        List.getElem?_replicate, if_pos hj]
    · split at h
      · cases h
      · have hoffset : p + j - l'.size = p - l'.size + j := by omega
        rw [List.getElem?_append_right (by rw [List.length_replicate]; omega),
          List.length_replicate, hoffset]
        exact ih h

/-- The line of the last byte of a listed instruction. -/
theorem Chunk.Transcribes.lineAt_eq {κ : Type} {chunk : Chunk} {heap : Heap κ} {exact : Prop}
    {L : List Listed} (h : chunk.Transcribes heap exact L) {p : Nat} {l : Listed}
    (hl : listedAt? L p = some l) : chunk.lineAt (p + l.size - 1) = l.node.line := by
  have hpos := l.size_pos
  refine Chunk.lineAt_eq ?_
  rw [h.lines, Nat.add_sub_assoc hpos]
  exact getElem?_listedLines hl (by omega)

theorem mem_of_listedAt? {L : List Listed} {p : Nat} {l : Listed} (h : listedAt? L p = some l) :
    l ∈ L := by
  induction L generalizing p with
  | nil => cases h
  | cons l' L ih =>
    rw [listedAt?] at h
    split at h
    · cases h
      exact List.mem_cons_self
    · split at h
      · cases h
      · exact List.mem_cons_of_mem l' (ih h)

/-! ## Instructions of functions -/

/-- An instruction that tests a condition. -/
def Opcode.Tests : Opcode → Prop
  | .jumpIfFalse | .jumpIfTrue => True
  | _ => False

/-- The end of a block. -/
def Node.EndsBlock : Node → Prop
  | .blockEnd _ => True
  | _ => False

/-- What an instruction of a function belongs to. -/
structure Listed.InFunction (l : Listed) : Prop where
  call : l.opcode = .call → ∃ callee args s, l.node = .expr (.call callee args s)
  test : l.opcode.Tests →
    (∃ test thenBlock elseBlock s, l.node = .stmt (.cond test thenBlock elseBlock s)) ∨
      ∃ op left right s, l.node = .expr (.logical op left right s)
  blockEnd : l.node.EndsBlock → l.opcode = .pop ∨ l.opcode = .popN

/-- All instructions of a listing are such. -/
def InFunction (L : List Listed) : Prop := ∀ l ∈ L, l.InFunction

namespace InFunction

variable {L L' : List Listed} {op : Opcode} {operand : Operand} {node : Node} {n : Nat}

theorem nil : InFunction [] := List.forall_mem_nil _

theorem append (h : InFunction L) (h' : InFunction L') : InFunction (L ++ L') :=
  List.forall_mem_append.2 ⟨h, h'⟩

theorem cons {l : Listed} (hl : l.InFunction) (h : InFunction L) : InFunction (l :: L) :=
  List.forall_mem_cons.2 ⟨hl, h⟩

/-- An instruction that neither calls nor tests anything. -/
theorem plain (hcall : op ≠ .call) (htest : ¬op.Tests) (hnode : ¬node.EndsBlock) :
    InFunction [⟨op, operand, node, n⟩] :=
  cons ⟨fun h => absurd h hcall, fun h => absurd h htest, fun h => absurd h hnode⟩ nil

/-- An instruction that pops. -/
theorem pops (hop : op = .pop ∨ op = .popN) : InFunction [⟨op, operand, node, n⟩] := by
  refine cons ⟨fun h => ?_, fun h => ?_, fun _ => hop⟩ nil
  · rcases hop with rfl | rfl <;> cases h
  · rcases hop with rfl | rfl <;> cases h

/-- An instruction without operand bytes. -/
theorem bare (hop : op.layout = .bare) (hnode : ¬node.EndsBlock) :
    InFunction [⟨op, operand, node, n⟩] := by
  refine plain ?_ (fun htest => ?_) hnode
  · rintro rfl
    cases hop
  · cases op <;> first | exact htest | cases hop

theorem flatMap {α : Type} {f : α → List Listed} {xs : List α} (h : ∀ x ∈ xs, InFunction (f x)) :
    InFunction (xs.flatMap f) := List.forall_mem_flatMap.2 h

theorem load (σ : Slots) (id : Option SymbolId) (hnode : ¬node.EndsBlock) :
    InFunction (σ.load id node n) := by
  unfold Slots.load Slots.access
  split
  · exact plain nofun not_false hnode
  · exact plain nofun not_false hnode
  · exact bare rfl hnode

theorem store (σ : Slots) (id : Option SymbolId) (hnode : ¬node.EndsBlock) :
    InFunction (σ.store id node n) := by
  unfold Slots.store Slots.access
  split
  · exact plain nofun not_false hnode
  · exact plain nofun not_false hnode
  · exact nil

theorem binary (op : BinaryOp) (hnode : ¬node.EndsBlock) :
    InFunction [⟨op.opcode, operand, node, n⟩] := by
  cases op <;> exact bare rfl hnode

theorem assignOp (op : AssignOp) {old : List Listed} {new : Nat → List Listed}
    (hold : InFunction old) (hnew : ∀ n, InFunction (new n)) (hnode : ¬node.EndsBlock) :
    InFunction (op.listed old new node n) := by
  unfold AssignOp.listed
  split
  · exact (hold.append (hnew (n + 1))).append (binary _ hnode)
  · exact hnew n

end InFunction

mutual

theorem Expr.listed_inFunction (σ : Slots) : ∀ (e : Expr) (n : Nat), InFunction (e.listed σ n)
  | .null _, _ | .bool true _, _ | .bool false _, _ | .string .., _ | .property .., _ =>
    .bare rfl not_false
  | .number .., _ => .plain nofun not_false not_false
  | .name .., _ => .load σ _ not_false
  | .unary op e s, n => by
    refine (e.listed_inFunction σ n).append ?_
    cases op <;> exact .bare rfl not_false
  | .binary op left right s, n =>
    ((left.listed_inFunction σ n).append (right.listed_inFunction σ (n + 1))).append
      (.binary op not_false)
  | .logical op left right s, n => by
    refine (left.listed_inFunction σ n).append (.cons ⟨?_, fun _ => ?_, False.elim⟩
      (.append (.pops (.inl rfl)) (right.listed_inFunction σ n)))
    · cases op <;> exact nofun
    · exact .inr ⟨op, left, right, s, rfl⟩
  | .list items s, n =>
    (exprsListed_inFunction σ items n).append (.plain nofun not_false not_false)
  | .index base index s, n =>
    ((base.listed_inFunction σ n).append (index.listed_inFunction σ (n + 1))).append
      (.bare rfl not_false)
  | .assign op target value s, n => by
    have hjoined : ∀ (node : Node) (n : Nat), ¬node.EndsBlock →
        InFunction (op.listed (target.listed σ n) (value.listed σ) node n) :=
      fun node n hnode => .assignOp op (target.listed_inFunction σ n)
        (value.listed_inFunction σ) hnode
    cases target with
    | name text id t => exact (hjoined (.expr _) n not_false).append (.store σ _ not_false)
    | index base index t =>
      have hplace := (base.listed_inFunction σ n).append (index.listed_inFunction σ (n + 1))
      exact (hplace.append (hjoined (.expr _) (n + 2) not_false)).append (.bare rfl not_false)
    | _ => exact hjoined _ n not_false
  | .call callee args s, n => by
    have hargs := exprsListed_inFunction σ args (n + 1)
    cases callee with
    | property object name t =>
      exact ((object.listed_inFunction σ n).append hargs).append
        (.plain nofun not_false not_false)
    | _ =>
      refine ((Expr.listed_inFunction σ _ n).append hargs).append (.cons ?_ .nil)
      exact ⟨fun _ => ⟨_, args, s, rfl⟩, False.elim, False.elim⟩
termination_by structural e => e

theorem exprsListed_inFunction (σ : Slots) :
    ∀ (es : List Expr) (n : Nat), InFunction (exprsListed σ es n)
  | [], _ => .nil
  | e :: es, n => (e.listed_inFunction σ n).append (exprsListed_inFunction σ es (n + 1))
termination_by structural es => es

end

theorem initListed_inFunction (σ : Slots) (value : Option Expr) {node : Node}
    (hnode : ¬node.EndsBlock) : InFunction (initListed σ value node) := by
  cases value with
  | some e => exact e.listed_inFunction σ _
  | none => exact .bare rfl hnode

theorem popsListed_inFunction (count : Nat) (node : Node) (n : Nat) :
    InFunction (popsListed count node n) := by
  have hmany : ∀ count, InFunction (popManyListed count node n) := by
    intro count
    fun_induction popManyListed count node n with
    | case1 count _ ih => exact .append (.pops (.inr rfl)) ih
    | case2 => exact .nil
  unfold popsListed
  split
  · exact .pops (.inl rfl)
  · exact hmany count

theorem condListed_inFunction {test thenCode elseCode : List Listed} (htest : InFunction test)
    (hthen : InFunction thenCode) (helse : InFunction elseCode) {e : Expr} {thenBlock : Block Stmt}
    {elseBlock : Option (Block Stmt)} {s : Span} {n : Nat} :
    InFunction (condListed test thenCode elseCode (.stmt (.cond e thenBlock elseBlock s)) n) := by
  have hpop : ∀ {L}, InFunction L →
      InFunction (⟨.pop, .none, .stmt (.cond e thenBlock elseBlock s), n + 1⟩ :: L) :=
    fun hL => .append (.pops (.inl rfl)) hL
  have hjump : InFunction [⟨.jump, .distance (codeLength
      (⟨.pop, .none, .stmt (.cond e thenBlock elseBlock s), n + 1⟩ :: elseCode)),
        .stmt (.cond e thenBlock elseBlock s), n⟩] :=
    .plain nofun not_false not_false
  refine htest.append (.cons ⟨nofun, fun _ => ?_, False.elim⟩
    ((hpop (hthen.append hjump)).append (hpop helse)))
  exact .inl ⟨e, thenBlock, elseBlock, s, rfl⟩

mutual

theorem Stmt.listed_inFunction : ∀ (s : Stmt) (σ : Slots), InFunction (s.listed σ)
  | .block body, σ => blockListed_inFunction body σ
  | .var d, σ => initListed_inFunction σ d.init id
  | .cond test thenBlock none _, σ =>
    condListed_inFunction (test.listed_inFunction σ _) (blockListed_inFunction thenBlock σ) .nil
  | .cond test thenBlock (some elseBlock) _, σ =>
    condListed_inFunction (test.listed_inFunction σ _) (blockListed_inFunction thenBlock σ)
      (blockListed_inFunction elseBlock σ)
  | .ret value _, σ => (initListed_inFunction σ value id).append (.bare rfl not_false)
  | .print value _, σ | .expr value _, σ =>
    (value.listed_inFunction σ _).append (.bare rfl not_false)
termination_by structural s => s

theorem blockListed_inFunction : ∀ (body : Block Stmt) (σ : Slots), InFunction (blockListed body σ)
  | ⟨stmts, _⟩, σ => (stmtsListed_inFunction stmts σ).append (popsListed_inFunction _ _ _)
termination_by structural body => body

theorem stmtsListed_inFunction : ∀ (stmts : List Stmt) (σ : Slots), InFunction (stmtsListed stmts σ)
  | [], _ => .nil
  | s :: ss, σ => (s.listed_inFunction σ).append (stmtsListed_inFunction ss _)
termination_by structural stmts => stmts

end

theorem returnListed_inFunction (d : FnDecl) (n : Nat) :
    InFunction (returnListed (.bodyEnd d) n) := by
  have hend : ¬(Node.bodyEnd d).EndsBlock := not_false
  exact .append (.bare rfl hend) (.bare rfl hend)

theorem FnDecl.listed_inFunction (globals count : Nat) (d : FnDecl) :
    InFunction (d.listed globals count) :=
  (stmtsListed_inFunction d.body.stmts _).append (returnListed_inFunction d _)

/-- An instruction of a script belongs to an initialiser or a declaration, or to the end,
where nothing is tested. -/
theorem Program.listed_origin {globals count : Nat} {program : Program}
    {fns : List (FnDecl × Handle)} {l : Listed} (h : l ∈ program.listed globals count fns) :
    l.InFunction ∨ l.node = .scriptEnd program ∧ ¬l.opcode.Tests := by
  let σ : Slots := ⟨globals, count, []⟩
  have hstores : InFunction (fns.flatMap (fnStoreListed σ)) := by
    refine .flatMap fun fn _ => ?_
    have hconstant : InFunction
        [⟨.constant, .constant (.object fn.2), .decl (.fn fn.1), 0⟩] :=
      .plain nofun not_false not_false
    exact (hconstant.append (.store σ fn.1.id id)).append (.bare rfl not_false)
  have hinits : InFunction (program.decls.flatMap (varInitListed σ)) := by
    refine .flatMap fun decl _ => ?_
    cases decl with
    | fn d => exact .nil
    | var d =>
      exact ((initListed_inFunction σ d.init id).append (.store σ d.id id)).append
        (.bare rfl not_false)
  have hmain : ∀ l ∈ mainListed σ program, l.node = .scriptEnd program ∧ ¬l.opcode.Tests := by
    unfold mainListed
    split
    · next id _ =>
      refine List.forall_mem_append.2 ⟨fun l hl => ?_, ?_⟩
      · unfold Slots.load Slots.access at hl
        split at hl <;> rw [List.mem_singleton.1 hl] <;> exact ⟨rfl, not_false⟩
      · simp [Opcode.Tests]
    · exact List.forall_mem_nil _
  have hreturn : ∀ l ∈ returnListed (.scriptEnd program) 0,
      l.node = .scriptEnd program ∧ ¬l.opcode.Tests := by
    simp [returnListed, Opcode.Tests]
  rcases List.mem_append.1 h with h | h
  · rcases List.mem_append.1 h with h | h
    · rcases List.mem_append.1 h with h | h
      · exact .inl (hstores l h)
      · exact .inl (hinits l h)
    · exact .inr (hmain l h)
  · exact .inr (hreturn l h)

end ScriptMachine
