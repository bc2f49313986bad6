import ScriptMachine.Proofs.Codegen.Compiled
import ScriptMachine.Proofs.Codegen.Flow
import ScriptMachine.Proofs.Codegen.Settling

/-!
# Accesses to variables

The accesses to variables in a part of a program are told by its text alone: which
names are read and assigned to, in the order of the code (`Expr.accesses`,
`FnDecl.accesses`, `Program.accesses`). The instructions of a listing that access
variables are those of the accesses in the text that find a slot, in this order
(`Expr.accesses_listed`, `Stmt.accesses_listed`). A compound assignment to an
element computes the list and the index twice, and a property that is not called has
no code.
-/

namespace ScriptMachine

/-! ## Accesses in the text -/

/-- An access to a variable, by the number that is written for its name. -/
structure Access where
  store : Bool
  id : Option SymbolId
  deriving DecidableEq, Repr

/-- The accesses of a value that is assigned. -/
def AssignOp.accesses (op : AssignOp) (old new : List Access) : List Access :=
  match op.binary? with
  | some _ => old ++ new
  | none => new

mutual

/-- The accesses of an expression, in the order of its code. -/
def Expr.accesses : Expr → List Access
  | .null _ | .bool _ _ | .number _ _ | .string _ _ | .property _ _ _ => []
  | .name _ id _ => [⟨false, id⟩]
  | .unary _ e _ => e.accesses
  | .binary _ left right _ | .logical _ left right _ | .index left right _ =>
    left.accesses ++ right.accesses
  | .list items _ => exprsAccesses items
  | .assign op (.name _ id _) value _ =>
    op.accesses [⟨false, id⟩] value.accesses ++ [⟨true, id⟩]
  | .assign op (.index base index _) value _ =>
    base.accesses ++ index.accesses ++
      op.accesses (base.accesses ++ index.accesses) value.accesses
  | .assign op target value _ => op.accesses target.accesses value.accesses
  | .call (.property object _ _) args _ => object.accesses ++ exprsAccesses args
  | .call callee args _ => callee.accesses ++ exprsAccesses args
termination_by structural e => e

def exprsAccesses : List Expr → List Access
  | [] => []
  | e :: es => e.accesses ++ exprsAccesses es
termination_by structural es => es

end

def initAccesses : Option Expr → List Access
  | some e => e.accesses
  | none => []

mutual

/-- The accesses of a statement. Declaring a local is none: its value stays where it
is. -/
def Stmt.accesses : Stmt → List Access
  | .block body => blockAccesses body
  | .var d => initAccesses d.init
  | .cond test thenBlock none _ => test.accesses ++ blockAccesses thenBlock
  | .cond test thenBlock (some elseBlock) _ =>
    test.accesses ++ (blockAccesses thenBlock ++ blockAccesses elseBlock)
  | .ret value _ => initAccesses value
  | .print value _ | .expr value _ => value.accesses
termination_by structural s => s

def blockAccesses : Block Stmt → List Access
  | ⟨stmts, _⟩ => stmtsAccesses stmts
termination_by structural b => b

def stmtsAccesses : List Stmt → List Access
  | [] => []
  | s :: ss => s.accesses ++ stmtsAccesses ss
termination_by structural ss => ss

end

/-- The accesses of a function. -/
def FnDecl.accesses (d : FnDecl) : List Access := stmtsAccesses d.body.stmts

/-- The accesses of initialising a global variable. -/
def Decl.accesses : Decl → List Access
  | .fn _ => []
  | .var d => initAccesses d.init ++ [⟨true, d.id⟩]

/-- The accesses of the script of a program: it stores the functions, initialises the
variables, and reads `main`. -/
def Program.accesses (program : Program) : List Access :=
  program.fns.map (fun d => ⟨true, d.id⟩) ++ program.decls.flatMap Decl.accesses ++
    program.mainIds.head?.toList.map (fun id => ⟨false, some id⟩)

/-! ## Accesses in code -/

/-- An access to a slot. -/
structure SlotAccess where
  store : Bool
  kind : SymbolKind
  slot : Nat
  deriving DecidableEq, Repr

/-- An access to the slot where a variable is found. -/
def Access.on (find? : SymbolId → Option (SymbolKind × Nat)) (a : Access) : Option SlotAccess :=
  (a.id.bind find?).map fun place => ⟨a.store, place.1, place.2⟩

/-- Whether an instruction accesses variables, by storing or not, and which ones. -/
def Opcode.access? : Opcode → Option (Bool × SymbolKind)
  | .getLocal => some (false, .local)
  | .getGlobal => some (false, .global)
  | .setLocal => some (true, .local)
  | .setGlobal => some (true, .global)
  | _ => none

def Listed.access? (l : Listed) : Option SlotAccess :=
  l.opcode.access?.map fun a => ⟨a.1, a.2, l.operand.amount⟩

def Instruction.access? (i : Instruction) : Option SlotAccess :=
  i.opcode.access?.map fun a => ⟨a.1, a.2, i.first.toNat⟩

/-- The accesses of a listing. -/
def listedAccesses (L : List Listed) : List SlotAccess := L.filterMap Listed.access?

section Rules

variable {σ : Slots} {node : Node} {n : Nat}

@[simp]
theorem listedAccesses_nil : listedAccesses [] = [] := rfl

@[simp]
theorem listedAccesses_append (L L' : List Listed) :
    listedAccesses (L ++ L') = listedAccesses L ++ listedAccesses L' :=
  List.filterMap_append

/-- An instruction that accesses no variable. -/
theorem listedAccesses_cons {l : Listed} (h : l.opcode.access? = none) (L : List Listed) :
    listedAccesses (l :: L) = listedAccesses L :=
  List.filterMap_cons_none (by rw [Listed.access?, h]; rfl)

theorem listedAccesses_single {l : Listed} (h : l.opcode.access? = none) :
    listedAccesses [l] = [] :=
  listedAccesses_cons h []

theorem Slots.load_accesses (σ : Slots) (id : Option SymbolId) (node : Node) (n : Nat) :
    listedAccesses (σ.load id node n) = ((⟨false, id⟩ : Access).on σ.find?).toList := by
  unfold load access Access.on
  split <;> next h => rw [h]; rfl

theorem Slots.store_accesses (σ : Slots) (id : Option SymbolId) (node : Node) (n : Nat) :
    listedAccesses (σ.store id node n) = ((⟨true, id⟩ : Access).on σ.find?).toList := by
  unfold store access Access.on
  split <;> next h => rw [h]; rfl

theorem returnListed_accesses (node : Node) (n : Nat) : listedAccesses (returnListed node n) = [] :=
    rfl

theorem popManyListed_accesses (size : Nat) (node : Node) (n : Nat) :
    listedAccesses (popManyListed size node n) = [] := by
  induction size using Nat.strongRecOn with
  | ind size ih =>
    rw [popManyListed]
    split
    · rw [listedAccesses_cons rfl, ih _ (by unfold maxCount; omega)]
    · rfl

theorem popsListed_accesses (size : Nat) (node : Node) (n : Nat) :
    listedAccesses (popsListed size node n) = [] := by
  unfold popsListed
  split
  · rfl
  · exact popManyListed_accesses size node n

theorem condListed_accesses (T L L' : List Listed) (node : Node) (n : Nat) :
    listedAccesses (condListed T L L' node n) =
      listedAccesses T ++ (listedAccesses L ++ listedAccesses L') := by
  unfold condListed
  rw [listedAccesses_append, listedAccesses_cons rfl, listedAccesses_append,
    listedAccesses_cons rfl,
    listedAccesses_append, listedAccesses_cons rfl, listedAccesses_cons rfl, listedAccesses_nil,
    List.append_nil]

theorem AssignOp.listed_accesses (op : AssignOp) {old : List Listed} {new : Nat → List Listed}
    {A A' : List Access} {find? : SymbolId → Option (SymbolKind × Nat)}
    (hold : listedAccesses old = A.filterMap (Access.on find?))
    (hnew : ∀ n, listedAccesses (new n) = A'.filterMap (Access.on find?)) (node : Node) (n : Nat) :
    listedAccesses (op.listed old new node n) = (op.accesses A A').filterMap (Access.on find?) := by
  unfold listed accesses
  cases op.binary? with
  | some binary =>
    have hbinary : binary.opcode.access? = none := by cases binary <;> rfl
    dsimp only
    rw [listedAccesses_append, listedAccesses_append, listedAccesses_single hbinary, hold, hnew,
      List.append_nil, List.filterMap_append]
  | none => exact hnew n

end Rules

/-! ## Listings of expressions -/

theorem filterMap_single {α β : Type} (f : α → Option β) (a : α) :
    [a].filterMap f = (f a).toList := by
  cases h : f a <;> simp [h]

mutual

/-- The code of an expression accesses what its text does, wherever a slot is found. -/
theorem Expr.accesses_listed (σ : Slots) : ∀ (e : Expr) (n : Nat),
    listedAccesses (e.listed σ n) = e.accesses.filterMap (Access.on σ.find?)
  | .null _, _ | .bool true _, _ | .bool false _, _ | .number _ _, _ | .string _ _, _
  | .property _ _ _, _ => rfl
  | .name _ id _, n => by
    rw [Expr.listed, Expr.accesses, filterMap_single, Slots.load_accesses]
  | .unary op e _, n => by
    rw [Expr.listed, Expr.accesses, listedAccesses_append, e.accesses_listed σ n,
      listedAccesses_single (by cases op <;> rfl), List.append_nil]
  | .binary op left right _, n => by
    rw [Expr.listed, Expr.accesses, listedAccesses_append, listedAccesses_append,
      left.accesses_listed σ n, right.accesses_listed σ (n + 1),
      listedAccesses_single (by cases op <;> rfl), List.append_nil, List.filterMap_append]
  | .logical op left right _, n => by
    rw [Expr.listed, Expr.accesses, listedAccesses_append,
      listedAccesses_cons (by cases op <;> rfl),
      listedAccesses_cons rfl, left.accesses_listed σ n, right.accesses_listed σ n,
      List.filterMap_append]
  | .list items _, n => by
    rw [Expr.listed, Expr.accesses, listedAccesses_append, exprsAccesses_listed σ items n,
      listedAccesses_single rfl, List.append_nil]
  | .index base index _, n => by
    rw [Expr.listed, Expr.accesses, listedAccesses_append, listedAccesses_append,
      base.accesses_listed σ n, index.accesses_listed σ (n + 1), listedAccesses_single rfl,
      List.append_nil, List.filterMap_append]
  | .assign op target value s, n => by
    have hvalue := value.accesses_listed σ
    cases target with
    | name text id t =>
      have hname : ∀ n, listedAccesses ((Expr.name text id t).listed σ n) =
          [(⟨false, id⟩ : Access)].filterMap (Access.on σ.find?) := by
        intro n
        rw [Expr.listed, filterMap_single, Slots.load_accesses]
      rw [Expr.listed, Expr.accesses, listedAccesses_append, op.listed_accesses (hname n) hvalue,
        Slots.store_accesses, List.filterMap_append, filterMap_single]
    | index base index t =>
      have helement : ∀ n, listedAccesses ((Expr.index base index t).listed σ n) =
          (base.accesses ++ index.accesses).filterMap (Access.on σ.find?) := by
        intro n
        rw [Expr.listed, listedAccesses_append, listedAccesses_append, base.accesses_listed σ n,
          index.accesses_listed σ (n + 1), listedAccesses_single rfl, List.append_nil,
          List.filterMap_append]
      rw [Expr.listed, Expr.accesses, listedAccesses_append, listedAccesses_append,
        listedAccesses_append, op.listed_accesses (helement (n + 2)) hvalue,
        base.accesses_listed σ n, index.accesses_listed σ (n + 1), listedAccesses_single rfl,
        List.append_nil, List.filterMap_append, List.filterMap_append]
    | _ =>
      exact op.listed_accesses (Expr.accesses_listed σ _ n) hvalue (.expr (.assign op _ value s)) n
  | .call callee args s, n => by
    have hcallee := callee.accesses_listed σ n
    have hargs := exprsAccesses_listed σ args (n + 1)
    cases callee with
    | property object name t =>
      rw [Expr.listed, Expr.accesses, listedAccesses_append, listedAccesses_append,
        object.accesses_listed σ n, hargs, listedAccesses_single rfl, List.append_nil,
        List.filterMap_append]
    | _ =>
      rw [Expr.listed, Expr.accesses, listedAccesses_append, listedAccesses_append, hcallee, hargs,
        listedAccesses_single rfl, List.append_nil, List.filterMap_append]
      all_goals nofun
termination_by structural e => e

theorem exprsAccesses_listed (σ : Slots) : ∀ (es : List Expr) (n : Nat),
    listedAccesses (exprsListed σ es n) = (exprsAccesses es).filterMap (Access.on σ.find?)
  | [], _ => rfl
  | e :: es, n => by
    rw [exprsListed, exprsAccesses, listedAccesses_append, e.accesses_listed σ n,
      exprsAccesses_listed σ es (n + 1), List.filterMap_append]
termination_by structural es => es

end

/-! ## Names that are accessed -/

/-- A number is written where a name is used at some places. -/
def UsedAt (places : List Place) (id : Option SymbolId) : Prop :=
  ∃ name span, .used name id span ∈ places

theorem UsedAt.mono {places places' : List Place} (hsub : places ⊆ places') {id : Option SymbolId}
    (h : UsedAt places id) : UsedAt places' id := by
  obtain ⟨name, span, hmem⟩ := h
  exact ⟨name, span, hsub hmem⟩

theorem usedAt_append {places places' : List Place} {id : Option SymbolId} :
    UsedAt (places ++ places') id ↔ UsedAt places id ∨ UsedAt places' id := by
  simp [UsedAt, exists_or]

theorem AssignOp.mem_accesses {op : AssignOp} {old new : List Access} {a : Access}
    (h : a ∈ op.accesses old new) : a ∈ old ∨ a ∈ new := by
  unfold accesses at h
  cases hop : op.binary? with
  | some binary =>
    rw [hop] at h
    exact List.mem_append.1 h
  | none =>
    rw [hop] at h
    exact .inr h

mutual

/-- Only names that are used are accessed. -/
theorem Expr.usedAt_of_mem_accesses : ∀ (e : Expr), ∀ a ∈ e.accesses, UsedAt e.places a.id
  | .null _ | .bool _ _ | .number _ _ | .string _ _ | .property _ _ _ => nofun
  | .name text _ s => List.forall_mem_singleton.2 ⟨text, s, List.mem_singleton_self _⟩
  | .unary _ e _ => e.usedAt_of_mem_accesses
  | .binary _ left right _ | .logical _ left right _ | .index left right _ =>
    fun a ha => usedAt_append.2 ((List.mem_append.1 ha).imp (left.usedAt_of_mem_accesses a)
      (right.usedAt_of_mem_accesses a))
  | .list items _ => usedAt_of_mem_exprsAccesses items
  | .assign op target value s => by
    intro a ha
    have hvalue := value.usedAt_of_mem_accesses a
    have htarget := target.usedAt_of_mem_accesses a
    refine UsedAt.mono (List.subset_cons_self _ _) (usedAt_append.2 ?_)
    cases target with
    | name text id t =>
      rcases List.mem_append.1 ha with ha | ha
      · exact (AssignOp.mem_accesses ha).imp htarget hvalue
      · obtain rfl := List.mem_singleton.1 ha
        exact .inl ⟨text, t, List.mem_singleton_self _⟩
    | index base index t =>
      rcases List.mem_append.1 ha with ha | ha
      · exact .inl (htarget ha)
      · exact (AssignOp.mem_accesses ha).imp htarget hvalue
    | _ => exact (AssignOp.mem_accesses ha).imp htarget hvalue
  | .call callee args s => by
    intro a ha
    have hcallee := callee.usedAt_of_mem_accesses a
    have hargs := usedAt_of_mem_exprsAccesses args a
    cases callee with
    | property object name t =>
      exact usedAt_append.2 ((List.mem_append.1 ha).imp (object.usedAt_of_mem_accesses a) hargs)
    | _ => exact usedAt_append.2 ((List.mem_append.1 ha).imp hcallee hargs)
termination_by structural e => e

theorem usedAt_of_mem_exprsAccesses : ∀ (es : List Expr), ∀ a ∈ exprsAccesses es,
    UsedAt (exprsPlaces es) a.id
  | [] => nofun
  | e :: es => fun a ha => usedAt_append.2 ((List.mem_append.1 ha).imp (e.usedAt_of_mem_accesses a)
      (usedAt_of_mem_exprsAccesses es a))
termination_by structural es => es

end

/-- A listing of code in which nothing stands for an expression without code. -/
def Complete (L : List Listed) : Prop := ∀ l ∈ L, l.operand ≠ .missing

theorem complete_append {L L' : List Listed} : Complete (L ++ L') ↔ Complete L ∧ Complete L' :=
  List.forall_mem_append

theorem Complete.tail {l : Listed} {L : List Listed} (h : Complete (l :: L)) : Complete L :=
  (List.forall_mem_cons.1 h).2

/-- Among some places nothing is assigned to that cannot be. -/
def TargetsOk (places : List Place) : Prop := ∀ span, .assigned false span ∉ places

theorem targetsOk_append {places places' : List Place} :
    TargetsOk (places ++ places') ↔ TargetsOk places ∧ TargetsOk places' := by
  simp [TargetsOk, forall_and]

/-- The names with some numbers are all accessed. -/
def Reads (A : List Access) (places : List Place) : Prop :=
  ∀ id, UsedAt places id → ∃ a ∈ A, a.id = id

theorem reads_nil {A : List Access} {places : List Place} (h : ∀ id, ¬UsedAt places id) :
    Reads A places := fun id hid => absurd hid (h id)

theorem Reads.append {A A' : List Access} {places places' : List Place} (h : Reads A places)
    (h' : Reads A' places') : Reads (A ++ A') (places ++ places') := by
  intro id hid
  rcases usedAt_append.1 hid with hid | hid
  · obtain ⟨a, ha, heq⟩ := h id hid
    exact ⟨a, List.mem_append_left _ ha, heq⟩
  · obtain ⟨a, ha, heq⟩ := h' id hid
    exact ⟨a, List.mem_append_right _ ha, heq⟩

theorem Reads.mono {A A' : List Access} {places : List Place} (h : Reads A places) (hsub : A ⊆ A') :
    Reads A' places := by
  intro id hid
  obtain ⟨a, ha, heq⟩ := h id hid
  exact ⟨a, hsub ha, heq⟩

theorem AssignOp.complete_new {op : AssignOp} {old : List Listed} {new : Nat → List Listed}
    {node : Node} {n : Nat} (h : Complete (op.listed old new node n)) : ∃ m, Complete (new m) := by
  unfold listed at h
  cases hop : op.binary? with
  | some binary =>
    rw [hop] at h
    exact ⟨n + 1, (complete_append.1 (complete_append.1 h).1).2⟩
  | none =>
    rw [hop] at h
    exact ⟨n, h⟩

theorem AssignOp.subset_accesses (op : AssignOp) (old new : List Access) :
    new ⊆ op.accesses old new := by
  unfold accesses
  cases op.binary? with
  | some binary => exact List.subset_append_right _ _
  | none => exact List.Subset.refl _

mutual

/-- Every name in an expression that has code is accessed. -/
theorem Expr.reads_accesses (σ : Slots) : ∀ (e : Expr) (n : Nat), Complete (e.listed σ n) →
    TargetsOk e.places → Reads e.accesses e.places
  | .null _, _, _, _ | .bool _ _, _, _, _ | .number _ _, _, _, _ | .string _ _, _, _, _ =>
    reads_nil fun id ⟨_, _, hmem⟩ => by cases hmem
  | .name text id s, _, _, _ => by
    rintro id' ⟨name, span, hmem⟩
    cases List.mem_singleton.1 hmem
    exact ⟨_, List.mem_singleton_self _, rfl⟩
  | .unary _ e _, n, h, htargets => e.reads_accesses σ n (complete_append.1 h).1 htargets
  | .binary _ left right _, n, h, htargets => by
    obtain ⟨hleft, hright⟩ := complete_append.1 (complete_append.1 h).1
    obtain ⟨hleft', hright'⟩ := targetsOk_append.1 htargets
    exact (left.reads_accesses σ n hleft hleft').append (right.reads_accesses σ _ hright hright')
  | .logical _ left right _, n, h, htargets => by
    obtain ⟨hleft, hright⟩ := complete_append.1 h
    obtain ⟨hleft', hright'⟩ := targetsOk_append.1 htargets
    exact (left.reads_accesses σ n hleft hleft').append
      (right.reads_accesses σ n hright.tail.tail hright')
  | .list items _, n, h, htargets => exprs_reads_accesses σ items n (complete_append.1 h).1 htargets
  | .index base index _, n, h, htargets => by
    obtain ⟨hbase, hindex⟩ := complete_append.1 (complete_append.1 h).1
    obtain ⟨hbase', hindex'⟩ := targetsOk_append.1 htargets
    exact (base.reads_accesses σ n hbase hbase').append (index.reads_accesses σ _ hindex hindex')
  | .assign op target value s, n, h, htargets => by
    obtain ⟨htarget', hvalue'⟩ := targetsOk_append.1
      fun span hmem => htargets span (List.mem_cons_of_mem _ hmem)
    have hvalue : (∃ m, Complete (value.listed σ m)) → Reads value.accesses value.places :=
      fun ⟨m, hm⟩ => value.reads_accesses σ m hm hvalue'
    have hplaces : Reads (Expr.assign op target value s).accesses
      (target.places ++ value.places) := by
      cases target with
      | name text id t =>
        have hid : Reads [(⟨true, id⟩ : Access)] (Expr.name text id t).places := by
          rintro id' ⟨name, span, hmem⟩
          cases List.mem_singleton.1 hmem
          exact ⟨_, List.mem_singleton_self _, rfl⟩
        have hnew := (hvalue (AssignOp.complete_new (complete_append.1 h).1)).mono
          (op.subset_accesses [⟨false, id⟩] value.accesses)
        exact (hid.append hnew).mono fun a ha => List.mem_append.2 (List.mem_append.1 ha).symm
      | index base index t =>
        obtain ⟨hplace, hassigned⟩ := complete_append.1 (complete_append.1 h).1
        obtain ⟨hbase, hindex⟩ := complete_append.1 hplace
        obtain ⟨hbase', hindex'⟩ := targetsOk_append.1 htarget'
        have hnew := (hvalue (AssignOp.complete_new hassigned)).mono
          (op.subset_accesses (base.accesses ++ index.accesses) value.accesses)
        exact ((base.reads_accesses σ n hbase hbase').append
          (index.reads_accesses σ _ hindex hindex')).append hnew
      | _ => exact absurd List.mem_cons_self (htargets _)
    rintro id ⟨name, span, hmem⟩
    exact hplaces id ⟨name, span, (List.mem_cons.1 hmem).resolve_left nofun⟩
  | .call callee args s, n, h, htargets => by
    obtain ⟨hcallee', hargs'⟩ := targetsOk_append.1 htargets
    cases callee with
    | property object name t =>
      obtain ⟨hobject, hargs⟩ := complete_append.1 (complete_append.1 h).1
      exact (object.reads_accesses σ n hobject hcallee').append
        (exprs_reads_accesses σ args _ hargs hargs')
    | _ =>
      obtain ⟨hcallee, hargs⟩ := complete_append.1 (complete_append.1 h).1
      exact (Expr.reads_accesses σ _ n hcallee hcallee').append
        (exprs_reads_accesses σ args _ hargs hargs')
  | .property object name s, n, h, _ => absurd rfl (h _ (List.mem_singleton_self _))
termination_by structural e => e

theorem exprs_reads_accesses (σ : Slots) :
    ∀ (es : List Expr) (n : Nat), Complete (exprsListed σ es n) →
    TargetsOk (exprsPlaces es) → Reads (exprsAccesses es) (exprsPlaces es)
  | [], _, _, _ => reads_nil fun id ⟨_, _, hmem⟩ => by cases hmem
  | e :: es, n, h, htargets => by
    obtain ⟨he, hes⟩ := complete_append.1 h
    obtain ⟨he', hes'⟩ := targetsOk_append.1 htargets
    exact (e.reads_accesses σ n he he').append (exprs_reads_accesses σ es _ hes hes')
termination_by structural es => es

end

theorem init_reads_accesses (σ : Slots) (value : Option Expr) (node : Node)
    (h : Complete (initListed σ value node)) (htargets : TargetsOk (initPlaces value)) :
    Reads (initAccesses value) (initPlaces value) := by
  cases value with
  | some e => exact e.reads_accesses σ _ h htargets
  | none => exact reads_nil fun id ⟨_, _, hmem⟩ => by cases hmem

theorem Complete.of_condListed {T L L' : List Listed} {node : Node} {n : Nat}
    (h : Complete (condListed T L L' node n)) : Complete T ∧ Complete L ∧ Complete L' := by
  obtain ⟨htest, hrest⟩ := complete_append.1 h
  obtain ⟨hfirst, hsecond⟩ := complete_append.1 hrest.tail
  exact ⟨htest, (complete_append.1 hfirst.tail).1, hsecond.tail⟩

mutual

theorem Stmt.reads_accesses : ∀ (s : Stmt) (σ : Slots), Complete (s.listed σ) → TargetsOk s.places →
    Reads s.accesses s.places
  | .block body, σ, h, htargets => block_reads_accesses body σ h htargets
  | .var d, σ, h, htargets => by
    have hinit := init_reads_accesses σ d.init _ h (targetsOk_append.1 htargets).1
    have hdeclared : Reads [] [Place.declared false d.name d.id d.nameSpan] :=
      reads_nil fun id ⟨_, _, hmem⟩ => by cases List.mem_singleton.1 hmem
    have hall := hinit.append hdeclared
    rwa [List.append_nil] at hall
  | .cond test thenBlock none _, σ, h, htargets => by
    obtain ⟨htest, hthen, -⟩ := Complete.of_condListed h
    obtain ⟨htest', hthen'⟩ := targetsOk_append.1 htargets
    exact (test.reads_accesses σ _ htest htest').append
      (block_reads_accesses thenBlock σ hthen hthen')
  | .cond test thenBlock (some elseBlock) _, σ, h, htargets => by
    obtain ⟨htest, hthen, helse⟩ := Complete.of_condListed h
    obtain ⟨htest', hblocks⟩ := targetsOk_append.1 htargets
    obtain ⟨hthen', helse'⟩ := targetsOk_append.1 hblocks
    exact (test.reads_accesses σ _ htest htest').append
      ((block_reads_accesses thenBlock σ hthen hthen').append
        (block_reads_accesses elseBlock σ helse helse'))
  | .ret value _, σ, h, htargets => init_reads_accesses σ value _ (complete_append.1 h).1 htargets
  | .print value _, σ, h, htargets | .expr value _, σ, h, htargets =>
    value.reads_accesses σ _ (complete_append.1 h).1 htargets
termination_by structural s => s

theorem block_reads_accesses : ∀ (body : Block Stmt) (σ : Slots), Complete (blockListed body σ) →
    TargetsOk (blockPlaces body) → Reads (blockAccesses body) (blockPlaces body)
  | ⟨stmts, _⟩, σ, h, htargets => by
    have hopening : Reads [] [Place.opening] :=
      reads_nil fun id ⟨_, _, hmem⟩ => by cases List.mem_singleton.1 hmem
    have hclosing : Reads [] [Place.closing] :=
      reads_nil fun id ⟨_, _, hmem⟩ => by cases List.mem_singleton.1 hmem
    have hinner : TargetsOk (stmtsPlaces stmts ++ [.closing]) :=
      fun span hmem => htargets span (List.mem_cons_of_mem _ hmem)
    have hstmts := stmts_reads_accesses stmts σ (complete_append.1 h).1
      (targetsOk_append.1 hinner).1
    have hall := hopening.append (hstmts.append hclosing)
    rwa [List.append_nil, List.nil_append] at hall
termination_by structural body => body

theorem stmts_reads_accesses : ∀ (ss : List Stmt) (σ : Slots), Complete (stmtsListed ss σ) →
    TargetsOk (stmtsPlaces ss) → Reads (stmtsAccesses ss) (stmtsPlaces ss)
  | [], _, _, _ => reads_nil fun id ⟨_, _, hmem⟩ => by cases hmem
  | s :: ss, σ, h, htargets => by
    obtain ⟨hs, hss⟩ := complete_append.1 h
    obtain ⟨hs', hss'⟩ := targetsOk_append.1 htargets
    exact (s.reads_accesses σ hs hs').append (stmts_reads_accesses ss (s.slots σ) hss hss')
termination_by structural ss => ss

end

/-! ## Names whose slots are the ones in a table -/

/-- The kind and slot of a symbol. -/
def SymbolTable.place? (table : SymbolTable) (id : SymbolId) : Option (SymbolKind × Nat) :=
  table[id]?.bind fun symbol => symbol.slot.map (symbol.kind, ·)

/-- What is written for a name is the number of a symbol that has the slot that a table
says. -/
def Slots.Agrees (σ : Slots) (table : SymbolTable) (id : Option SymbolId) : Prop :=
  ∃ i place, id = some i ∧ σ.find? i = some place ∧ table.place? i = some place

/-- Behind some places, the names at others have the slots that a table says. -/
structure Grounded (globals count : Nat) (table : SymbolTable) (front places : List Place) :
    Prop where
  found : ∀ {before name id span after}, places = before ++ .used name id span :: after →
    (slotsAt globals count (front ++ before)).Agrees table id

section Grounded

variable {σ : Slots} {table : SymbolTable} {globals count : Nat} {front : List Place}

theorem Grounded.left {ps qs : List Place} (h : Grounded globals count table front (ps ++ qs)) :
    Grounded globals count table front ps := by
  refine ⟨fun {before name id span after} heq => ?_⟩
  have hall : ps ++ qs = before ++ .used name id span :: (after ++ qs) := by
    rw [heq, List.append_assoc, List.cons_append]
  exact h.found hall

theorem Grounded.right {ps qs : List Place} (h : Grounded globals count table front (ps ++ qs)) :
    Grounded globals count table (front ++ ps) qs := by
  refine ⟨fun {before name id span after} heq => ?_⟩
  have hall : ps ++ qs = (ps ++ before) ++ .used name id span :: after := by
    rw [heq, List.append_assoc]
  rw [List.append_assoc]
  exact h.found hall

/-- Inside expressions nothing changes about slots. -/
theorem Grounded.agrees {ps : List Place} (hps : ∀ p ∈ ps, p.Silent)
    (h : Grounded globals count table front ps) {id : Option SymbolId} (hid : UsedAt ps id) :
    (slotsAt globals count front).Agrees table id := by
  obtain ⟨name, span, hmem⟩ := hid
  obtain ⟨before, after, rfl⟩ := List.append_of_mem hmem
  have hfound := h.found rfl
  rwa [slotsAt_append_silent front fun p hp => hps p (List.mem_append_left _ hp)] at hfound

theorem Slots.Agrees.on_eq {id : Option SymbolId} (h : σ.Agrees table id) (store : Bool) :
    ∃ x, (Access.mk store id).on σ.find? = some x ∧ (Access.mk store id).on table.place? =
      some x := by
  obtain ⟨i, place, rfl, hfind, htable⟩ := h
  exact ⟨⟨store, place.1, place.2⟩, by simp [Access.on, hfind], by simp [Access.on, htable]⟩

/-- Where all names have the slots that a table says, nothing is left out. -/
theorem map_some_filterMap_on {A : List Access} (h : ∀ a ∈ A, σ.Agrees table a.id) :
    (A.filterMap (Access.on σ.find?)).map some = A.map (Access.on table.place?) := by
  induction A with
  | nil => rfl
  | cons a A ih =>
    obtain ⟨ha, hA⟩ := List.forall_mem_cons.1 h
    obtain ⟨x, hx, hx'⟩ := ha.on_eq a.store
    rw [List.filterMap_cons_some hx, List.map_cons, List.map_cons, ih hA, hx']

theorem Expr.accesses_grounded (e : Expr) (h : Grounded globals count table front e.places)
    (n : Nat) : (listedAccesses (e.listed (slotsAt globals count front) n)).map some =
      e.accesses.map (Access.on table.place?) := by
  rw [e.accesses_listed]
  exact map_some_filterMap_on fun a ha => h.agrees e.silent (e.usedAt_of_mem_accesses a ha)

theorem init_accesses_grounded (value : Option Expr)
    (h : Grounded globals count table front (initPlaces value)) (node : Node) :
    (listedAccesses (initListed (slotsAt globals count front) value node)).map some =
      (initAccesses value).map (Access.on table.place?) := by
  cases value with
  | some e => exact e.accesses_grounded h _
  | none => rfl

mutual

/-- The code of a statement accesses what its text does, each in the slot that the table
says. -/
theorem Stmt.accesses_grounded : ∀ (s : Stmt) {front : List Place},
    Grounded globals count table front s.places →
      (listedAccesses (s.listed (slotsAt globals count front))).map some =
        s.accesses.map (Access.on table.place?)
  | .block body, _, h => block_accesses_grounded body h
  | .var d, _, h => init_accesses_grounded d.init h.left _
  | .cond test thenBlock none _, front, h => by
    have htest := test.accesses_grounded h.left
    have hthen := block_accesses_grounded thenBlock h.right
    rw [slotsAt_append_silent front test.silent] at hthen
    rw [Stmt.listed, Stmt.accesses, condListed_accesses, listedAccesses_nil, List.append_nil,
      List.map_append, List.map_append, htest, hthen]
  | .cond test thenBlock (some elseBlock) _, front, h => by
    have htest := test.accesses_grounded h.left
    have hthen := block_accesses_grounded thenBlock h.right.left
    have helse := block_accesses_grounded elseBlock h.right.right
    rw [slotsAt_append_silent front test.silent] at hthen
    rw [slotsAt_block, slotsAt_append_silent front test.silent] at helse
    rw [Stmt.listed, Stmt.accesses, condListed_accesses, List.map_append, List.map_append,
      List.map_append, List.map_append, htest, hthen, helse]
  | .ret value _, front, h => by
    have hvalue := init_accesses_grounded value h
    rw [Stmt.listed, Stmt.accesses, listedAccesses_append, listedAccesses_single rfl,
      List.append_nil,
      hvalue]
  | .print value _, front, h | .expr value _, front, h => by
    have hvalue := value.accesses_grounded h
    rw [Stmt.listed, Stmt.accesses, listedAccesses_append, listedAccesses_single rfl,
      List.append_nil,
      hvalue]
termination_by structural s => s

theorem block_accesses_grounded : ∀ (body : Block Stmt) {front : List Place},
    Grounded globals count table front (blockPlaces body) →
      (listedAccesses (blockListed body (slotsAt globals count front))).map some =
        (blockAccesses body).map (Access.on table.place?)
  | ⟨stmts, s⟩, front, h => by
    have hafter : Grounded globals count table (front ++ [.opening])
      (stmtsPlaces stmts ++ [.closing]) :=
      .right h
    have hinner := hafter.left
    have hstmts := stmts_accesses_grounded stmts hinner
    rw [slotsAt_opening] at hstmts
    rw [blockListed, blockAccesses, listedAccesses_append, popsListed_accesses,
      List.append_nil, hstmts]
termination_by structural body => body

theorem stmts_accesses_grounded : ∀ (ss : List Stmt) {front : List Place},
    Grounded globals count table front (stmtsPlaces ss) →
      (listedAccesses (stmtsListed ss (slotsAt globals count front))).map some =
        (stmtsAccesses ss).map (Access.on table.place?)
  | [], _, _ => rfl
  | s :: ss, front, h => by
    have hs := s.accesses_grounded h.left
    have hss := stmts_accesses_grounded ss h.right
    rw [slotsAt_stmt] at hss
    rw [stmtsListed, stmtsAccesses, listedAccesses_append, List.map_append,
      List.map_append, hs, hss]
termination_by structural ss => ss

end

end Grounded

/-! ## Functions and scripts -/

section Decls

variable {globals count : Nat} {table : SymbolTable}

/-- The code of a function accesses what its text does. -/
theorem FnDecl.accesses_grounded (d : FnDecl) (h : Grounded globals count table [] d.places) :
    (listedAccesses (d.listed globals count)).map some =
      d.accesses.map (Access.on table.place?) := by
  have hbody := stmts_accesses_grounded d.body.stmts h.right
  rw [List.nil_append, slotsAt_params] at hbody
  rw [FnDecl.listed, listedAccesses_append, returnListed_accesses, List.append_nil, FnDecl.accesses,
    ← hbody]
  rfl

theorem FnDecl.reads_accesses (d : FnDecl) (h : Complete (d.listed globals count))
    (htargets : TargetsOk d.places) : Reads d.accesses d.places := by
  obtain ⟨-, htargets'⟩ := targetsOk_append.1 htargets
  have hparams : Reads [] (d.params.map Param.place) := by
    refine reads_nil fun id ⟨_, _, hmem⟩ => ?_
    obtain ⟨p, -, hp⟩ := List.mem_map.1 hmem
    cases hp
  exact hparams.append (stmts_reads_accesses d.body.stmts _ (complete_append.1 h).1 htargets')

/-- A store into the slot that a table says. -/
theorem Slots.Agrees.store_accesses {σ : Slots} {id : Option SymbolId} (h : σ.Agrees table id)
    (node : Node) (n : Nat) : (listedAccesses (σ.store id node n)).map some =
      [(⟨true, id⟩ : Access).on table.place?] := by
  obtain ⟨x, hx, hx'⟩ := h.on_eq true
  rw [Slots.store_accesses, hx, hx']
  rfl

theorem fnStores_accesses {fns : List (FnDecl × Handle)}
    (h : ∀ fn ∈ fns, Slots.Agrees ⟨globals, count, []⟩ table fn.1.id) :
    (listedAccesses (fns.flatMap (fnStoreListed ⟨globals, count, []⟩))).map some =
      ((fns.map Prod.fst).map fun d => (⟨true, d.id⟩ : Access)).map (Access.on table.place?) := by
  induction fns with
  | nil => rfl
  | cons fn fns ih =>
    obtain ⟨hfn, hfns⟩ := List.forall_mem_cons.1 h
    rw [List.flatMap_cons, listedAccesses_append, fnStoreListed, listedAccesses_append,
      listedAccesses_append, listedAccesses_single rfl, listedAccesses_single rfl, List.nil_append,
      List.append_nil, List.map_append, hfn.store_accesses, ih hfns]
    rfl

theorem varInits_accesses {decls : List Decl}
    (hids : ∀ decl ∈ decls, Slots.Agrees ⟨globals, count, []⟩ table decl.id)
    (hplaces : ∀ decl ∈ decls, Grounded globals count table [] decl.places) :
    (listedAccesses (decls.flatMap (varInitListed ⟨globals, count, []⟩))).map some =
      (decls.flatMap Decl.accesses).map (Access.on table.place?) := by
  induction decls with
  | nil => rfl
  | cons decl decls ih =>
    obtain ⟨hid, hids⟩ := List.forall_mem_cons.1 hids
    obtain ⟨hplaces₁, hplaces⟩ := List.forall_mem_cons.1 hplaces
    have hdecl : (listedAccesses (varInitListed ⟨globals, count, []⟩ decl)).map some =
        decl.accesses.map (Access.on table.place?) := by
      cases decl with
      | fn d => rfl
      | var d =>
        have hstore : Slots.Agrees ⟨globals, count, []⟩ table d.id := hid
        have hinit := init_accesses_grounded d.init hplaces₁ (.decl (.var d))
        rw [varInitListed, listedAccesses_append, listedAccesses_append, listedAccesses_single rfl,
          List.append_nil, List.map_append, hstore.store_accesses, Decl.accesses,
          List.map_append, ← hinit]
        rfl
    rw [List.flatMap_cons, listedAccesses_append, List.map_append, hdecl, ih hids hplaces,
      List.flatMap_cons, List.map_append]

theorem mainListed_accesses {program : Program}
    (hids : ∀ decl ∈ program.decls, Slots.Agrees ⟨globals, count, []⟩ table decl.id) :
    (listedAccesses (mainListed ⟨globals, count, []⟩ program)).map some =
      (program.mainIds.head?.toList.map fun id => (⟨false, some id⟩ : Access)).map
        (Access.on table.place?) := by
  unfold mainListed
  cases hmain : program.mainIds.head? with
  | none => rfl
  | some id =>
    obtain ⟨decl, hdecl, -, hid⟩ := Program.mem_of_main? (program.main?_eq_head?.trans hmain)
    have hknown : Slots.Agrees ⟨globals, count, []⟩ table (some id) := hid ▸ hids _ hdecl
    obtain ⟨x, hx, hx'⟩ := hknown.on_eq false
    dsimp only
    rw [listedAccesses_append, Slots.load_accesses, hx, listedAccesses_cons rfl,
      listedAccesses_single rfl]
    simp [hx']

/-- The code of a script accesses what its text does. -/
theorem Program.accesses_grounded {program : Program}
    (hids : ∀ decl ∈ program.decls, Slots.Agrees ⟨globals, count, []⟩ table decl.id)
    (hplaces : ∀ decl ∈ program.decls, Grounded globals count table [] decl.places)
    {fns : List (FnDecl × Handle)} (hfns : fns.map Prod.fst = program.fns) :
    (listedAccesses (program.listed globals count fns)).map some =
      program.accesses.map (Access.on table.place?) := by
  have hstored : ∀ fn ∈ fns, Slots.Agrees ⟨globals, count, []⟩ table fn.1.id := by
    intro fn hfn
    have hmem : fn.1 ∈ fns.map Prod.fst := List.mem_map_of_mem hfn
    rw [hfns] at hmem
    exact hids _ (Program.mem_fns.1 hmem)
  rw [Program.listed, Program.accesses, ← hfns]
  simp only [listedAccesses_append, List.map_append, returnListed_accesses, List.append_nil]
  rw [fnStores_accesses hstored, varInits_accesses hids hplaces, mainListed_accesses hids]

theorem Program.reads_accesses {program : Program} {fns : List (FnDecl × Handle)}
    (h : Complete (program.listed globals count fns)) {d : VarDecl} (hd : .var d ∈ program.decls)
    (htargets : TargetsOk (initPlaces d.init)) : Reads program.accesses (initPlaces d.init) := by
  obtain ⟨hdecls, -⟩ := complete_append.1 (complete_append.1 h).1
  have hinits := (complete_append.1 hdecls).2
  have hinit : Complete (varInitListed ⟨globals, count, []⟩ (.var d)) :=
    fun l hl => hinits l (List.mem_flatMap.2 ⟨_, hd, hl⟩)
  refine (init_reads_accesses ⟨globals, count, []⟩ d.init _
    (complete_append.1 (complete_append.1 hinit).1).1 htargets).mono fun a ha => ?_
  have hmem : a ∈ (Decl.var d).accesses := List.mem_append_left _ ha
  exact List.mem_append_left _ (List.mem_append_right _ (List.mem_flatMap.2 ⟨_, hd, hmem⟩))

end Decls

end ScriptMachine
