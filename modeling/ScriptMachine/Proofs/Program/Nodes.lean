import ScriptMachine.Proofs.Program.Extents
import ScriptMachine.Proofs.Scope.Places

/-!
# Nodes and the numbers of symbols

Errors that are found in a program show at nodes of it (`TreeNode.Explains`). Name
resolution writes the numbers of symbols at names, and code generation finds its errors in
the program with these numbers. The tree is the same without them, node by node
(`TreeNode.children_withoutIds`), and a program as it is read has none
(`Grammar.IsProgram.withoutIds_eq`), so that these errors show at nodes that have been read
(`Program.HasNode.withoutIds`).
-/

namespace ScriptMachine

open Grammar

/-! ## Programs as they are read -/

theorem exprsWithoutIds_eq_map (es : List Expr) : exprsWithoutIds es = es.map Expr.withoutIds := by
  induction es with
  | nil => rfl
  | cons e es ih => exact congrArg (e.withoutIds :: ·) ih

theorem stmtsWithoutIds_eq_map (stmts : List Stmt) :
    stmtsWithoutIds stmts = stmts.map Stmt.withoutIds := by
  induction stmts with
  | nil => rfl
  | cons s ss ih => exact congrArg (s.withoutIds :: ·) ih

@[simp] theorem Expr.withoutIds_withSpan (e : Expr) (s : Span) :
    (e.withSpan s).withoutIds = e.withoutIds.withSpan s := by
  cases e <;> rfl

@[simp] theorem Expr.span_withoutIds (e : Expr) : e.withoutIds.span = e.span := by
  cases e <;> rfl

@[simp] theorem Connective.withoutIds_join (op : Connective) (left right : Expr) :
    (op.join left right).withoutIds = op.join left.withoutIds right.withoutIds := by
  cases op <;> simp [Connective.join, Expr.withoutIds]

/-- A function as it is read. -/
def FnDecl.withoutIds (d : FnDecl) : FnDecl :=
  { d with
    id := none
    params := d.params.map fun p => { p with id := none }
    body := blockWithoutIds d.body }

theorem Decl.withoutIds_fn (d : FnDecl) : (Decl.fn d).withoutIds = .fn d.withoutIds := by
  have hbody : blockWithoutIds d.body = { d.body with stmts := stmtsWithoutIds d.body.stmts } := by
    cases d.body
    rfl
  rw [FnDecl.withoutIds, hbody, Decl.withoutIds]

namespace Grammar

mutual

theorem IsExpr.withoutIds_eq {ts : List Token} {e : Expr} : IsExpr ts e → e.withoutIds = e
  | .level h => h.withoutIds_eq
  | .assign htarget _ hvalue => by
    rw [Expr.withoutIds, htarget.withoutIds_eq, hvalue.withoutIds_eq]

theorem IsLevel.withoutIds_eq {level : Level} {ts : List Token} {e : Expr} :
    IsLevel level ts e → e.withoutIds = e
  | .operand h => h.withoutIds_eq
  | .join hleft _ hright => by
    rw [Connective.withoutIds_join, hleft.withoutIds_eq, hright.withoutIds_eq]

theorem IsOperand.withoutIds_eq {level : Level} {ts : List Token} {e : Expr} :
    IsOperand level ts e → e.withoutIds = e
  | .tighter _ h => h.withoutIds_eq
  | .signed h => h.withoutIds_eq

theorem IsSigned.withoutIds_eq {ts : List Token} {e : Expr} : IsSigned ts e → e.withoutIds = e
  | .sign _ h => by rw [Expr.withoutIds, h.withoutIds_eq]
  | .plain h => h.withoutIds_eq

theorem IsPrimary.withoutIds_eq {ts : List Token} {e : Expr} : IsPrimary ts e → e.withoutIds = e
  | .atom h => by cases h <;> rfl
  | .group h => by rw [Expr.withoutIds_withSpan, h.withoutIds_eq]
  | .list h => by rw [Expr.withoutIds, h.withoutIds_eq]
  | .call hcallee hargs => by rw [Expr.withoutIds, hcallee.withoutIds_eq, hargs.withoutIds_eq]
  | .index hbase hindex => by rw [Expr.withoutIds, hbase.withoutIds_eq, hindex.withoutIds_eq]
  | .property hobject => by rw [Expr.withoutIds, hobject.withoutIds_eq]

theorem IsItems.withoutIds_eq {ts : List Token} {items : List Expr} :
    IsItems ts items → exprsWithoutIds items = items
  | .none => rfl
  | .some h => h.withoutIds_eq

theorem IsItemsFrom.withoutIds_eq {ts : List Token} {items : List Expr} :
    IsItemsFrom ts items → exprsWithoutIds items = items
  | .last h => by rw [exprsWithoutIds, h.withoutIds_eq, exprsWithoutIds]
  | .cons h hitems => by rw [exprsWithoutIds, h.withoutIds_eq, hitems.withoutIds_eq]

end

theorem IsVar.withoutIds_eq {ts : List Token} {d : VarDecl} (h : IsVar ts d) :
    { d with id := Option.none, init := initWithoutIds d.init } = d := by
  cases h with
  | plain => rfl
  | init h => simp only [initWithoutIds, h.withoutIds_eq]

mutual

theorem IsBlock.withoutIds_eq {ts : List Token} {b : Block Stmt} (h : IsBlock ts b) :
    blockWithoutIds b = b := by
  cases h with
  | braces hstmts => rw [blockWithoutIds, hstmts.withoutIds_eq]

theorem IsStmts.withoutIds_eq {ts : List Token} {stmts : List Stmt} :
    IsStmts ts stmts → stmtsWithoutIds stmts = stmts
  | .nil => rfl
  | .cons h hstmts => by rw [stmtsWithoutIds, h.withoutIds_eq, hstmts.withoutIds_eq]

theorem IsStmt.withoutIds_eq {ts : List Token} {s : Stmt} : IsStmt ts s → s.withoutIds = s
  | .block h => by rw [Stmt.withoutIds, h.withoutIds_eq]
  | .cond h => h.withoutIds_eq
  | .var h => by rw [Stmt.withoutIds, h.withoutIds_eq]
  | .ret => rfl
  | .retValue h => by rw [Stmt.withoutIds, initWithoutIds, h.withoutIds_eq]
  | .print h | .expr h => by rw [Stmt.withoutIds, h.withoutIds_eq]

theorem IsIf.withoutIds_eq {ts : List Token} {s : Stmt} : IsIf ts s → s.withoutIds = s
  | .noElse htest hbody => by rw [Stmt.withoutIds, htest.withoutIds_eq, hbody.withoutIds_eq]
  | .elseBlock htest hbody hother => by
    rw [Stmt.withoutIds, htest.withoutIds_eq, hbody.withoutIds_eq, hother.withoutIds_eq]
  | .elseIf htest hbody hnested => by
    simp only [Stmt.withoutIds, blockWithoutIds, stmtsWithoutIds, htest.withoutIds_eq,
      hbody.withoutIds_eq, hnested.withoutIds_eq]

end

theorem IsParams.withoutIds_eq {ts : List Token} {params : List Param} (h : IsParams ts params) :
    params.map (fun p => { p with id := Option.none }) = params := by
  cases h with
  | none => rfl
  | some h =>
    induction h with
    | last => rfl
    | cons _ ih => rw [List.map_cons, ih]

theorem IsDecl.withoutIds_eq {ts : List Token} {d : Decl} (h : IsDecl ts d) : d.withoutIds = d := by
  cases h with
  | fn h =>
    obtain ⟨hparams, hbody⟩ := h
    rw [Decl.withoutIds_fn, FnDecl.withoutIds, hparams.withoutIds_eq, hbody.withoutIds_eq]
  | var h => rw [Decl.withoutIds, h.withoutIds_eq]

theorem IsDecls.withoutIds_eq {ts : List Token} {decls : List Decl} (h : IsDecls ts decls) :
    decls.map Decl.withoutIds = decls := by
  induction h with
  | nil => rfl
  | cons h _ ih => rw [List.map_cons, h.withoutIds_eq, ih]

/-- No symbols are written into a program that is read. -/
theorem IsProgram.withoutIds_eq {ts : List Token} {program : Program} (h : IsProgram ts program) :
    program.withoutIds = program := congrArg Program.mk (IsDecls.withoutIds_eq h)

end Grammar

/-! ## Nodes below nodes -/

theorem mem_operands {e operand : Expr} (h : operand ∈ e.operands) :
    TreeNode.expr operand ∈ (TreeNode.expr e).children := List.mem_map_of_mem h

theorem VarDecl.expr_mem_nodes {d : VarDecl} {e : Expr} (h : e ∈ d.init) : .expr e ∈ d.nodes := by
  rw [VarDecl.nodes, h]
  exact .tail _ (.head _)

theorem Stmt.returned_mem_children {e : Expr} {value : Option Expr} {s : Span} (h : e ∈ value) :
    .expr e ∈ (TreeNode.stmt (.ret value s)).children := by
  rw [Option.mem_def.1 h]
  exact .head _

theorem Decl.name_mem_children (d : Decl) :
    .name d.name d.nameSpan ∈ (TreeNode.decl d).children := by
  cases d <;> exact .head _

theorem FnDecl.param_mem_children {d : FnDecl} {p : Param} (h : p ∈ d.params) :
    p.node ∈ (TreeNode.decl (.fn d)).children :=
  .tail _ (List.mem_append_left _ (List.mem_map_of_mem h))

theorem FnDecl.body_mem_children (d : FnDecl) : .block d.body ∈ (TreeNode.decl (.fn d)).children :=
  .tail _ (List.mem_append_right _ (.head _))

/-! ## Nodes without numbers -/

@[simp] theorem Expr.isAssignable_withoutIds (e : Expr) :
    e.withoutIds.isAssignable = e.isAssignable := by
  cases e <;> rfl

@[simp] theorem Expr.operands_withoutIds (e : Expr) :
    e.withoutIds.operands = e.operands.map Expr.withoutIds := by
  cases e <;> simp [Expr.withoutIds, Expr.operands, exprsWithoutIds_eq_map]

namespace TreeNode

/-- A node as it is read. -/
def withoutIds : TreeNode → TreeNode
  | .decl d => .decl d.withoutIds
  | .block b => .block (blockWithoutIds b)
  | .stmt s => .stmt s.withoutIds
  | .expr e => .expr e.withoutIds
  | .name n s => .name n s

theorem children_withoutIds (node : TreeNode) :
    node.withoutIds.children = node.children.map withoutIds := by
  have hvar (d : VarDecl) : ({ d with id := none, init := initWithoutIds d.init } : VarDecl).nodes =
      d.nodes.map withoutIds := by
    cases hinit : d.init <;> simp [VarDecl.nodes, initWithoutIds, withoutIds, hinit]
  cases node with
  | decl d =>
    cases d with
    | fn d =>
      rw [withoutIds, Decl.withoutIds_fn]
      simp [FnDecl.withoutIds, children, withoutIds, Param.node]
    | var d => exact hvar d
  | block b =>
    cases b
    simp [withoutIds, blockWithoutIds, children, stmtsWithoutIds_eq_map]
  | stmt s =>
    cases s with
    | var d => exact hvar d
    | cond test thenBlock elseBlock span =>
      cases elseBlock <;> simp [withoutIds, Stmt.withoutIds, children, Stmt.nodes]
    | ret value span =>
      cases value <;> simp [withoutIds, Stmt.withoutIds, initWithoutIds, children, Stmt.nodes]
    | _ => simp [withoutIds, Stmt.withoutIds, children, Stmt.nodes]
  | expr e => simp [withoutIds, children]
  | name n s => rfl

/-- A tree and its nodes: the one on top and all that is below it. -/
abbrev Holds : TreeNode → TreeNode → Prop :=
  Relation.ReflTransGen fun parent child => child ∈ parent.children

theorem Holds.withoutIds {root node : TreeNode} (h : root.Holds node) :
    root.withoutIds.Holds node.withoutIds := by
  refine h.lift TreeNode.withoutIds fun parent child hchild => ?_
  show child.withoutIds ∈ parent.withoutIds.children
  rw [children_withoutIds]
  exact List.mem_map_of_mem hchild

/-- An error shows at a node of the tree, the offence, because of what is about it: it is this
node itself, or right below it. -/
def Explains (root : TreeNode) (about : TreeNode → TreeNode → Prop) : Prop :=
  ∃ node offence, root.Holds node ∧ about node offence

variable {root child offence : TreeNode} {about : TreeNode → TreeNode → Prop}

theorem Explains.self (h : about root offence) : root.Explains about := ⟨_, _, .refl, h⟩

theorem Explains.below (h : child.Explains about) (hchild : child ∈ root.children) :
    root.Explains about := by
  obtain ⟨node, offence, hnode, habout⟩ := h
  exact ⟨node, offence, .head hchild hnode, habout⟩

end TreeNode

namespace Program

variable {program : Program} {node : TreeNode} {about : TreeNode → TreeNode → Prop}

theorem HasNode.child (h : program.HasNode node) {below : TreeNode}
    (hbelow : below ∈ node.children) :
    program.HasNode below := by
  obtain ⟨d, hd, hnode⟩ := h
  exact ⟨d, hd, hnode.tail hbelow⟩

theorem HasNode.withoutIds (h : program.HasNode node) :
    program.withoutIds.HasNode node.withoutIds := by
  obtain ⟨d, hd, hbelow⟩ := h
  exact ⟨d.withoutIds, List.mem_map_of_mem hd, TreeNode.Holds.withoutIds hbelow⟩

/-- An error shows in one of the declarations. -/
def Explains (program : Program) (about : TreeNode → TreeNode → Prop) : Prop :=
  ∃ d ∈ program.decls, (TreeNode.decl d).Explains about

theorem Explains.withoutIds (h : program.Explains about)
    (habout : ∀ node offence, about node offence → about node.withoutIds offence.withoutIds) :
    program.withoutIds.Explains about := by
  obtain ⟨d, hd, node, offence, hnode, hoffence⟩ := h
  exact ⟨d.withoutIds, List.mem_map_of_mem hd, node.withoutIds, offence.withoutIds,
    TreeNode.Holds.withoutIds hnode, habout _ _ hoffence⟩

/-- What an error shows at is a node of the program. -/
theorem Explains.exists_node (h : program.Explains about)
    (habout : ∀ node offence, about node offence → offence = node ∨ offence ∈ node.children) :
    ∃ node offence, program.HasNode node ∧ program.HasNode offence ∧ about node offence := by
  obtain ⟨d, hd, node, offence, hnode, hoffence⟩ := h
  have hhas : program.HasNode node := ⟨d, hd, hnode⟩
  refine ⟨node, offence, hhas, ?_, hoffence⟩
  rcases habout _ _ hoffence with rfl | hchild
  · exact hhas
  · exact hhas.child hchild

end Program

end ScriptMachine
