import Mathlib.Logic.Relation
import ScriptMachine.Program.OfSource
import ScriptMachine.Proofs.Program.Parsing
import ScriptMachine.Proofs.Token.Scanning

/-!
# The spans of a program

Every part of a program is read from a stretch of its tokens (`TreeNode.ReadFrom`), and its span
reaches from the start of the first of them to the end of the last
(`TreeNode.ReadFrom.reaches`). What is right below it is read from stretches of these tokens, one
behind the other (`TreeNode.ReadFrom.covers`). The tokens of a text follow each other, and so the
spans of a program are nested, and beside each other in source order (`spans_exact`).
-/

namespace ScriptMachine

open Grammar

/-! ## Nodes -/

/-- The parts of a program that have spans. The names are those that declarations and
parameters introduce. -/
inductive TreeNode where
  | decl (decl : Decl)
  | block (block : Block Stmt)
  | stmt (stmt : Stmt)
  | expr (expr : Expr)
  | name (name : String) (span : Span)

/-- The expressions right below an expression. -/
def Expr.operands : Expr → List Expr
  | .null _ | .bool _ _ | .number _ _ | .string _ _ | .name _ _ _ => []
  | .unary _ operand _ => [operand]
  | .binary _ left right _ | .logical _ left right _ => [left, right]
  | .list items _ => items
  | .index base i _ => [base, i]
  | .assign _ target value _ => [target, value]
  | .call callee args _ => callee :: args
  | .property object _ _ => [object]

@[simp] theorem Expr.operands_withSpan (e : Expr) (s : Span) :
    (e.withSpan s).operands = e.operands := by
  cases e <;> rfl

/-- The name of a variable, and its initial value. -/
def VarDecl.nodes (d : VarDecl) : List TreeNode :=
  .name d.name d.nameSpan :: (d.init.map TreeNode.expr).toList

/-- What is right below a statement. -/
def Stmt.nodes : Stmt → List TreeNode
  | .block body => [.block body]
  | .var d => d.nodes
  | .cond test thenBlock elseBlock _ =>
    .expr test :: .block thenBlock :: (elseBlock.map TreeNode.block).toList
  | .ret value _ => (value.map TreeNode.expr).toList
  | .print value _ | .expr value _ => [.expr value]

def Param.node (p : Param) : TreeNode := .name p.name p.span

namespace TreeNode

def span : TreeNode → Span
  | .decl d => d.span
  | .block b => b.span
  | .stmt s => s.span
  | .expr e => e.span
  | .name _ s => s

/-- What is right below a node, in source order. -/
def children : TreeNode → List TreeNode
  | .decl (.fn d) => .name d.name d.nameSpan :: (d.params.map Param.node ++ [.block d.body])
  | .decl (.var d) => d.nodes
  | .block b => b.stmts.map TreeNode.stmt
  | .stmt s => s.nodes
  | .expr e => e.operands.map TreeNode.expr
  | .name _ _ => []

/-- The tokens that a node is read from. A conditional behind `else` is a block and a
statement at once. -/
inductive ReadFrom : List Token → TreeNode → Prop
  | decl {ts : List Token} {d : Decl} (h : IsDecl ts d) : ReadFrom ts (.decl d)
  | block {ts : List Token} {b : Block Stmt} (h : IsBlock ts b) : ReadFrom ts (.block b)
  | elseIf {ts : List Token} {s : Stmt} (h : IsIf ts s) : ReadFrom ts (.block ⟨[s], s.span⟩)
  | stmt {ts : List Token} {s : Stmt} (h : IsStmt ts s) : ReadFrom ts (.stmt s)
  | expr {ts : List Token} {e : Expr} (h : IsExpr ts e) : ReadFrom ts (.expr e)
  | name {n : String} {s : Span} : ReadFrom [⟨.name n, s⟩] (.name n s)

end TreeNode

/-- The nodes of a program: its declarations and all that is below them. -/
def Program.HasNode (program : Program) (node : TreeNode) : Prop :=
  ∃ d ∈ program.decls,
    Relation.ReflTransGen (fun parent child => child ∈ parent.children) (.decl d) node

/-! ## From the first token to the last -/

/-- The span starts where the first of the tokens starts and ends where the last one ends. -/
def Span.Reaches (span : Span) (ts : List Token) : Prop :=
  ∃ first last, ts.head? = some first ∧ ts.getLast? = some last ∧
    span = ⟨first.span.start, last.span.stop⟩

namespace Span.Reaches

variable {a b : Span} {ts us ws : List Token}

theorem token (kind : TokenKind) (s : Span) : s.Reaches [⟨kind, s⟩] := ⟨_, _, rfl, rfl, rfl⟩

/-- From one span up to another means over all tokens from those of the one to those of the
other, whatever stands between them. -/
theorem upTo (h : a.Reaches ts) (h' : b.Reaches us) (between : List Token)
    (hws : ws = ts ++ (between ++ us)) : (a.upTo b).Reaches ws := by
  obtain ⟨first, _, hfirst, -, rfl⟩ := h
  obtain ⟨_, last, -, hlast, rfl⟩ := h'
  refine ⟨first, last, ?_, ?_, rfl⟩
  · rw [hws, List.head?_append, hfirst, Option.some_or]
  · rw [hws, List.getLast?_append, List.getLast?_append, hlast, Option.some_or, Option.some_or]

/-- A span from that of a token up to another one. -/
theorem from_token (kind : TokenKind) {s : Span} (h : b.Reaches us) (between : List Token)
    (hws : ws = ⟨kind, s⟩ :: (between ++ us)) : (s.upTo b).Reaches ws :=
  (token kind s).upTo h between hws

end Span.Reaches

@[simp] theorem Connective.span_join (op : Connective) (left right : Expr) :
    (op.join left right).span = left.span.upTo right.span := by
  cases op <;> rfl

@[simp] theorem Connective.operands_join (op : Connective) (left right : Expr) :
    (op.join left right).operands = [left, right] := by
  cases op <;> rfl

namespace Grammar

mutual

theorem IsExpr.reaches {ts : List Token} {e : Expr} : IsExpr ts e → e.span.Reaches ts
  | .level h => h.reaches
  | .assign htarget _ hvalue => htarget.reaches.upTo hvalue.reaches [_] rfl

theorem IsLevel.reaches {level : Level} {ts : List Token} {e : Expr} :
    IsLevel level ts e → e.span.Reaches ts
  | .operand h => h.reaches
  | .join hleft _ hright => by
    rw [Connective.span_join]
    exact hleft.reaches.upTo hright.reaches [_] rfl

theorem IsOperand.reaches {level : Level} {ts : List Token} {e : Expr} :
    IsOperand level ts e → e.span.Reaches ts
  | .tighter _ h => h.reaches
  | .signed h => h.reaches

theorem IsSigned.reaches {ts : List Token} {e : Expr} : IsSigned ts e → e.span.Reaches ts
  | .sign _ h => .from_token _ h.reaches [] rfl
  | .plain h => h.reaches

theorem IsPrimary.reaches {ts : List Token} {e : Expr} : IsPrimary ts e → e.span.Reaches ts
  | .atom h => by cases h <;> exact .token _ _
  | .group _ => by
    rw [Expr.span_withSpan]
    exact .from_token _ (.token _ _) _ rfl
  | .list _ => .from_token _ (.token _ _) _ rfl
  | .call hcallee _ => hcallee.reaches.upTo (.token _ _) (_ :: _) (List.append_assoc _ _ _)
  | .index hbase _ => hbase.reaches.upTo (.token _ _) (_ :: _) (List.append_assoc _ _ _)
  | .property hobject => hobject.reaches.upTo (.token _ _) [_] rfl

end

variable {ts : List Token}

theorem IsVar.reaches {d : VarDecl} (h : IsVar ts d) : d.span.Reaches ts := by
  cases h with
  | plain => exact .from_token _ (.token _ _) [_] rfl
  | init _ => exact .from_token _ (.token _ _) (_ :: _ :: _) rfl

theorem IsBlock.reaches {b : Block Stmt} (h : IsBlock ts b) : b.span.Reaches ts := by
  cases h with
  | braces _ => exact .from_token _ (.token _ _) _ rfl

theorem IsIf.reaches {ts : List Token} {s : Stmt} : IsIf ts s → s.span.Reaches ts
  | @IsIf.noElse ts _ _ _ _ p p' _ hbody =>
    .from_token .ifKw hbody.reaches (⟨.openParen, p⟩ :: ts ++ [⟨.closeParen, p'⟩]) (by simp)
  | @IsIf.elseBlock ts us _ _ _ _ _ p p' q _ _ hother =>
    .from_token .ifKw hother.reaches
      (⟨.openParen, p⟩ :: ts ++ ⟨.closeParen, p'⟩ :: us ++ [⟨.elseKw, q⟩]) (by simp)
  | @IsIf.elseIf ts us _ _ _ _ _ p p' q _ _ hnested =>
    .from_token .ifKw hnested.reaches
      (⟨.openParen, p⟩ :: ts ++ ⟨.closeParen, p'⟩ :: us ++ [⟨.elseKw, q⟩]) (by simp)

theorem IsStmt.reaches {s : Stmt} (h : IsStmt ts s) : s.span.Reaches ts := by
  cases h with
  | block h => exact h.reaches
  | cond h => exact h.reaches
  | var h => exact h.reaches
  | ret => exact .from_token _ (.token _ _) [] rfl
  | retValue _ | print _ => exact .from_token _ (.token _ _) _ rfl
  | expr h => exact h.reaches.upTo (.token _ _) [] rfl

theorem IsFn.reaches {d : FnDecl} (h : IsFn ts d) : d.span.Reaches ts := by
  cases h with
  | @fn ts _ _ _ name _ nameSpan p p' _ hbody =>
    exact .from_token .fnKw hbody.reaches
      (⟨.name name, nameSpan⟩ :: ⟨.openParen, p⟩ :: ts ++ [⟨.closeParen, p'⟩]) (by simp)

theorem IsDecl.reaches {d : Decl} (h : IsDecl ts d) : d.span.Reaches ts := by
  cases h with
  | fn h => exact h.reaches
  | var h => exact h.reaches

end Grammar

open Grammar

/-- The span of a node reaches from the first token it is read from to the last. -/
theorem TreeNode.ReadFrom.reaches {ts : List Token} {node : TreeNode} (h : node.ReadFrom ts) :
    node.span.Reaches ts := by
  cases h with
  | decl h | block h | elseIf h | stmt h | expr h => exact h.reaches
  | name => exact .token _ _

/-! ## One behind the other -/

/-- The nodes are read from stretches of the tokens, one behind the other. -/
inductive Covers : List Token → List TreeNode → Prop
  | nil {ts : List Token} : Covers ts []
  | cons {before ts after : List Token} {node : TreeNode} {nodes : List TreeNode}
      (h : node.ReadFrom ts)
      (hrest : Covers after nodes) : Covers (before ++ (ts ++ after)) (node :: nodes)

namespace Covers

variable {ts us : List Token} {node : TreeNode} {nodes more : List TreeNode}

theorem single (h : node.ReadFrom ts) : Covers ts [node] := by
  have hcovers : Covers ([] ++ (ts ++ [])) [node] := .cons h .nil
  rwa [List.nil_append, List.append_nil] at hcovers

theorem skip (front : List Token) (h : Covers ts nodes) : Covers (front ++ ts) nodes := by
  cases h with
  | nil => exact .nil
  | cons h hrest =>
    rw [← List.append_assoc]
    exact .cons h hrest

theorem append (h : Covers ts nodes) (h' : Covers us more) : Covers (ts ++ us) (nodes ++ more) := by
  induction h with
  | nil => exact h'.skip _
  | cons h _ ih =>
    rw [List.append_assoc, List.append_assoc]
    exact .cons h ih

/-- More tokens at the end. -/
theorem weaken (h : Covers ts nodes) (back : List Token) : Covers (ts ++ back) nodes := by
  have hcovers : Covers (ts ++ back) (nodes ++ []) := h.append .nil
  rwa [List.append_nil] at hcovers

end Covers

namespace Grammar

variable {ts : List Token}

/-- What is read at any level is an expression. -/
theorem IsLevel.isExpr {level : Level} {e : Expr} (h : IsLevel level ts e) : IsExpr ts e := by
  have conjunction (h : IsLevel .conjunction ts e) : IsExpr ts e :=
    .level (.operand (.tighter .disjunction h))
  have equality (h : IsLevel .equality ts e) : IsExpr ts e :=
    conjunction (.operand (.tighter .conjunction h))
  have comparison (h : IsLevel .comparison ts e) : IsExpr ts e :=
    equality (.operand (.tighter .equality h))
  have sum (h : IsLevel .sum ts e) : IsExpr ts e := comparison (.operand (.tighter .comparison h))
  cases level with
  | disjunction => exact .level h
  | conjunction => exact conjunction h
  | equality => exact equality h
  | comparison => exact comparison h
  | sum => exact sum h
  | product => exact sum (.operand (.tighter .sum h))

theorem IsOperand.isExpr {level : Level} {e : Expr} (h : IsOperand level ts e) : IsExpr ts e :=
  (IsLevel.operand h).isExpr

theorem IsSigned.isExpr {e : Expr} (h : IsSigned ts e) : IsExpr ts e := (IsOperand.signed h).isExpr

theorem IsPrimary.isExpr {e : Expr} (h : IsPrimary ts e) : IsExpr ts e := (IsSigned.plain h).isExpr

theorem IsItemsFrom.covers {ts : List Token} {items : List Expr} :
    IsItemsFrom ts items → Covers ts (items.map TreeNode.expr)
  | .last h => .single (.expr h)
  | .cons h hitems => (Covers.single (.expr h)).append (hitems.covers.skip [_])

theorem IsItems.covers {items : List Expr} (h : IsItems ts items) :
    Covers ts (items.map TreeNode.expr) := by
  cases h with
  | none => exact .nil
  | some h => exact h.covers

mutual

theorem IsExpr.covers {ts : List Token} {e : Expr} :
    IsExpr ts e → Covers ts (e.operands.map TreeNode.expr)
  | .level h => h.covers
  | .assign htarget _ hvalue =>
    (Covers.single (.expr htarget.isExpr)).append ((Covers.single (.expr hvalue)).skip [_])

theorem IsLevel.covers {level : Level} {ts : List Token} {e : Expr} :
    IsLevel level ts e → Covers ts (e.operands.map TreeNode.expr)
  | .operand h => h.covers
  | .join hleft _ hright => by
    rw [Connective.operands_join]
    exact (Covers.single (.expr hleft.isExpr)).append
      ((Covers.single (.expr hright.isExpr)).skip [_])

theorem IsOperand.covers {level : Level} {ts : List Token} {e : Expr} :
    IsOperand level ts e → Covers ts (e.operands.map TreeNode.expr)
  | .tighter _ h => h.covers
  | .signed h => h.covers

theorem IsSigned.covers {ts : List Token} {e : Expr} :
    IsSigned ts e → Covers ts (e.operands.map TreeNode.expr)
  | .sign _ h => (Covers.single (.expr h.isExpr)).skip [_]
  | .plain h => h.covers

theorem IsPrimary.covers {ts : List Token} {e : Expr} :
    IsPrimary ts e → Covers ts (e.operands.map TreeNode.expr)
  | .atom h => by cases h <;> exact .nil
  | .group h => by
    rw [Expr.operands_withSpan]
    exact (h.covers.skip [_]).weaken _
  | .list h => (h.covers.skip [_]).weaken _
  | .call hcallee hargs =>
    ((Covers.single (.expr hcallee.isExpr)).append (hargs.covers.skip [_])).weaken _
  | .index hbase hindex =>
    ((Covers.single (.expr hbase.isExpr)).append ((Covers.single (.expr hindex)).skip [_])).weaken _
  | .property hobject => (Covers.single (.expr hobject.isExpr)).weaken _

end

theorem IsVar.covers {d : VarDecl} (h : IsVar ts d) : Covers ts d.nodes := by
  cases h with
  | plain => exact ((Covers.single .name).skip [_]).weaken [_]
  | init h =>
    exact (((Covers.single .name).skip [_]).append
      (((Covers.single (.expr h)).skip [_]).weaken [_]))

theorem IsStmts.covers {ts : List Token} {stmts : List Stmt} :
    IsStmts ts stmts → Covers ts (stmts.map TreeNode.stmt)
  | .nil => .nil
  | .cons h hstmts => (Covers.single (.stmt h)).append hstmts.covers

theorem IsBlock.covers {b : Block Stmt} (h : IsBlock ts b) :
    Covers ts (b.stmts.map TreeNode.stmt) := by
  cases h with
  | braces h => exact (h.covers.skip [_]).weaken [_]

theorem IsIf.covers {s : Stmt} (h : IsIf ts s) : Covers ts s.nodes := by
  cases h with
  | noElse htest hbody =>
    exact ((Covers.single (.expr htest)).skip [_, _]).append
      ((Covers.single (.block hbody)).skip [_])
  | elseBlock htest hbody hother =>
    exact (((Covers.single (.expr htest)).skip [_, _]).append
      ((Covers.single (.block hbody)).skip [_])).append ((Covers.single (.block hother)).skip [_])
  | elseIf htest hbody hnested =>
    exact (((Covers.single (.expr htest)).skip [_, _]).append
      ((Covers.single (.block hbody)).skip [_])).append ((Covers.single (.elseIf hnested)).skip [_])

theorem IsStmt.covers {s : Stmt} (h : IsStmt ts s) : Covers ts s.nodes := by
  cases h with
  | block h => exact .single (.block h)
  | cond h => exact h.covers
  | var h => exact h.covers
  | ret => exact .nil
  | retValue h | print h => exact ((Covers.single (.expr h)).skip [_]).weaken [_]
  | expr h => exact (Covers.single (.expr h)).weaken [_]

theorem IsParamsFrom.covers {params : List Param} (h : IsParamsFrom ts params) :
    Covers ts (params.map Param.node) := by
  induction h with
  | last => exact .single .name
  | cons _ ih => exact (Covers.single .name).append (ih.skip [_])

theorem IsParams.covers {params : List Param} (h : IsParams ts params) :
    Covers ts (params.map Param.node) := by
  cases h with
  | none => exact .nil
  | some h => exact h.covers

theorem IsDecl.covers {d : Decl} (h : IsDecl ts d) : Covers ts (TreeNode.decl d).children := by
  cases h with
  | var h => exact h.covers
  | fn h =>
    obtain ⟨hparams, hbody⟩ := h
    exact ((Covers.single .name).skip [_]).append
      (((hparams.covers.skip [_]).append ((Covers.single (.block hbody)).skip [_])))

theorem IsDecls.covers {decls : List Decl} (h : IsDecls ts decls) :
    Covers ts (decls.map TreeNode.decl) := by
  induction h with
  | nil => exact .nil
  | cons h _ ih => exact (Covers.single (.decl h)).append ih

end Grammar

/-- What is right below a node is read from stretches of its tokens, one behind the other. -/
theorem TreeNode.ReadFrom.covers {ts : List Token} {node : TreeNode} (h : node.ReadFrom ts) :
    Covers ts node.children := by
  cases h with
  | decl h | block h | stmt h | expr h => exact h.covers
  | elseIf h => exact .single (.stmt (.cond h))
  | name => exact .nil

/-! ## Order and nesting -/

/-- One span lies within another. -/
structure Span.Inside (a b : Span) : Prop where
  start : ¬a.start.Before b.start
  stop : ¬b.stop.Before a.stop

/-- Tokens that hold characters and follow each other. -/
structure InOrder (ts : List Token) : Prop where
  ordered : ∀ t ∈ ts, t.span.start.Before t.span.stop
  disjoint : ts.Pairwise fun t t' => ¬t'.span.start.Before t.span.stop

variable {ts us : List Token}

theorem InOrder.of_infix (h : InOrder us) (hts : ts <:+: us) : InOrder ts where
  ordered t ht := h.ordered t (hts.subset ht)
  disjoint := h.disjoint.sublist hts.sublist

theorem Position.Before.trans_not {p q r : Position} (h : p.Before q) (h' : ¬r.Before q) :
    p.Before r := by
  unfold Before at *
  omega

namespace Span.Reaches

variable {a b : Span}

/-- The tokens that a span reaches over lie within it. -/
theorem inside_of_mem (h : a.Reaches ts) (hts : InOrder ts) {t : Token} (ht : t ∈ ts) :
    t.span.Inside a := by
  obtain ⟨first, last, hfirst, hlast, rfl⟩ := h
  constructor
  · obtain ⟨rest, rfl⟩ := List.head?_eq_some_iff.1 hfirst
    rcases List.mem_cons.1 ht with rfl | hrest
    · exact Position.Before.irrefl
    · exact fun hbefore => List.rel_of_pairwise_cons hts.disjoint hrest
        (hbefore.trans (hts.ordered first List.mem_cons_self))
  · obtain ⟨front, rfl⟩ := List.getLast?_eq_some_iff.1 hlast
    rcases List.mem_append.1 ht with hfront | hmem
    · have hbehind := (List.pairwise_append.1 hts.disjoint).2.2 t hfront last List.mem_cons_self
      exact fun hbefore => hbehind
        ((hts.ordered last (List.mem_append_right _ List.mem_cons_self)).trans hbefore)
    · rw [List.mem_singleton.1 hmem]
      exact Position.Before.irrefl

/-- Spans over some of the tokens lie within a span over all of them. -/
theorem inside (h : a.Reaches us) (h' : b.Reaches ts) (hts : InOrder ts) (hus : us <:+: ts) :
    a.Inside b := by
  obtain ⟨first, last, hfirst, hlast, rfl⟩ := h
  exact ⟨(h'.inside_of_mem hts (hus.subset (List.mem_of_mem_head? hfirst))).start,
    (h'.inside_of_mem hts (hus.subset (List.mem_of_getLast? hlast))).stop⟩

theorem start_before_stop (h : a.Reaches ts) (hts : InOrder ts) : a.start.Before a.stop := by
  obtain ⟨first, last, hfirst, hlast, rfl⟩ := id h
  have hmem := List.mem_of_mem_head? hfirst
  exact (hts.ordered first hmem).trans_not (h.inside_of_mem hts hmem).stop

end Span.Reaches

namespace Covers

variable {nodes : List TreeNode}

theorem exists_infix (h : Covers ts nodes) :
    ∀ node ∈ nodes, ∃ us, us <:+: ts ∧ node.ReadFrom us := by
  induction h with
  | nil => nofun
  | @cons before ts after node nodes h _ ih =>
    refine List.forall_mem_cons.2 ⟨⟨ts, ⟨before, after, by simp⟩, h⟩, fun other hother => ?_⟩
    obtain ⟨us, hus, hread⟩ := ih other hother
    refine ⟨us, hus.trans ⟨before ++ ts, [], by simp⟩, hread⟩

/-- What is read from stretches one behind the other has spans one behind the other. -/
theorem ordered (h : Covers ts nodes) (hts : InOrder ts) :
    nodes.Pairwise fun a b => ¬b.span.start.Before a.span.stop := by
  induction h with
  | nil => exact .nil
  | @cons before ts after node nodes h hrest ih =>
    have hbehind : InOrder (ts ++ after) := hts.of_infix (List.suffix_append _ _).isInfix
    refine .cons (fun other hother => ?_) (ih (hbehind.of_infix (List.suffix_append _ _).isInfix))
    obtain ⟨_, last, -, hlast, hspan⟩ := h.reaches
    obtain ⟨us, hus, hread⟩ := hrest.exists_infix other hother
    obtain ⟨first, _, hfirst, -, hother⟩ := hread.reaches
    rw [hspan, hother]
    exact (List.pairwise_append.1 hbehind.disjoint).2.2 last (List.mem_of_getLast? hlast) first
      (hus.subset (List.mem_of_mem_head? hfirst))

end Covers

/-! ## The spans of a program -/

/-- A node as the tokens that it is read from have it: its span reaches from the first of them
to the last and is not empty; what is right below it is read from stretches of them, lies
within the node and stands in order. -/
structure TreeNode.Exact (node : TreeNode) (ts : List Token) : Prop where
  readFrom : node.ReadFrom ts
  reaches : node.span.Reaches ts
  nonempty : node.span.start.Before node.span.stop
  covers : Covers ts node.children
  inside : ∀ child ∈ node.children, child.span.Inside node.span
  ordered : node.children.Pairwise fun a b => ¬b.span.start.Before a.span.stop

theorem TreeNode.ReadFrom.exact {node : TreeNode} (h : node.ReadFrom ts) (hts : InOrder ts) :
    node.Exact ts where
  readFrom := h
  reaches := h.reaches
  nonempty := h.reaches.start_before_stop hts
  covers := h.covers
  inside child hchild := by
    obtain ⟨us, hus, hread⟩ := h.covers.exists_infix child hchild
    exact hread.reaches.inside h.reaches hts hus
  ordered := h.covers.ordered hts

theorem Program.exists_ofSource {file source : String}
    (h : (Program.ofSource file source).isOk = true) :
    ∃ program, Program.ofSource file source = .ok program := by
  cases hprogram : Program.ofSource file source with
  | ok program => exact ⟨program, rfl⟩
  | error diagnostics =>
    rw [hprogram] at h
    cases h

/-- A program is read from the tokens of its source text. -/
theorem Program.exists_stream_of_ofSource {file source : String} {program : Program}
    (h : Program.ofSource file source = .ok program) :
    ∃ stream, scan source.toList = .ok stream ∧ IsProgram stream.tokens program := by
  unfold Program.ofSource at h
  split at h
  · cases h
  · next stream hscan =>
    split at h
    · cases h
    · next hparse =>
      cases h
      exact ⟨stream, hscan, parse_iff.1 hparse⟩

/-- All that is below the declarations of a program is read from stretches of its tokens. -/
theorem Program.HasNode.exists_readFrom {program : Program} {node : TreeNode}
    (h : program.HasNode node) (hts : IsProgram ts program) :
    ∃ us, us <:+: ts ∧ node.ReadFrom us := by
  obtain ⟨d, hd, hbelow⟩ := h
  induction hbelow with
  | refl => exact hts.covers.exists_infix _ (List.mem_map_of_mem hd)
  | tail _ hchild ih =>
    obtain ⟨us, hus, hread⟩ := ih
    obtain ⟨vs, hvs, hread⟩ := hread.covers.exists_infix _ hchild
    exact ⟨vs, hvs.trans hus, hread⟩

/-- In a program that is read from a source text, every node is read from a stretch of the
tokens. Its span goes from the start of the first of them to the end of the last, with the
parentheses around an expression as its first and last token; what is right below it is read
from parts of the stretch, so that it lies within the node and, in source order, behind each
other. So do the declarations in the text. -/
theorem spans_exact {file source : String} {program : Program}
    (h : Program.ofSource file source = .ok program) :
    ∃ stream, scan source.toList = .ok stream ∧
      Covers stream.tokens (program.decls.map TreeNode.decl) ∧
      (program.decls.Pairwise fun a b => ¬b.span.start.Before a.span.stop) ∧
      ∀ node, program.HasNode node → ∃ ts, ts <:+: stream.tokens ∧ node.Exact ts := by
  obtain ⟨stream, hscan, hprogram⟩ := Program.exists_stream_of_ofSource h
  have horigin : Position.origin = positionBehind [] := rfl
  obtain ⟨segments, hsplits, hstream⟩ := exists_splits_of_scanFrom horigin hscan
  have hfaithful : TokenStream.Faithful source.toList segments stream := by
    rw [hstream]
    exact hsplits.faithful
  have horder : InOrder stream.tokens := ⟨hfaithful.ordered, hfaithful.disjoint⟩
  have hcovers : Covers stream.tokens (program.decls.map TreeNode.decl) := hprogram.covers
  refine ⟨stream, hscan, hcovers, List.pairwise_map.1 (hcovers.ordered horder), ?_⟩
  intro node hnode
  obtain ⟨ts, hts, hread⟩ := hnode.exists_readFrom hprogram
  exact ⟨ts, hts, hread.exact (horder.of_infix hts)⟩

theorem spans_exact_demo :
    ∃ program, Program.ofSource "demo"
        "fn f(a) { if ((a)) { print [a]; } else if (!a) { return f(a).b; } }" = .ok program ∧
      ∃ stream : TokenStream, Covers stream.tokens (program.decls.map TreeNode.decl) ∧
        ∀ node, program.HasNode node → ∃ ts, ts <:+: stream.tokens ∧ node.Exact ts := by
  refine (Program.exists_ofSource (by decide +kernel)).imp fun program h => ⟨h, ?_⟩
  obtain ⟨stream, -, hcovers, -, hnodes⟩ := spans_exact h
  exact ⟨stream, hcovers, hnodes⟩

end ScriptMachine
