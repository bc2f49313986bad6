import ScriptMachine.Source.Position

/-! # Programs

The tree of a program: declarations of functions and variables, statements and
expressions, each with its span. Names carry the number of the symbol they
stand for once they are resolved. -/

namespace ScriptMachine

/-- The number of a symbol in its table. -/
abbrev SymbolId := Nat

inductive UnaryOp where
  | neg | not
  deriving DecidableEq, Repr, Inhabited

inductive BinaryOp where
  | add | sub | mul | div | floorDiv | mod
  | equal | notEqual | less | lessEqual | greater | greaterEqual
  deriving DecidableEq, Repr, Inhabited

inductive LogicalOp where
  | and | or
  deriving DecidableEq, Repr, Inhabited

/-- How a value is assigned: plainly, or joined with the old value by an
operator. -/
inductive AssignOp where
  | assign | add | sub | mul | div | floorDiv | mod
  deriving DecidableEq, Repr, Inhabited

/-- The operator that joins old value and operand of a compound assignment. -/
def AssignOp.binary? : AssignOp → Option BinaryOp
  | .assign => none
  | .add => some .add
  | .sub => some .sub
  | .mul => some .mul
  | .div => some .div
  | .floorDiv => some .floorDiv
  | .mod => some .mod

/-- An expression with its span. Parentheses leave no trace but the span. -/
inductive Expr where
  | null (span : Span)
  | bool (value : Bool) (span : Span)
  | number (value : Float) (span : Span)
  | string (value : String) (span : Span)
  | name (name : String) (id : Option SymbolId) (span : Span)
  | unary (op : UnaryOp) (operand : Expr) (span : Span)
  | binary (op : BinaryOp) (left right : Expr) (span : Span)
  | logical (op : LogicalOp) (left right : Expr) (span : Span)
  | list (items : List Expr) (span : Span)
  | index (base index : Expr) (span : Span)
  | assign (op : AssignOp) (target value : Expr) (span : Span)
  | call (callee : Expr) (args : List Expr) (span : Span)
  | property (object : Expr) (name : String) (span : Span)
  deriving Repr, Inhabited

namespace Expr

def span : Expr → Span
  | .null s | .bool _ s | .number _ s | .string _ s | .name _ _ s | .unary _ _ s
  | .binary _ _ _ s | .logical _ _ _ s | .list _ s | .index _ _ s | .assign _ _ _ s
  | .call _ _ s | .property _ _ s => s

/-- The same expression with another span. -/
def withSpan : Expr → Span → Expr
  | .null _, s => .null s
  | .bool b _, s => .bool b s
  | .number x _, s => .number x s
  | .string t _, s => .string t s
  | .name n id _, s => .name n id s
  | .unary op e _, s => .unary op e s
  | .binary op l r _, s => .binary op l r s
  | .logical op l r _, s => .logical op l r s
  | .list es _, s => .list es s
  | .index b i _, s => .index b i s
  | .assign op t v _, s => .assign op t v s
  | .call c as _, s => .call c as s
  | .property o n _, s => .property o n s

@[simp] theorem span_withSpan (e : Expr) (s : Span) : (e.withSpan s).span = s := by
  cases e <;> rfl

/-- The line on which an expression starts. -/
def line (e : Expr) : Nat := e.span.start.line

end Expr

/-- The declaration of a variable. -/
structure VarDecl where
  name : String
  nameSpan : Span
  id : Option SymbolId := none
  init : Option Expr
  span : Span
  deriving Repr, Inhabited

/-- Statements between braces. -/
structure Block (α : Type) where
  stmts : List α
  span : Span
  deriving Repr, Inhabited

inductive Stmt where
  | block (body : Block Stmt)
  | var (decl : VarDecl)
  | cond (test : Expr) (thenBlock : Block Stmt) (elseBlock : Option (Block Stmt)) (span : Span)
  | ret (value : Option Expr) (span : Span)
  | print (value : Expr) (span : Span)
  | expr (value : Expr) (span : Span)
  deriving Repr, Inhabited

def Stmt.span : Stmt → Span
  | .block body => body.span
  | .var decl => decl.span
  | .cond _ _ _ s | .ret _ s | .print _ s | .expr _ s => s

/-- A parameter of a function. -/
structure Param where
  name : String
  span : Span
  id : Option SymbolId := none
  deriving Repr, Inhabited

/-- The declaration of a function. -/
structure FnDecl where
  name : String
  nameSpan : Span
  id : Option SymbolId := none
  params : List Param
  body : Block Stmt
  span : Span
  deriving Repr, Inhabited

inductive Decl where
  | fn (decl : FnDecl)
  | var (decl : VarDecl)
  deriving Repr, Inhabited

namespace Decl

def name : Decl → String
  | .fn d => d.name
  | .var d => d.name

def nameSpan : Decl → Span
  | .fn d => d.nameSpan
  | .var d => d.nameSpan

def span : Decl → Span
  | .fn d => d.span
  | .var d => d.span

end Decl

/-- A program: its declarations in source order. -/
structure Program where
  decls : List Decl
  deriving Repr, Inhabited

end ScriptMachine
