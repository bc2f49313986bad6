import ScriptMachine.Program.Expression

/-!
# The grammar

Which tokens make up an expression, a statement or a program, and the tree that
they stand for. Every rule looks at the kinds of tokens only; their spans go into
the tree. Parentheses are a rule that leaves the tree as it is, but for its span.

* expressions: assignment to the right; `or`, `and`, equality, comparison, sums and
  products, all to the left; signs in front; calls, indices and properties behind;
* statements: blocks, conditionals, variables, returns, prints and expressions;
* programs: functions and variables.
-/

namespace ScriptMachine

namespace Grammar

/-! ## Operators -/

/-- The level whose expressions are the operands of a level. -/
inductive Over : Level → Level → Prop
  | disjunction : Over .disjunction .conjunction
  | conjunction : Over .conjunction .equality
  | equality : Over .equality .comparison
  | comparison : Over .comparison .sum
  | sum : Over .sum .product

/-- The tokens that join operands of a level, with their meaning. -/
inductive Joins : Level → TokenKind → Connective → Prop
  | or : Joins .disjunction .orKw (.logical .or)
  | and : Joins .conjunction .andKw (.logical .and)
  | equal : Joins .equality .equal (.binary .equal)
  | notEqual : Joins .equality .notEqual (.binary .notEqual)
  | less : Joins .comparison .less (.binary .less)
  | lessEqual : Joins .comparison .lessEqual (.binary .lessEqual)
  | greater : Joins .comparison .greater (.binary .greater)
  | greaterEqual : Joins .comparison .greaterEqual (.binary .greaterEqual)
  | add : Joins .sum .plus (.binary .add)
  | sub : Joins .sum .minus (.binary .sub)
  | mul : Joins .product .star (.binary .mul)
  | div : Joins .product .slash (.binary .div)
  | floorDiv : Joins .product .slashSlash (.binary .floorDiv)
  | mod : Joins .product .percent (.binary .mod)

/-- The tokens that stand in front of an operand. -/
inductive Signs : TokenKind → UnaryOp → Prop
  | neg : Signs .minus .neg
  | not : Signs .bang .not

/-- The tokens that assign. -/
inductive Assigns : TokenKind → AssignOp → Prop
  | assign : Assigns .assign .assign
  | add : Assigns .plusAssign .add
  | sub : Assigns .minusAssign .sub
  | mul : Assigns .starAssign .mul
  | div : Assigns .slashAssign .div
  | floorDiv : Assigns .slashSlashAssign .floorDiv
  | mod : Assigns .percentAssign .mod

/-- The tokens that are expressions by themselves. -/
inductive IsAtom : Token → Expr → Prop
  | null (s : Span) : IsAtom ⟨.nullKw, s⟩ (.null s)
  | true (s : Span) : IsAtom ⟨.trueKw, s⟩ (.bool true s)
  | false (s : Span) : IsAtom ⟨.falseKw, s⟩ (.bool false s)
  | number (value : Float) (s : Span) : IsAtom ⟨.number value, s⟩ (.number value s)
  | string (value : String) (s : Span) : IsAtom ⟨.string value, s⟩ (.string value s)
  | name (name : String) (s : Span) : IsAtom ⟨.name name, s⟩ (.name name none s)

/-! ## Expressions -/

mutual

/-- An expression: an assignment, which binds to the right, or a disjunction. -/
inductive IsExpr : List Token → Expr → Prop
  | level {ts : List Token} {e : Expr} (h : IsLevel .disjunction ts e) : IsExpr ts e
  | assign {ts us : List Token} {target value : Expr} {kind : TokenKind} {op : AssignOp} {s : Span}
      (htarget : IsLevel .disjunction ts target) (hop : Assigns kind op)
        (hvalue : IsExpr us value) :
      IsExpr (ts ++ ⟨kind, s⟩ :: us) (.assign op target value (target.span.upTo value.span))

/-- Operands of a level, joined from the left. -/
inductive IsLevel : Level → List Token → Expr → Prop
  | operand {level : Level} {ts : List Token} {e : Expr} (h : IsOperand level ts e) :
      IsLevel level ts e
  | join {level : Level} {ts us : List Token} {left right : Expr} {kind : TokenKind}
      {op : Connective} {s : Span} (hleft : IsLevel level ts left) (hop : Joins level kind op)
      (hright : IsOperand level us right) :
      IsLevel level (ts ++ ⟨kind, s⟩ :: us) (op.join left right)

/-- An operand of a level: an expression of the next level, or a signed one. -/
inductive IsOperand : Level → List Token → Expr → Prop
  | tighter {level tighter : Level} {ts : List Token} {e : Expr} (hover : Over level tighter)
      (h : IsLevel tighter ts e) : IsOperand level ts e
  | signed {ts : List Token} {e : Expr} (h : IsSigned ts e) : IsOperand .product ts e

/-- An expression with signs in front. -/
inductive IsSigned : List Token → Expr → Prop
  | sign {ts : List Token} {e : Expr} {kind : TokenKind} {op : UnaryOp} {s : Span}
      (hop : Signs kind op) (h : IsSigned ts e) :
      IsSigned (⟨kind, s⟩ :: ts) (.unary op e (s.upTo e.span))
  | plain {ts : List Token} {e : Expr} (h : IsPrimary ts e) : IsSigned ts e

/-- A single token, a group or a list, with what is applied to it. -/
inductive IsPrimary : List Token → Expr → Prop
  | atom {token : Token} {e : Expr} (h : IsAtom token e) : IsPrimary [token] e
  | group {ts : List Token} {e : Expr} {s s' : Span} (h : IsExpr ts e) :
      IsPrimary (⟨.openParen, s⟩ :: ts ++ [⟨.closeParen, s'⟩]) (e.withSpan (s.upTo s'))
  | list {ts : List Token} {items : List Expr} {s s' : Span} (h : IsItems ts items) :
      IsPrimary (⟨.openBracket, s⟩ :: ts ++ [⟨.closeBracket, s'⟩]) (.list items (s.upTo s'))
  | call {ts us : List Token} {callee : Expr} {args : List Expr} {s s' : Span}
      (hcallee : IsPrimary ts callee) (hargs : IsItems us args) :
      IsPrimary (ts ++ ⟨.openParen, s⟩ :: us ++ [⟨.closeParen, s'⟩])
        (.call callee args (callee.span.upTo s'))
  | index {ts us : List Token} {base index : Expr} {s s' : Span} (hbase : IsPrimary ts base)
      (hindex : IsExpr us index) :
      IsPrimary (ts ++ ⟨.openBracket, s⟩ :: us ++ [⟨.closeBracket, s'⟩])
        (.index base index (base.span.upTo s'))
  | property {ts : List Token} {object : Expr} {name : String} {s s' : Span}
      (hobject : IsPrimary ts object) :
      IsPrimary (ts ++ [⟨.dot, s⟩, ⟨.name name, s'⟩])
        (.property object name (object.span.upTo s'))

/-- A comma list, which may be empty. -/
inductive IsItems : List Token → List Expr → Prop
  | none : IsItems [] []
  | some {ts : List Token} {items : List Expr} (h : IsItemsFrom ts items) : IsItems ts items

/-- A comma list of at least one member, without a comma at its end. -/
inductive IsItemsFrom : List Token → List Expr → Prop
  | last {ts : List Token} {e : Expr} (h : IsExpr ts e) : IsItemsFrom ts [e]
  | cons {ts us : List Token} {e : Expr} {items : List Expr} {s : Span} (h : IsExpr ts e)
      (hitems : IsItemsFrom us items) : IsItemsFrom (ts ++ ⟨.comma, s⟩ :: us) (e :: items)

end

/-! ## Statements -/

/-- A variable, with or without an initial value. -/
inductive IsVar : List Token → VarDecl → Prop
  | plain {name : String} {s nameSpan s' : Span} :
      IsVar [⟨.varKw, s⟩, ⟨.name name, nameSpan⟩, ⟨.semicolon, s'⟩]
        { name, nameSpan, init := none, span := s.upTo s' }
  | init {ts : List Token} {e : Expr} {name : String} {s nameSpan s' s'' : Span}
      (h : IsExpr ts e) :
      IsVar (⟨.varKw, s⟩ :: ⟨.name name, nameSpan⟩ :: ⟨.assign, s'⟩ :: ts ++ [⟨.semicolon, s''⟩])
        { name, nameSpan, init := some e, span := s.upTo s'' }

mutual

/-- Statements between braces. -/
inductive IsBlock : List Token → Block Stmt → Prop
  | braces {ts : List Token} {stmts : List Stmt} {s s' : Span} (h : IsStmts ts stmts) :
      IsBlock (⟨.openBrace, s⟩ :: ts ++ [⟨.closeBrace, s'⟩]) ⟨stmts, s.upTo s'⟩

inductive IsStmts : List Token → List Stmt → Prop
  | nil : IsStmts [] []
  | cons {ts us : List Token} {stmt : Stmt} {stmts : List Stmt} (h : IsStmt ts stmt)
      (hstmts : IsStmts us stmts) : IsStmts (ts ++ us) (stmt :: stmts)

inductive IsStmt : List Token → Stmt → Prop
  | block {ts : List Token} {body : Block Stmt} (h : IsBlock ts body) : IsStmt ts (.block body)
  | cond {ts : List Token} {stmt : Stmt} (h : IsIf ts stmt) : IsStmt ts stmt
  | var {ts : List Token} {decl : VarDecl} (h : IsVar ts decl) : IsStmt ts (.var decl)
  | ret {s s' : Span} : IsStmt [⟨.returnKw, s⟩, ⟨.semicolon, s'⟩] (.ret none (s.upTo s'))
  | retValue {ts : List Token} {e : Expr} {s s' : Span} (h : IsExpr ts e) :
      IsStmt (⟨.returnKw, s⟩ :: ts ++ [⟨.semicolon, s'⟩]) (.ret (some e) (s.upTo s'))
  | print {ts : List Token} {e : Expr} {s s' : Span} (h : IsExpr ts e) :
      IsStmt (⟨.printKw, s⟩ :: ts ++ [⟨.semicolon, s'⟩]) (.print e (s.upTo s'))
  | expr {ts : List Token} {e : Expr} {s' : Span} (h : IsExpr ts e) :
      IsStmt (ts ++ [⟨.semicolon, s'⟩]) (.expr e (e.span.upTo s'))

/-- A conditional. One behind `else` makes up a block of its own. -/
inductive IsIf : List Token → Stmt → Prop
  | noElse {ts us : List Token} {test : Expr} {body : Block Stmt} {s p p' : Span}
      (htest : IsExpr ts test) (hbody : IsBlock us body) :
      IsIf (⟨.ifKw, s⟩ :: ⟨.openParen, p⟩ :: ts ++ ⟨.closeParen, p'⟩ :: us)
        (.cond test body none (s.upTo body.span))
  | elseBlock {ts us vs : List Token} {test : Expr} {body other : Block Stmt} {s p p' q : Span}
      (htest : IsExpr ts test) (hbody : IsBlock us body) (hother : IsBlock vs other) :
      IsIf (⟨.ifKw, s⟩ :: ⟨.openParen, p⟩ :: ts ++ ⟨.closeParen, p'⟩ :: us ++ ⟨.elseKw, q⟩ :: vs)
        (.cond test body (some other) (s.upTo other.span))
  | elseIf {ts us vs : List Token} {test : Expr} {body : Block Stmt} {nested : Stmt}
      {s p p' q : Span} (htest : IsExpr ts test) (hbody : IsBlock us body)
      (hnested : IsIf vs nested) :
      IsIf (⟨.ifKw, s⟩ :: ⟨.openParen, p⟩ :: ts ++ ⟨.closeParen, p'⟩ :: us ++ ⟨.elseKw, q⟩ :: vs)
        (.cond test body (some ⟨[nested], nested.span⟩) (s.upTo nested.span))

end

/-! ## Programs -/

/-- At least one parameter, without a comma at the end. -/
inductive IsParamsFrom : List Token → List Param → Prop
  | last {name : String} {s : Span} : IsParamsFrom [⟨.name name, s⟩] [{ name, span := s }]
  | cons {us : List Token} {params : List Param} {name : String} {s s' : Span}
      (h : IsParamsFrom us params) :
      IsParamsFrom (⟨.name name, s⟩ :: ⟨.comma, s'⟩ :: us) ({ name, span := s } :: params)

inductive IsParams : List Token → List Param → Prop
  | none : IsParams [] []
  | some {ts : List Token} {params : List Param} (h : IsParamsFrom ts params) : IsParams ts params

inductive IsFn : List Token → FnDecl → Prop
  | fn {ts us : List Token} {params : List Param} {body : Block Stmt} {name : String}
      {s nameSpan p p' : Span} (hparams : IsParams ts params) (hbody : IsBlock us body) :
      IsFn (⟨.fnKw, s⟩ :: ⟨.name name, nameSpan⟩ :: ⟨.openParen, p⟩ :: ts ++
        ⟨.closeParen, p'⟩ :: us)
        { name, nameSpan, params, body, span := s.upTo body.span }

inductive IsDecl : List Token → Decl → Prop
  | fn {ts : List Token} {decl : FnDecl} (h : IsFn ts decl) : IsDecl ts (.fn decl)
  | var {ts : List Token} {decl : VarDecl} (h : IsVar ts decl) : IsDecl ts (.var decl)

inductive IsDecls : List Token → List Decl → Prop
  | nil : IsDecls [] []
  | cons {ts us : List Token} {decl : Decl} {decls : List Decl} (h : IsDecl ts decl)
      (hdecls : IsDecls us decls) : IsDecls (ts ++ us) (decl :: decls)

/-- The tokens of a program. -/
def IsProgram (tokens : List Token) (program : Program) : Prop := IsDecls tokens program.decls

end Grammar

end ScriptMachine
