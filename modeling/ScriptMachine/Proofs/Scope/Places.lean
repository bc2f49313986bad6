import Mathlib.Data.List.Infix
import ScriptMachine.Proofs.Scope.Scoped

/-!
# Where names are declared and used

The places of a program that matter to its names, in the order of the text: where
blocks begin and end, where a local is declared, where a name is used, where
something is assigned to. What is visible at a place is said by position alone
(`visible`): a local declared before it whose block has not ended in between. The
symbol a name stands for (`symbolOf?`) and the errors there (`errorsAt`) are said
in these terms, and `Resolution.Lexical` says of a whole resolution that it is
the one of lexical scoping.
-/

namespace ScriptMachine

/-! ## Places -/

/-- A place that matters to names. Declarations and uses carry the number written
there. -/
inductive Place where
  | opening
  | closing
  | declared (isParam : Bool) (name : String) (id : Option SymbolId) (span : Span)
  | used (name : String) (id : Option SymbolId) (span : Span)
  | assigned (assignable : Bool) (span : Span)
  deriving DecidableEq, Repr

mutual

/-- The places of an expression, from left to right; the target of an assignment
is judged before its names are looked up. -/
def Expr.places : Expr → List Place
  | .null _ | .bool _ _ | .number _ _ | .string _ _ => []
  | .name n id s => [.used n id s]
  | .unary _ e _ => e.places
  | .binary _ left right _ | .logical _ left right _ | .index left right _ =>
    left.places ++ right.places
  | .list items _ => exprsPlaces items
  | .assign _ target value _ =>
    .assigned target.isAssignable target.span :: (target.places ++ value.places)
  | .call callee args _ => callee.places ++ exprsPlaces args
  | .property object _ _ => object.places
termination_by structural e => e

def exprsPlaces : List Expr → List Place
  | [] => []
  | e :: es => e.places ++ exprsPlaces es
termination_by structural es => es

end

def initPlaces : Option Expr → List Place
  | some e => e.places
  | none => []

mutual

/-- The places of a statement. A local is declared behind its initialiser. -/
def Stmt.places : Stmt → List Place
  | .block body => blockPlaces body
  | .var d => initPlaces d.init ++ [.declared false d.name d.id d.nameSpan]
  | .cond test thenBlock none _ => test.places ++ blockPlaces thenBlock
  | .cond test thenBlock (some elseBlock) _ =>
    test.places ++ (blockPlaces thenBlock ++ blockPlaces elseBlock)
  | .ret value _ => initPlaces value
  | .print value _ | .expr value _ => value.places
termination_by structural s => s

def blockPlaces : Block Stmt → List Place
  | ⟨stmts, _⟩ => .opening :: (stmtsPlaces stmts ++ [.closing])
termination_by structural b => b

def stmtsPlaces : List Stmt → List Place
  | [] => []
  | s :: ss => s.places ++ stmtsPlaces ss
termination_by structural ss => ss

end

def Param.place (p : Param) : Place := .declared true p.name p.id p.span

/-- The places of a function. Its parameters and the statements of its body are in
one block. -/
def FnDecl.places (d : FnDecl) : List Place := d.params.map Param.place ++ stmtsPlaces d.body.stmts

/-- The places inside a top-level declaration. -/
def Decl.places : Decl → List Place
  | .fn d => d.places
  | .var d => initPlaces d.init

/-! ## What is visible -/

/-- How many blocks are open behind a place, given how many were; none when a block
ends that was open before. -/
def Place.nest (depth : Nat) : Place → Option Nat
  | .opening => some (depth + 1)
  | .closing => if depth = 0 then none else some (depth - 1)
  | _ => some depth

/-- How many blocks are open behind some places, of those that began in them; none
when a block has ended that began before. -/
def depthAfter (places : List Place) : Option Nat := places.foldlM Place.nest 0

/-- A local that is visible. Since it was declared, `depth` blocks have begun that
are still open. -/
structure Declared where
  name : String
  id : Option SymbolId
  span : Span
  depth : Nat
  deriving DecidableEq, Repr

/-- The locals that are visible behind some places: those declared there whose
block has not ended since. They are in order of declaration, so the innermost
ones come last. -/
def visible : List Place → List Declared
  | [] => []
  | .declared _ name id span :: after =>
    match depthAfter after with
    | some depth => ⟨name, id, span, depth⟩ :: visible after
    | none => visible after
  | _ :: after => visible after

/-- The number of the last of the globals, all of which are visible everywhere,
that has a name. -/
def globalOf? (globals : List String) (name : String) : Option SymbolId :=
  (globals.zipIdx.reverse.find? (·.1 = name)).map (·.2)

/-- The symbol that a name stands for behind some places: the latest visible local
of that name, or else the latest global. -/
def symbolOf? (globals : List String) (before : List Place) (name : String) : Option SymbolId :=
  match (visible before).reverse.find? (·.name = name) with
  | some d => d.id
  | none => globalOf? globals name

/-- The latest declaration of a name in the block that is open behind some
places. -/
def sameBlock? (before : List Place) (name : String) : Option Declared :=
  (visible before).reverse.find? fun d => d.depth = 0 ∧ d.name = name

/-- Whether anywhere in some places more locals are live than a function may have. -/
def crowded (places : List Place) : Bool :=
  places.inits.any fun before => maxLocals < (visible before).length

/-! ## Errors -/

/-- The error of declaring a name that is declared in the same block already. -/
def repeatErrors (before : List Place) (isParam : Bool) (name : String) (span : Span) :
    List ScopeError :=
  ((sameBlock? before name).map fun d =>
    ⟨if isParam then .repeatedParam name else .redeclared name d.span, span⟩).toList

/-- The errors at a place behind others. -/
def errorsAt (globals : List String) (before : List Place) : Place → List ScopeError
  | .used name none span =>
    [⟨.unknownName name ((visible before).reverse.map (·.name) ++ globals), span⟩]
  | .declared isParam name _ span =>
    repeatErrors before isParam name span ++
      if maxLocals ≤ (visible before).length ∧ !crowded before then [⟨.tooManyLocals, span⟩] else []
  | .assigned false span => [⟨.badTarget, span⟩]
  | _ => []

/-- The errors at places one after the other, behind others. -/
def errorsFrom (globals : List String) (before : List Place) : List Place → List ScopeError
  | [] => []
  | p :: after => errorsAt globals before p ++ errorsFrom globals (before ++ [p]) after

/-- The errors at the places of one top-level declaration, in order. -/
def placeErrors (globals : List String) (places : List Place) : List ScopeError :=
  errorsFrom globals [] places

/-- The errors of declaring globals behind others: each name that one before it
has. -/
def globalErrors (before : List (String × Span)) : List (String × Span) → List ScopeError
  | [] => []
  | (name, span) :: after =>
    ((before.find? (·.1 = name)).map fun first => ⟨.redeclared name first.2, span⟩).toList ++
      globalErrors (before ++ [(name, span)]) after

/-! ## Programs without numbers -/

mutual

/-- An expression as it is read, with no symbols written into it. -/
def Expr.withoutIds : Expr → Expr
  | .null s => .null s
  | .bool b s => .bool b s
  | .number x s => .number x s
  | .string t s => .string t s
  | .name n _ s => .name n none s
  | .unary op e s => .unary op e.withoutIds s
  | .binary op left right s => .binary op left.withoutIds right.withoutIds s
  | .logical op left right s => .logical op left.withoutIds right.withoutIds s
  | .list items s => .list (exprsWithoutIds items) s
  | .index base index s => .index base.withoutIds index.withoutIds s
  | .assign op target value s => .assign op target.withoutIds value.withoutIds s
  | .call callee args s => .call callee.withoutIds (exprsWithoutIds args) s
  | .property object n s => .property object.withoutIds n s
termination_by structural e => e

def exprsWithoutIds : List Expr → List Expr
  | [] => []
  | e :: es => e.withoutIds :: exprsWithoutIds es
termination_by structural es => es

end

def initWithoutIds : Option Expr → Option Expr
  | some e => some e.withoutIds
  | none => none

mutual

def Stmt.withoutIds : Stmt → Stmt
  | .block body => .block (blockWithoutIds body)
  | .var d => .var { d with id := none, init := initWithoutIds d.init }
  | .cond test thenBlock none s => .cond test.withoutIds (blockWithoutIds thenBlock) none s
  | .cond test thenBlock (some elseBlock) s =>
    .cond test.withoutIds (blockWithoutIds thenBlock) (some (blockWithoutIds elseBlock)) s
  | .ret value s => .ret (initWithoutIds value) s
  | .print value s => .print value.withoutIds s
  | .expr value s => .expr value.withoutIds s
termination_by structural s => s

def blockWithoutIds : Block Stmt → Block Stmt
  | ⟨stmts, s⟩ => ⟨stmtsWithoutIds stmts, s⟩
termination_by structural b => b

def stmtsWithoutIds : List Stmt → List Stmt
  | [] => []
  | s :: ss => s.withoutIds :: stmtsWithoutIds ss
termination_by structural ss => ss

end

def Decl.withoutIds : Decl → Decl
  | .fn d => .fn { d with
      id := none
      params := d.params.map fun p => { p with id := none }
      body := { d.body with stmts := stmtsWithoutIds d.body.stmts } }
  | .var d => .var { d with id := none, init := initWithoutIds d.init }

/-- A program as it is read, with no symbols written into it. -/
def Program.withoutIds (program : Program) : Program := ⟨program.decls.map Decl.withoutIds⟩

/-! ## Lexical scoping -/

/-- The symbol of a local that is declared at a place. -/
def Place.symbol? : Place → Option Symbol
  | .declared _ name _ span => some { name, span, kind := .local }
  | _ => none

/-- The number written where a local is declared. -/
def Place.declaredId? : Place → Option (Option SymbolId)
  | .declared _ _ id _ => some id
  | _ => none

/-- The names and spans of all globals: those of the host, and those of the
program. -/
def globalsOf (hostNames : List String) (program : Program) : List (String × Span) :=
  hostNames.map (·, .nowhere) ++ program.decls.map fun decl => (decl.name, decl.nameSpan)

/-- The places of a whole program, one declaration after the other. -/
def Program.places (program : Program) : List Place := program.decls.flatMap Decl.places

/-- The numbers of all declarations of a program: the globals in order, and then
the locals of one declaration after the other. -/
def Program.declaredIds (program : Program) : List (Option SymbolId) :=
  program.decls.map Decl.id ++ program.places.filterMap Place.declaredId?

/-- A resolution of a program is the one of lexical scoping. -/
structure Resolution.Lexical (hostNames : List String) (program : Program) (r : Resolution) :
    Prop where
  /-- Nothing but the numbers of symbols is written into the program. -/
  unchanged : r.program.withoutIds = program.withoutIds
  /-- The symbols: the globals of the host and of the program, and then the locals,
  each declaration's with its name, span and kind. -/
  symbols : r.symbols.toList =
    (globalsOf hostNames program).map (fun g => { name := g.1, span := g.2, kind := .global }) ++
      r.program.places.filterMap Place.symbol?
  /-- Each declaration has the number of its symbol. -/
  ids : r.program.declaredIds =
    (List.range' hostNames.length (r.symbols.size - hostNames.length)).map some
  /-- Each name stands for the innermost declaration of it that is visible there. -/
  uses : ∀ decl ∈ r.program.decls, ∀ {before after name id span},
    decl.places = before ++ .used name id span :: after →
      id = symbolOf? ((globalsOf hostNames program).map Prod.fst) before name
  /-- The errors, in the order of the walk. -/
  errors : r.errors = globalErrors [] (globalsOf hostNames program) ++
    r.program.decls.flatMap fun decl =>
      placeErrors ((globalsOf hostNames program).map Prod.fst) decl.places
  /-- A declaration is reported once for having too many locals, if it ever has. -/
  overflow : ∀ decl ∈ r.program.decls,
    (placeErrors ((globalsOf hostNames program).map Prod.fst) decl.places).countP
      (·.fault = .tooManyLocals) = if crowded decl.places then 1 else 0

end ScriptMachine
