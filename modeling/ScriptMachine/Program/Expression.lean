import ScriptMachine.Program.Basic
import ScriptMachine.Program.Cursor

/-! # Reading expressions

Expressions by precedence: assignment binds loosest and to the right, then six
levels of operators that bind to the left, from `or` down to the products, then
the signs in front, then calls, indices and properties behind a primary
expression. Each reader stops at the first token that fits nowhere. -/

namespace ScriptMachine

/-- The assignment that a token stands for. -/
def assignOp? : TokenKind → Option AssignOp
  | .assign => some .assign
  | .plusAssign => some .add
  | .minusAssign => some .sub
  | .starAssign => some .mul
  | .slashAssign => some .div
  | .slashSlashAssign => some .floorDiv
  | .percentAssign => some .mod
  | _ => none

/-- An operator between two operands. -/
inductive Connective where
  | binary (op : BinaryOp)
  | logical (op : LogicalOp)
  deriving DecidableEq, Repr, Inhabited

/-- The expression of two operands. -/
def Connective.join (op : Connective) (left right : Expr) : Expr :=
  match op with
  | .binary op => .binary op left right (left.span.upTo right.span)
  | .logical op => .logical op left right (left.span.upTo right.span)

/-- The levels of operators between operands, the one that binds tightest
first. -/
inductive Level where
  | product | sum | comparison | equality | conjunction | disjunction
  deriving DecidableEq, Repr, Inhabited

namespace Level

/-- The level whose expressions are the operands of this one; the operands of
products are signed expressions. -/
def tighter? : Level → Option Level
  | .product => none
  | .sum => some .product
  | .comparison => some .sum
  | .equality => some .comparison
  | .conjunction => some .equality
  | .disjunction => some .conjunction

/-- How many levels bind tighter. -/
def rank : Level → Nat
  | .product => 0
  | .sum => 1
  | .comparison => 2
  | .equality => 3
  | .conjunction => 4
  | .disjunction => 5

theorem rank_le (level : Level) : level.rank ≤ 5 := by cases level <;> decide

theorem rank_lt_of_tighter? {level tighter : Level} (h : level.tighter? = some tighter) :
    tighter.rank < level.rank := by
  cases level <;> cases h <;> decide

/-- The operator of a level that a token stands for. -/
def connective? : Level → TokenKind → Option Connective
  | .product, .star => some (.binary .mul)
  | .product, .slash => some (.binary .div)
  | .product, .slashSlash => some (.binary .floorDiv)
  | .product, .percent => some (.binary .mod)
  | .sum, .plus => some (.binary .add)
  | .sum, .minus => some (.binary .sub)
  | .comparison, .less => some (.binary .less)
  | .comparison, .lessEqual => some (.binary .lessEqual)
  | .comparison, .greater => some (.binary .greater)
  | .comparison, .greaterEqual => some (.binary .greaterEqual)
  | .equality, .equal => some (.binary .equal)
  | .equality, .notEqual => some (.binary .notEqual)
  | .conjunction, .andKw => some (.logical .and)
  | .disjunction, .orKw => some (.logical .or)
  | _, _ => none

end Level

/-- The operator in front of an operand that a token stands for. -/
def sign? : TokenKind → Option UnaryOp
  | .minus => some .neg
  | .bang => some .not
  | _ => none

/-- The expression that a single token is. -/
def atom? (kind : TokenKind) (span : Span) : Option Expr :=
  match kind with
  | .number value => some (.number value span)
  | .string value => some (.string value span)
  | .trueKw => some (.bool true span)
  | .falseKw => some (.bool false span)
  | .nullKw => some (.null span)
  | .name name => some (.name name none span)
  | _ => none

/-- Whether an expression can start with the token. -/
def startsExpression : TokenKind → Bool
  | .name _ | .number _ | .string _ | .trueKw | .falseKw | .nullKw | .openParen | .openBracket
  | .minus | .bang => true
  | _ => false

namespace TokenKind

def isCloseParen : TokenKind → Bool
  | .closeParen => true
  | _ => false

def isCloseBracket : TokenKind → Bool
  | .closeBracket => true
  | _ => false

end TokenKind

/-- Reads a closing parenthesis. -/
def expectCloseParen (role : ParenRole) (c : Cursor) : Outcome c Span :=
  expect TokenKind.isCloseParen (.insertion (.closeParen role) c.here.start) c

/-- Reads a closing bracket. -/
def expectCloseBracket (role : BracketRole) (c : Cursor) : Outcome c Span :=
  expect TokenKind.isCloseBracket (.insertion (.closeBracket role) c.here.start) c

mutual

/-- Reads an expression. -/
def readExpr (c : Cursor) : Outcome c Expr :=
  (readLevel .disjunction c).andThen (Cursor.size_le_self c) fun target d hd =>
    match hp : d.peek?.bind assignOp? with
    | some op =>
      have ha := Cursor.size_advance_lt_of_bind hp
      (readExpr d.advance).andThen (by omega) fun value e he =>
        .ok (.assign op target value (target.span.upTo value.span)) e (by omega)
    | none => .ok target d hd
termination_by 32 * c.size + 14
decreasing_by
  · simp [Level.rank]
  · omega

/-- Reads operands of a level joined by its operators. -/
def readLevel (level : Level) (c : Cursor) : Outcome c Expr :=
  (readOperand level c).andThen (Cursor.size_le_self c) fun left d hd =>
    readOperators level left c d hd
termination_by 32 * c.size + 2 * level.rank + 3
decreasing_by
  · omega
  · omega

/-- Reads one operand of a level. -/
def readOperand (level : Level) (c : Cursor) : Outcome c Expr :=
  match ht : level.tighter? with
  | some tighter =>
    have := Level.rank_lt_of_tighter? ht
    readLevel tighter c
  | none => readSigned c
termination_by 32 * c.size + 2 * level.rank + 2
decreasing_by
  · omega
  · omega

/-- Reads on behind the operand `left` at `d` while operators of the level
follow. The whole expression started at `c`. -/
def readOperators (level : Level) (left : Expr) (c d : Cursor) (hd : d.size < c.size) :
    Outcome c Expr :=
  match hp : d.peek?.bind level.connective? with
  | some op =>
    have ha := Cursor.size_advance_lt_of_bind hp
    (readOperand level d.advance).andThen (by omega) fun right e he =>
      readOperators level (op.join left right) c e (by omega)
  | none => .ok left d hd
termination_by 32 * d.size
decreasing_by
  · have := level.rank_le
    omega
  · omega

/-- Reads a primary expression with the signs in front of it. -/
def readSigned (c : Cursor) : Outcome c Expr :=
  match hp : c.peek?.bind sign? with
  | some op =>
    have ha := Cursor.size_advance_lt_of_bind hp
    (readSigned c.advance).andThen (by omega) fun operand d hd =>
      .ok (.unary op operand (c.here.upTo operand.span)) d (by omega)
  | none => readPrimary c
termination_by 32 * c.size + 1
decreasing_by
  · omega
  · omega

/-- Reads a single token, a group or a list, and what is applied to it. -/
def readPrimary (c : Cursor) : Outcome c Expr :=
  match hp : c.peek? with
  | some .openParen =>
    have ha := Cursor.size_advance_lt hp
    (readExpr c.advance).andThen (by omega) fun inner d hd =>
      (expectCloseParen .group d).andThen (by omega) fun close e he =>
        readSuffixes (inner.withSpan (c.here.upTo close)) c e (by omega)
  | some .openBracket =>
    have ha := Cursor.size_advance_lt hp
    (readItems TokenKind.isCloseBracket .element c c.advance ha).andThen (Cursor.size_le_self c)
      fun items d hd =>
        (expectCloseBracket .items d).andThen (by omega) fun close e he =>
          readSuffixes (.list items (c.here.upTo close)) c e (by omega)
  | some kind =>
    match _hatom : atom? kind c.here with
    | some atom => readSuffixes atom c c.advance (Cursor.size_advance_lt hp)
    | none => .fail .noExpression c (Cursor.size_le_self c)
  | none => .fail .noExpression c (Cursor.size_le_self c)
termination_by 32 * c.size
decreasing_by
  · omega
  · omega
  · omega
  · omega
  · have := Cursor.size_advance_lt hp
    omega

/-- Reads on behind the expression `base` at `d` while calls, indices and
properties follow. The whole expression started at `c`. -/
def readSuffixes (base : Expr) (c d : Cursor) (hd : d.size < c.size) : Outcome c Expr :=
  match hp : d.peek? with
  | some .openParen =>
    have ha := Cursor.size_advance_lt hp
    (readItems TokenKind.isCloseParen .argument d d.advance ha).andThen (by omega)
      fun args e he =>
        (expectCloseParen .args e).andThen (by omega) fun close f hf =>
          readSuffixes (.call base args (base.span.upTo close)) c f (by omega)
  | some .openBracket =>
    have ha := Cursor.size_advance_lt hp
    (readExpr d.advance).andThen (by omega) fun index e he =>
      (expectCloseBracket .index e).andThen (by omega) fun close f hf =>
        readSuffixes (.index base index (base.span.upTo close)) c f (by omega)
  | some .dot =>
    have ha := Cursor.size_advance_lt hp
    (expectName .property d.advance).andThen (by omega) fun name e he =>
      readSuffixes (.property base name.1 (base.span.upTo name.2)) c e (by omega)
  | _ => .ok base d hd
termination_by 32 * d.size
decreasing_by
  · omega
  · omega
  · omega
  · omega
  · omega

/-- Reads the members of a comma list up to the token that closes it, which is
left. The list started at `c`. -/
def readItems (close : TokenKind → Bool) (role : ItemRole) (c d : Cursor) (hd : d.size < c.size) :
    Outcome c (List Expr) :=
  if d.peek?.any close then .ok [] d hd else readItemsFrom close role [] c d hd
termination_by 32 * d.size + 16
decreasing_by omega

/-- Reads one more member of a comma list, whose members so far `seen` holds in
reverse, and those behind it. -/
def readItemsFrom (close : TokenKind → Bool) (role : ItemRole) (seen : List Expr) (c d : Cursor)
    (hd : d.size < c.size) : Outcome c (List Expr) :=
  (readExpr d).andThen (by omega) fun item e he =>
    match hp : e.peek? with
    | some .comma =>
      have ha := Cursor.size_advance_lt hp
      readItemsFrom close role (item :: seen) c e.advance (by omega)
    | some kind =>
      if !close kind && startsExpression kind then
        .fail (.insertion (.itemComma role) e.here.start) e (by omega)
      else .ok (item :: seen).reverse e (by omega)
    | none => .ok (item :: seen).reverse e (by omega)
termination_by 32 * d.size + 15
decreasing_by
  · omega
  · omega

end

/-- Reads an expression that makes up the whole token stream. -/
def parseExpression (stream : TokenStream) : Except SyntaxError Expr :=
  match readExpr (.start stream) with
  | .ok value next _ =>
    if next.rest.isEmpty then .ok value else .error (next.error .trailingTokens)
  | .error e _ _ => .error e

end ScriptMachine
