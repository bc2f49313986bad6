import ScriptMachine.Program.Expression

/-! # Reading statements and programs

A statement or declaration that cannot be read is recorded as an error and
skipped, so that one reading reports every error of a file. Within a block,
reading resumes behind the next semicolon or in front of the next token that
starts or ends a statement; at top level, in front of the next keyword that
starts a declaration. Either way it has moved on, which is why reading ends. -/

namespace ScriptMachine

namespace TokenKind

def isSemicolon : TokenKind → Bool
  | .semicolon => true
  | _ => false

def isAssign : TokenKind → Bool
  | .assign => true
  | _ => false

def isOpenParen : TokenKind → Bool
  | .openParen => true
  | _ => false

def isOpenBrace : TokenKind → Bool
  | .openBrace => true
  | _ => false

def isCloseBrace : TokenKind → Bool
  | .closeBrace => true
  | _ => false

/-- Tokens in front of which a broken statement ends, and the semicolon, behind
which it ends. -/
def endsBrokenStmt : TokenKind → Bool
  | .semicolon | .closeBrace | .openBrace | .varKw | .ifKw | .returnKw | .printKw | .fnKw => true
  | _ => false

/-- Tokens in front of which a broken declaration ends. -/
def endsBrokenDecl : TokenKind → Bool
  | .fnKw | .varKw | .classKw | .importKw => true
  | _ => false

end TokenKind

/-! ## Resuming -/

/-- A cursor that has moved on from `start`: `stopped`, or one token further if
no token was read. -/
def movedOn (start stopped : Cursor) : Cursor :=
  if stopped.size = start.size then stopped.advance else stopped

theorem size_movedOn_lt {start stopped : Cursor} (h : 0 < start.size)
    (kept : stopped.size ≤ start.size) : (movedOn start stopped).size < start.size := by
  unfold movedOn
  split
  · rw [Cursor.size_advance]
    omega
  · omega

/-- Where reading resumes in a block after a statement that started at `start`
could not be read beyond `stopped`. -/
def resumeStmt (start stopped : Cursor) : Cursor :=
  let found := (movedOn start stopped).skipTo TokenKind.endsBrokenStmt
  if found.peek?.any TokenKind.isSemicolon then found.advance else found

theorem size_resumeStmt_lt {start stopped : Cursor} (h : 0 < start.size)
    (kept : stopped.size ≤ start.size) : (resumeStmt start stopped).size < start.size := by
  have moved := size_movedOn_lt h kept
  have found := Cursor.size_skipTo_le TokenKind.endsBrokenStmt (movedOn start stopped)
  unfold resumeStmt
  dsimp only
  split
  · rw [Cursor.size_advance]
    omega
  · omega

/-- Where reading resumes at top level. -/
def resumeDecl (start stopped : Cursor) : Cursor :=
  (movedOn start stopped).skipTo TokenKind.endsBrokenDecl

theorem size_resumeDecl_lt {start stopped : Cursor} (h : 0 < start.size)
    (kept : stopped.size ≤ start.size) : (resumeDecl start stopped).size < start.size :=
  Nat.lt_of_le_of_lt (Cursor.size_skipTo_le _ _) (size_movedOn_lt h kept)

/-! ## Statements without blocks -/

/-- Reads the semicolon behind a statement. -/
def expectSemicolon (c : Cursor) : Outcome c Span :=
  expect TokenKind.isSemicolon (.insertion .semicolon c.before) c

/-- Reads a variable declaration that started at `c`, from behind its
keyword. -/
def readVar (c d : Cursor) (hd : d.size < c.size) : Outcome c VarDecl :=
  (expectName .variable d).andThen (Cursor.size_le_of_lt hd) fun (name, nameSpan) e he =>
    have he := Cursor.size_lt_trans he hd
    if e.peek?.any TokenKind.isSemicolon then
      (expectSemicolon e).andThen (Cursor.size_le_of_lt he) fun stop f hf =>
        .ok { name, nameSpan, init := none, span := c.here.upTo stop } f
          (Cursor.size_lt_trans hf he)
    else
      (expect TokenKind.isAssign (.landmark .initializer) e).andThen (Cursor.size_le_of_lt he)
        fun _ f hf =>
        have hf := Cursor.size_lt_trans hf he
        (readExpr f).andThen (Cursor.size_le_of_lt hf) fun init g hg =>
          have hg := Cursor.size_lt_trans hg hf
          (expectSemicolon g).andThen (Cursor.size_le_of_lt hg) fun stop k hk =>
            .ok { name, nameSpan, init := some init, span := c.here.upTo stop } k
              (Cursor.size_lt_trans hk hg)

/-- Reads a return statement that started at `c`, from behind its keyword. -/
def readReturn (c d : Cursor) (hd : d.size < c.size) : Outcome c Stmt :=
  if d.peek?.any TokenKind.isSemicolon then
    (expectSemicolon d).andThen (Cursor.size_le_of_lt hd) fun stop e he =>
      .ok (.ret none (c.here.upTo stop)) e (Cursor.size_lt_trans he hd)
  else
    (readExpr d).andThen (Cursor.size_le_of_lt hd) fun value e he =>
      have he := Cursor.size_lt_trans he hd
      (expectSemicolon e).andThen (Cursor.size_le_of_lt he) fun stop f hf =>
        .ok (.ret (some value) (c.here.upTo stop)) f (Cursor.size_lt_trans hf he)

/-- Reads a print statement that started at `c`, from behind its keyword. -/
def readPrint (c d : Cursor) (hd : d.size < c.size) : Outcome c Stmt :=
  (readExpr d).andThen (Cursor.size_le_of_lt hd) fun value e he =>
    have he := Cursor.size_lt_trans he hd
    (expectSemicolon e).andThen (Cursor.size_le_of_lt he) fun stop f hf =>
      .ok (.print value (c.here.upTo stop)) f (Cursor.size_lt_trans hf he)

/-- Reads an expression as a statement. -/
def readExprStmt (c : Cursor) : Outcome c Stmt :=
  (readExpr c).andThen (Cursor.size_le_self c) fun value d hd =>
    (expectSemicolon d).andThen (Cursor.size_le_of_lt hd) fun stop e he =>
      .ok (.expr value (value.span.upTo stop)) e (Cursor.size_lt_trans he hd)

/-- Reads one more parameter, where `seen` holds those before it in reverse,
and the parameters behind it. The declaration started at `c`. -/
def readParamsFrom (seen : List Param) (c d : Cursor) (hd : d.size < c.size) :
    Outcome c (List Param) :=
  (expectName .parameter d).andThen (by omega) fun (name, span) e he =>
    match hp : e.peek? with
    | some .comma =>
      have ha := Cursor.size_advance_lt hp
      readParamsFrom ({ name, span } :: seen) c e.advance (by omega)
    | some (.name _) => .fail (.insertion .paramComma e.here.start) e (by omega)
    | _ => .ok ({ name, span } :: seen : List Param).reverse e (by omega)
termination_by d.size
decreasing_by omega

/-- Reads the parameters of a function up to the closing parenthesis. -/
def readParams (c d : Cursor) (hd : d.size < c.size) : Outcome c (List Param) :=
  if d.peek?.any TokenKind.isCloseParen then .ok [] d hd else readParamsFrom [] c d hd

/-! ## Statements with blocks -/

/-- An outcome together with all errors recorded so far. -/
structure Recovered (c : Cursor) (α : Type) where
  errors : Array SyntaxError
  outcome : Outcome c α

/-- Goes on behind a value that was read from `d`, a cursor reached from
`c`. -/
@[inline]
def Recovered.andThen {c d : Cursor} {α β : Type} (x : Recovered d α) (h : d.size ≤ c.size)
    (f : Array SyntaxError → α → (e : Cursor) → e.size < d.size → Recovered c β) :
    Recovered c β :=
  match x with
  | ⟨errors, .ok value next read⟩ => f errors value next read
  | ⟨errors, .error e stopped kept⟩ => ⟨errors, .error e stopped (Cursor.size_le_trans kept h)⟩

/-- The statements of a block, up to its end, which is left. -/
structure BlockBody (c : Cursor) where
  errors : Array SyntaxError
  stmts : List Stmt
  next : Cursor
  read : next.size < c.size

mutual

/-- Reads a block. -/
def readBlock (errors : Array SyntaxError) (c : Cursor) : Recovered c (Block Stmt) :=
  (Recovered.mk errors (expect TokenKind.isOpenBrace (.landmark .openBlock) c)).andThen
    (Nat.le_refl _) fun errors start d hd =>
      let body := readStmts errors [] c d hd
      have hb := body.read
      (Recovered.mk body.errors
        (expect TokenKind.isCloseBrace (.landmark .closeBlock) body.next)).andThen (by omega)
        fun errors stop e he => ⟨errors, .ok ⟨body.stmts, start.upTo stop⟩ e (by omega)⟩
termination_by 8 * c.size + 1
decreasing_by omega

/-- Reads statements up to the end of a block that started at `c`. Behind a
statement that cannot be read, and behind a function, which has no place here,
it goes on. -/
def readStmts (errors : Array SyntaxError) (seen : List Stmt) (c d : Cursor)
    (hd : d.size < c.size) : BlockBody c :=
  match hp : d.peek? with
  | none | some .closeBrace => ⟨errors, seen.reverse, d, hd⟩
  | some .fnKw =>
    have ha := Cursor.size_advance_lt hp
    match readFn errors d d.advance ha with
    | ⟨errors, .ok decl e he⟩ =>
      readStmts (errors.push ⟨.nestedFunction, decl.nameSpan⟩) seen c e (by omega)
    | ⟨errors, .error error stopped kept⟩ =>
      have hr := size_resumeStmt_lt (Cursor.size_pos hp) kept
      readStmts (errors.push error) seen c (resumeStmt d stopped) (by omega)
  | some _ =>
    match readStmt errors d with
    | ⟨errors, .ok stmt e he⟩ => readStmts errors (stmt :: seen) c e (by omega)
    | ⟨errors, .error error stopped kept⟩ =>
      have hr := size_resumeStmt_lt (Cursor.size_pos hp) kept
      readStmts (errors.push error) seen c (resumeStmt d stopped) (by omega)
termination_by 8 * d.size + 3
decreasing_by
  · omega
  · omega
  · omega
  · omega
  · omega
  · omega

/-- Reads a statement. -/
def readStmt (errors : Array SyntaxError) (c : Cursor) : Recovered c Stmt :=
  match hp : c.peek? with
  | some .openBrace =>
    (readBlock errors c).andThen (Nat.le_refl _) fun errors body d hd =>
      ⟨errors, .ok (.block body) d hd⟩
  | some .ifKw =>
    have ha := Cursor.size_advance_lt hp
    readIf errors c c.advance ha
  | some .varKw =>
    (Recovered.mk errors (readVar c c.advance (Cursor.size_advance_lt hp))).andThen
      (Nat.le_refl _) fun errors decl d hd => ⟨errors, .ok (.var decl) d hd⟩
  | some .returnKw => ⟨errors, readReturn c c.advance (Cursor.size_advance_lt hp)⟩
  | some .printKw => ⟨errors, readPrint c c.advance (Cursor.size_advance_lt hp)⟩
  | _ => ⟨errors, readExprStmt c⟩
termination_by 8 * c.size + 2
decreasing_by
  · omega
  · omega

/-- Reads a conditional that started at `c`, from behind its keyword. A
conditional behind `else` makes up a block of its own. -/
def readIf (errors : Array SyntaxError) (c d : Cursor) (hd : d.size < c.size) :
    Recovered c Stmt :=
  (Recovered.mk errors (expect TokenKind.isOpenParen (.landmark .openTest) d)).andThen
    (by omega) fun errors _ e he =>
  (Recovered.mk errors (readExpr e)).andThen (by omega) fun errors test f hf =>
  (Recovered.mk errors (expectCloseParen .test f)).andThen (by omega) fun errors _ g hg =>
  (readBlock errors g).andThen (by omega) fun errors thenBlock h hh =>
    match hp : h.peek? with
    | some .elseKw =>
      have ha := Cursor.size_advance_lt hp
      match hq : h.advance.peek? with
      | some .ifKw =>
        have hb := Cursor.size_advance_lt hq
        (readIf errors h.advance h.advance.advance hb).andThen (by omega) fun errors nested i hi =>
          ⟨errors, .ok (.cond test thenBlock (some ⟨[nested], nested.span⟩)
            (c.here.upTo nested.span)) i (by omega)⟩
      | _ =>
        (readBlock errors h.advance).andThen (by omega) fun errors elseBlock i hi =>
          ⟨errors, .ok (.cond test thenBlock (some elseBlock) (c.here.upTo elseBlock.span)) i
            (by omega)⟩
    | _ => ⟨errors, .ok (.cond test thenBlock none (c.here.upTo thenBlock.span)) h (by omega)⟩
termination_by 8 * d.size
decreasing_by
  · omega
  · omega
  · omega

/-- Reads a function that started at `c`, from behind its keyword. -/
def readFn (errors : Array SyntaxError) (c d : Cursor) (hd : d.size < c.size) :
    Recovered c FnDecl :=
  (Recovered.mk errors (expectName .function d)).andThen (by omega) fun errors name e he =>
  (Recovered.mk errors (expect TokenKind.isOpenParen (.landmark .openParams) e)).andThen
    (by omega) fun errors _ f hf =>
  (Recovered.mk errors (readParams e f hf)).andThen (by omega) fun errors params g hg =>
  (Recovered.mk errors (expect TokenKind.isCloseParen (.landmark .closeParams) g)).andThen
    (by omega) fun errors _ h hh =>
  (readBlock errors h).andThen (by omega) fun errors body i hi =>
    ⟨errors, .ok
      { name := name.1, nameSpan := name.2, params, body, span := c.here.upTo body.span } i
      (by omega)⟩
termination_by 8 * d.size
decreasing_by omega

end

/-! ## Programs -/

/-- Reads declarations to the end, where `seen` holds those before in reverse.
The result is a program, or all errors if there are any. -/
def readDecls (errors : Array SyntaxError) (seen : List Decl) (c : Cursor) :
    Except (List SyntaxError) Program :=
  match hp : c.peek? with
  | none => if errors.isEmpty then .ok ⟨seen.reverse⟩ else .error errors.toList
  | some kind =>
    have ha := Cursor.size_advance_lt hp
    have := size_resumeDecl_lt (Cursor.size_pos hp) (Nat.le_refl c.size)
    match kind with
    | .fnKw =>
      match readFn errors c c.advance ha with
      | ⟨errors, .ok decl d _⟩ => readDecls errors (.fn decl :: seen) d
      | ⟨errors, .error error stopped kept⟩ =>
        have := size_resumeDecl_lt (Cursor.size_pos hp) kept
        readDecls (errors.push error) seen (resumeDecl c stopped)
    | .varKw =>
      match readVar c c.advance ha with
      | .ok decl d _ => readDecls errors (.var decl :: seen) d
      | .error error stopped kept =>
        have := size_resumeDecl_lt (Cursor.size_pos hp) kept
        readDecls (errors.push error) seen (resumeDecl c stopped)
    | .classKw => readDecls (errors.push (c.error .classes)) seen (resumeDecl c c)
    | .importKw => readDecls (errors.push (c.error .imports)) seen (resumeDecl c c)
    | _ => readDecls (errors.push (c.error .topLevel)) seen (resumeDecl c c)
termination_by c.size

/-- Reads a whole file. -/
def parse (stream : TokenStream) : Except (List SyntaxError) Program :=
  readDecls #[] [] (.start stream)

end ScriptMachine
