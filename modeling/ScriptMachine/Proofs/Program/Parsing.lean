import ScriptMachine.Program.Statement
import ScriptMachine.Proofs.Program.Reading

/-!
# Parsing follows the grammar

A block is read on behind a statement that is broken, so a reader can return a
value although it recorded errors. A reading is *clean* if none were recorded, and
clean readings are those of the grammar: what is read cleanly is a statement of it
(`stmt_readers_sound`), and a statement of it is read cleanly (`Grammar.IsStmt.read`).
As errors stay recorded to the end, whole files that are accepted are the programs
of the grammar (`parse_iff`).
-/

namespace ScriptMachine

open Grammar

/-! ## Clean readings -/

namespace Recovered

variable {c d : Cursor} {α β : Type} {errors : Array SyntaxError}

/-- Errors recorded before are still there. -/
def Keeps (errors : Array SyntaxError) (x : Recovered c α) : Prop :=
  x.errors = #[] → errors = #[]

/-- No errors are recorded, and the value is read with the tokens `rest` behind it. -/
def Reads (x : Recovered c α) (value : α) (rest : List Token) : Prop :=
  x.errors = #[] ∧ x.outcome.Gives value rest

theorem keeps_mk {outcome : Outcome c α} : Keeps errors ⟨errors, outcome⟩ := id

theorem Keeps.andThen {x : Recovered d α} {h : d.size ≤ c.size}
    {f : Array SyntaxError → α → (e : Cursor) → e.size < d.size → Recovered c β}
    (hx : x.Keeps errors) (hf : ∀ a e he, (f x.errors a e he).Keeps x.errors) :
    (x.andThen h f).Keeps errors := by
  obtain ⟨recorded, outcome⟩ := x
  cases outcome with
  | ok a e he => exact fun hclean => hx (hf a e he hclean)
  | error error stopped kept => exact hx

theorem andThen_reads {x : Recovered d α} {h : d.size ≤ c.size}
    {f : Array SyntaxError → α → (e : Cursor) → e.size < d.size → Recovered c β} {value : β}
    {rest : List Token} (hreads : (x.andThen h f).Reads value rest) :
    ∃ recorded a e he, x = ⟨recorded, .ok a e he⟩ ∧ (f recorded a e he).Reads value rest := by
  obtain ⟨recorded, outcome⟩ := x
  cases outcome with
  | ok a e he => exact ⟨recorded, a, e, he, rfl, hreads⟩
  | error error stopped kept =>
    obtain ⟨_, _, _, heq, _⟩ := hreads
    cases heq

theorem mk_andThen_reads {outcome : Outcome d α} {h : d.size ≤ c.size}
    {f : Array SyntaxError → α → (e : Cursor) → e.size < d.size → Recovered c β} {value : β}
    {rest : List Token}
    (hreads : ((⟨errors, outcome⟩ : Recovered d α).andThen h f).Reads value rest) :
    ∃ a e he, outcome = .ok a e he ∧ (f errors a e he).Reads value rest := by
  obtain ⟨recorded, a, e, he, heq, h⟩ := andThen_reads hreads
  cases heq
  exact ⟨a, e, he, rfl, h⟩

/-- Goes on behind a value that is read cleanly. -/
theorem Reads.andThen {x : Recovered d α} {h : d.size ≤ c.size}
    {f : Array SyntaxError → α → (e : Cursor) → e.size < d.size → Recovered c β} {a : α}
    {value : β} {rest rest' : List Token} (hx : x.Reads a rest)
    (hf : ∀ e he, e.rest = rest → (f #[] a e he).Reads value rest') :
    (x.andThen h f).Reads value rest' := by
  obtain ⟨recorded, outcome⟩ := x
  obtain ⟨rfl, e, he, rfl, hrest⟩ := hx
  exact hf e he hrest

theorem reads_ok_iff {value value' : α} {next : Cursor} {read : next.size < c.size}
    {rest : List Token} :
    (⟨#[], .ok value next read⟩ : Recovered c α).Reads value' rest ↔
      value = value' ∧ next.rest = rest := by
  rw [Reads, Outcome.gives_ok_iff]
  exact and_iff_right rfl

theorem Reads.eq_ok {x : Recovered c α} {value : α} {rest : List Token} (h : x.Reads value rest) :
    ∃ next read, x = ⟨#[], .ok value next read⟩ ∧ next.rest = rest := by
  obtain ⟨recorded, outcome⟩ := x
  obtain ⟨rfl, next, read, rfl, hrest⟩ := h
  exact ⟨next, read, rfl, hrest⟩

theorem reads_mk {outcome : Outcome c α} {value : α} {rest : List Token}
    (h : outcome.Gives value rest) : (⟨#[], outcome⟩ : Recovered c α).Reads value rest :=
  ⟨rfl, h⟩

end Recovered

/-! ## Tokens and statements without blocks -/

namespace Grammar

theorem eq_semicolon {kind : TokenKind} (h : kind.isSemicolon = true) : kind = .semicolon := by
  cases kind <;> cases h
  rfl

theorem eq_assign {kind : TokenKind} (h : kind.isAssign = true) : kind = .assign := by
  cases kind <;> cases h
  rfl

theorem eq_openParen {kind : TokenKind} (h : kind.isOpenParen = true) : kind = .openParen := by
  cases kind <;> cases h
  rfl

theorem eq_openBrace {kind : TokenKind} (h : kind.isOpenBrace = true) : kind = .openBrace := by
  cases kind <;> cases h
  rfl

theorem eq_closeBrace {kind : TokenKind} (h : kind.isCloseBrace = true) : kind = .closeBrace := by
  cases kind <;> cases h
  rfl

end Grammar

section Tokens

variable {c d : Cursor} {hd : d.size < c.size} {span : Span} {next : Cursor}
  {read : next.size < c.size} {fault : SyntaxFault} {rest : List Token}

theorem expectSemicolon_sound (h : expectSemicolon c = .ok span next read) :
    c.rest = ⟨.semicolon, span⟩ :: next.rest := by
  obtain ⟨kind, hkind, hrest⟩ := expect_sound h
  rwa [eq_semicolon hkind] at hrest

theorem expectSemicolon_gives (h : c.rest = ⟨.semicolon, span⟩ :: rest) :
    (expectSemicolon c).Gives span rest :=
  expect_gives h rfl

/-- Behind the keyword, `d` stands. -/
theorem readVar_sound {decl : VarDecl} (hpeek : c.peek? = some .varKw) (hadvance : d = c.advance)
    (h : (readVar c d hd).Gives decl rest) : ∃ ts, c.rest = ts ++ rest ∧ IsVar ts decl := by
  subst hadvance
  obtain ⟨⟨name, nameSpan⟩, e, he, hname, h⟩ := Outcome.andThen_gives_iff.1 h
  have hstart := c.rest_of_peek? hpeek
  rw [expectName_sound hname] at hstart
  dsimp only at h hstart
  split at h
  · obtain ⟨stop, f, hf, hstop, h⟩ := Outcome.andThen_gives_iff.1 h
    obtain ⟨rfl, rfl⟩ := Outcome.gives_ok_iff.1 h
    rw [expectSemicolon_sound hstop] at hstart
    exact ⟨_, hstart, .plain⟩
  · obtain ⟨mark, f, hf, hassign, h⟩ := Outcome.andThen_gives_iff.1 h
    obtain ⟨init, g, hg, hinit, h⟩ := Outcome.andThen_gives_iff.1 h
    obtain ⟨stop, k, hk, hstop, h⟩ := Outcome.andThen_gives_iff.1 h
    obtain ⟨rfl, rfl⟩ := Outcome.gives_ok_iff.1 h
    obtain ⟨kind, hkind, hrest⟩ := expect_sound hassign
    obtain rfl := eq_assign hkind
    obtain ⟨ts, hts, hinit⟩ := readExpr_sound hinit
    have hall : c.rest = ⟨.varKw, c.here⟩ :: ⟨.name name, nameSpan⟩ :: ⟨.assign, mark⟩ :: ts ++
        [⟨.semicolon, stop⟩] ++ k.rest := by
      rw [hstart, hrest, hts, expectSemicolon_sound hstop]
      simp
    exact ⟨_, hall, .init hinit⟩

theorem readReturn_sound {stmt : Stmt} (hpeek : c.peek? = some .returnKw)
    (hadvance : d = c.advance) (h : (readReturn c d hd).Gives stmt rest) :
    ∃ ts, c.rest = ts ++ rest ∧ IsStmt ts stmt := by
  subst hadvance
  have hstart := c.rest_of_peek? hpeek
  unfold readReturn at h
  split at h
  · obtain ⟨stop, e, he, hstop, h⟩ := Outcome.andThen_gives_iff.1 h
    obtain ⟨rfl, rfl⟩ := Outcome.gives_ok_iff.1 h
    rw [expectSemicolon_sound hstop] at hstart
    exact ⟨_, hstart, .ret⟩
  · obtain ⟨value, e, he, hvalue, h⟩ := Outcome.andThen_gives_iff.1 h
    obtain ⟨stop, f, hf, hstop, h⟩ := Outcome.andThen_gives_iff.1 h
    obtain ⟨rfl, rfl⟩ := Outcome.gives_ok_iff.1 h
    obtain ⟨ts, hts, hvalue⟩ := readExpr_sound hvalue
    refine ⟨_, ?_, .retValue hvalue⟩
    rw [hstart, hts, expectSemicolon_sound hstop]
    simp

theorem readPrint_sound {stmt : Stmt} (hpeek : c.peek? = some .printKw)
    (hadvance : d = c.advance) (h : (readPrint c d hd).Gives stmt rest) :
    ∃ ts, c.rest = ts ++ rest ∧ IsStmt ts stmt := by
  subst hadvance
  obtain ⟨value, e, he, hvalue, h⟩ := Outcome.andThen_gives_iff.1 h
  obtain ⟨stop, f, hf, hstop, h⟩ := Outcome.andThen_gives_iff.1 h
  obtain ⟨rfl, rfl⟩ := Outcome.gives_ok_iff.1 h
  obtain ⟨ts, hts, hvalue⟩ := readExpr_sound hvalue
  refine ⟨_, ?_, .print hvalue⟩
  rw [c.rest_of_peek? hpeek, hts, expectSemicolon_sound hstop]
  simp

theorem readExprStmt_sound {stmt : Stmt} (h : (readExprStmt c).Gives stmt rest) :
    ∃ ts, c.rest = ts ++ rest ∧ IsStmt ts stmt := by
  obtain ⟨value, e, he, hvalue, h⟩ := Outcome.andThen_gives_iff.1 h
  obtain ⟨stop, f, hf, hstop, h⟩ := Outcome.andThen_gives_iff.1 h
  obtain ⟨rfl, rfl⟩ := Outcome.gives_ok_iff.1 h
  obtain ⟨ts, hts, hvalue⟩ := readExpr_sound hvalue
  refine ⟨_, ?_, .expr hvalue⟩
  rw [hts, expectSemicolon_sound hstop]
  simp

theorem readParamsFrom_sound (seen : List Param) (c d : Cursor) (hd : d.size < c.size) :
    ∀ params rest, (readParamsFrom seen c d hd).Gives params rest →
      ∃ ts new, d.rest = ts ++ rest ∧ IsParamsFrom ts new ∧ params = seen.reverse ++ new := by
  induction seen, d, hd using readParamsFrom.induct with
  | case1 seen d hd ih =>
    intro params rest h
    rw [readParamsFrom, Outcome.andThen_gives_iff] at h
    obtain ⟨⟨name, span⟩, e, he, hname, h⟩ := h
    have hstart := expectName_sound hname
    dsimp only at h
    split at h
    · next hcomma =>
      obtain ⟨ts, new, hts, hnew, rfl⟩ := ih e he name span hcomma _ _ h
      refine ⟨⟨.name name, span⟩ :: ⟨.comma, e.here⟩ :: ts, { name, span } :: new, ?_, .cons hnew,
        by simp⟩
      rw [hstart, e.rest_of_peek? hcomma, hts]
      rfl
    · exact absurd h Outcome.not_gives_fail
    · obtain ⟨rfl, rfl⟩ := Outcome.gives_ok_iff.1 h
      exact ⟨_, [{ name, span }], hstart, .last, by simp⟩

theorem readParams_sound {params : List Param} (h : (readParams c d hd).Gives params rest) :
    ∃ ts, d.rest = ts ++ rest ∧ IsParams ts params := by
  unfold readParams at h
  split at h
  · obtain ⟨rfl, rfl⟩ := Outcome.gives_ok_iff.1 h
    exact ⟨[], rfl, .none⟩
  · obtain ⟨ts, new, hts, hnew, rfl⟩ := readParamsFrom_sound [] c d hd _ _ h
    exact ⟨ts, hts, .some hnew⟩

end Tokens

/-! ## The ways on through a block -/

section Stmts

variable {errors recorded : Array SyntaxError} {seen : List Stmt} {c d : Cursor}
  {hd : d.size < c.size}

theorem readStmts_close (hpeek : d.peek? = none ∨ d.peek? = some .closeBrace) :
    readStmts errors seen c d hd = ⟨errors, seen.reverse, d, hd⟩ := by
  rw [readStmts]
  split <;> simp_all

theorem readStmts_fn {ha : d.advance.size < d.size} {decl : FnDecl} {e : Cursor}
    {he : e.size < d.size} (hpeek : d.peek? = some .fnKw)
    (hread : readFn errors d d.advance ha = ⟨recorded, .ok decl e he⟩) :
    readStmts errors seen c d hd =
      readStmts (recorded.push ⟨.nestedFunction, decl.nameSpan⟩) seen c e
        (Cursor.size_lt_trans he hd) := by
  rw [readStmts]
  split
  · simp_all
  · simp_all
  · dsimp only
    rw [hread]
  · simp_all

theorem readStmts_brokenFn {ha : d.advance.size < d.size} {error : SyntaxError} {stopped : Cursor}
    {kept : stopped.size ≤ d.size} (hresume : (resumeStmt d stopped).size < c.size)
    (hpeek : d.peek? = some .fnKw)
    (hread : readFn errors d d.advance ha = ⟨recorded, .error error stopped kept⟩) :
    readStmts errors seen c d hd =
      readStmts (recorded.push error) seen c (resumeStmt d stopped) hresume := by
  rw [readStmts]
  split
  · simp_all
  · simp_all
  · dsimp only
    rw [hread]
  · simp_all

theorem readStmts_stmt {kind : TokenKind} {stmt : Stmt} {e : Cursor} {he : e.size < d.size}
    (hpeek : d.peek? = some kind) (hclose : kind ≠ .closeBrace) (hfn : kind ≠ .fnKw)
    (hread : readStmt errors d = ⟨recorded, .ok stmt e he⟩) :
    readStmts errors seen c d hd =
      readStmts recorded (stmt :: seen) c e (Cursor.size_lt_trans he hd) := by
  rw [readStmts]
  split
  · simp_all
  · simp_all
  · simp_all
  · rw [hread]

theorem readStmts_brokenStmt {kind : TokenKind} {error : SyntaxError} {stopped : Cursor}
    {kept : stopped.size ≤ d.size} (hresume : (resumeStmt d stopped).size < c.size)
    (hpeek : d.peek? = some kind) (hclose : kind ≠ .closeBrace) (hfn : kind ≠ .fnKw)
    (hread : readStmt errors d = ⟨recorded, .error error stopped kept⟩) :
    readStmts errors seen c d hd =
      readStmts (recorded.push error) seen c (resumeStmt d stopped) hresume := by
  rw [readStmts]
  split
  · simp_all
  · simp_all
  · simp_all
  · rw [hread]

theorem readStmt_openBrace (h : c.peek? = some .openBrace) :
    readStmt errors c = (readBlock errors c).andThen (Nat.le_refl _) fun errors body d hd =>
      ⟨errors, .ok (.block body) d hd⟩ := by
  rw [readStmt]
  split <;> simp_all

theorem readStmt_ifKw (ha : c.advance.size < c.size) (h : c.peek? = some .ifKw) :
    readStmt errors c = readIf errors c c.advance ha := by
  rw [readStmt]
  split <;> simp_all

theorem readStmt_varKw (ha : c.advance.size < c.size) (h : c.peek? = some .varKw) :
    readStmt errors c =
      (Recovered.mk errors (readVar c c.advance ha)).andThen
        (Nat.le_refl _) fun errors decl d hd => ⟨errors, .ok (.var decl) d hd⟩ := by
  rw [readStmt]
  split <;> simp_all

theorem readStmt_returnKw (ha : c.advance.size < c.size) (h : c.peek? = some .returnKw) :
    readStmt errors c = ⟨errors, readReturn c c.advance ha⟩ := by
  rw [readStmt]
  split <;> simp_all

theorem readStmt_printKw (ha : c.advance.size < c.size) (h : c.peek? = some .printKw) :
    readStmt errors c = ⟨errors, readPrint c c.advance ha⟩ := by
  rw [readStmt]
  split <;> simp_all

theorem readStmt_expr {kind : TokenKind} (h : c.peek? = some kind)
    (hkind : startsExpression kind = true) : readStmt errors c = ⟨errors, readExprStmt c⟩ := by
  rw [readStmt]
  split
  case h_6 => rfl
  all_goals
    next hpeek =>
      obtain rfl := Option.some.inj (h.symm.trans hpeek)
      cases hkind

end Stmts

/-! ## What is read cleanly is a statement -/

/-- No reader loses the errors recorded before it. -/
theorem readers_keep :
    (∀ errors c, (readBlock errors c).Keeps errors) ∧
      (∀ errors seen c d hd, (readStmts errors seen c d hd).errors = #[] → errors = #[]) ∧
      (∀ errors c, (readStmt errors c).Keeps errors) ∧
      (∀ errors c d hd, (readIf errors c d hd).Keeps errors) ∧
      ∀ errors c d hd, (readFn errors c d hd).Keeps errors := by
  refine readBlock.mutual_induct (fun errors c => (readBlock errors c).Keeps errors)
    (fun errors seen c d hd => (readStmts errors seen c d hd).errors = #[] → errors = #[])
    (fun errors c => (readStmt errors c).Keeps errors)
    (fun errors c d hd => (readIf errors c d hd).Keeps errors)
    (fun errors c d hd => (readFn errors c d hd).Keeps errors)
    ?block ?none ?close ?fn ?brokenFn ?stmt ?brokenStmt ?nested ?ifStmt ?var ?ret ?print ?expr
    ?cond ?decl
  case block =>
    intro errors c hstmts
    rw [readBlock]
    refine Recovered.keeps_mk.andThen fun start d hd hclean => hstmts errors d hd ?_
    exact Recovered.keeps_mk.andThen (fun _ _ _ => Recovered.keeps_mk) hclean
  case none | close =>
    intro errors seen c d hd hpeek hclean
    rwa [readStmts_close (by simp [hpeek])] at hclean
  case fn =>
    intro errors seen c d hd hpeek ha recorded decl e he hread hfn hmore hclean
    rw [readStmts_fn hpeek hread] at hclean
    exact absurd (hmore hclean) (by simp)
  case brokenFn =>
    intro errors seen c d hd hpeek ha recorded error stopped kept hread hr hfn hmore hclean
    rw [readStmts_brokenFn (Nat.lt_trans hr hd) hpeek hread] at hclean
    exact absurd (hmore hclean) (by simp)
  case stmt =>
    intro errors seen c d hd kind hclose hfn hpeek recorded stmt e he hread hstmt hmore hclean
    rw [readStmts_stmt hpeek hclose hfn hread] at hclean
    rw [hread] at hstmt
    exact hstmt (hmore hclean)
  case brokenStmt =>
    intro errors seen c d hd kind hclose hfn hpeek recorded error stopped kept hread hr hstmt
      hmore hclean
    rw [readStmts_brokenStmt (Nat.lt_trans hr hd) hpeek hclose hfn hread] at hclean
    exact absurd (hmore hclean) (by simp)
  case nested =>
    intro errors c hpeek hblock
    rw [readStmt_openBrace hpeek]
    exact hblock.andThen fun _ _ _ => Recovered.keeps_mk
  case ifStmt =>
    intro errors c hpeek ha hif
    rwa [readStmt_ifKw (Cursor.size_advance_lt hpeek) hpeek]
  case var | ret | print | expr =>
    intros
    rw [readStmt]
    split
    · simp_all
    · simp_all
    · exact Recovered.keeps_mk.andThen fun _ _ _ => Recovered.keeps_mk
    all_goals exact Recovered.keeps_mk
  case cond =>
    intro errors c d hd hblock hif helse
    rw [readIf]
    refine Recovered.keeps_mk.andThen fun _ e he => ?_
    refine Recovered.keeps_mk.andThen fun test f hf => ?_
    refine Recovered.keeps_mk.andThen fun _ g hg => ?_
    refine (hblock e he f hf errors g hg).andThen fun body h hh => ?_
    split
    · next hp =>
      split
      · next hq =>
        exact (hif e he f hf g hg _ h hh hp hq).andThen fun _ _ _ => Recovered.keeps_mk
      · exact (helse e he f hf g hg _ h hh hp).andThen fun _ _ _ => Recovered.keeps_mk
    · exact Recovered.keeps_mk
  case decl =>
    intro errors c d hd hblock
    rw [readFn]
    refine Recovered.keeps_mk.andThen fun name e he => ?_
    refine Recovered.keeps_mk.andThen fun _ f hf => ?_
    refine Recovered.keeps_mk.andThen fun params g hg => ?_
    refine Recovered.keeps_mk.andThen fun _ h hh => ?_
    exact (hblock e he f g hg errors h hh).andThen fun _ _ _ => Recovered.keeps_mk

/-- What `readBlock` reads cleanly is a block. -/
def BlockSound (errors : Array SyntaxError) (c : Cursor) : Prop :=
  ∀ body rest, (readBlock errors c).Reads body rest → ∃ ts, c.rest = ts ++ rest ∧ IsBlock ts body

/-- Statements that are read cleanly come behind those that were seen. -/
def StmtsSound (errors : Array SyntaxError) (seen : List Stmt) (c d : Cursor)
    (hd : d.size < c.size) : Prop :=
  (readStmts errors seen c d hd).errors = #[] → ∃ ts new,
    d.rest = ts ++ (readStmts errors seen c d hd).next.rest ∧ IsStmts ts new ∧
      (readStmts errors seen c d hd).stmts = seen.reverse ++ new

def StmtSound (errors : Array SyntaxError) (c : Cursor) : Prop :=
  ∀ stmt rest, (readStmt errors c).Reads stmt rest → ∃ ts, c.rest = ts ++ rest ∧ IsStmt ts stmt

/-- What `readIf` reads cleanly behind its keyword is a conditional together with it. -/
def IfSound (errors : Array SyntaxError) (c d : Cursor) (hd : d.size < c.size) : Prop :=
  c.peek? = some .ifKw → d = c.advance → ∀ stmt rest, (readIf errors c d hd).Reads stmt rest →
    ∃ ts, c.rest = ts ++ rest ∧ IsIf ts stmt

def FnSound (errors : Array SyntaxError) (c d : Cursor) (hd : d.size < c.size) : Prop :=
  c.peek? = some .fnKw → d = c.advance → ∀ decl rest, (readFn errors c d hd).Reads decl rest →
    ∃ ts, c.rest = ts ++ rest ∧ IsFn ts decl

section Sound

variable {errors : Array SyntaxError} {c d : Cursor} {hd : d.size < c.size}

theorem BlockSound.of (hstmts : ∀ errors d hd, StmtsSound errors [] c d hd) :
    BlockSound errors c := by
  intro body rest h
  rw [readBlock] at h
  obtain ⟨start, d, hd, hopen, h⟩ := Recovered.mk_andThen_reads h
  obtain ⟨stop, e, he, hclose, hclean, h⟩ := Recovered.mk_andThen_reads h
  obtain ⟨rfl, rfl⟩ := Outcome.gives_ok_iff.1 h
  obtain ⟨ts, new, hts, hnew, hstmts⟩ := hstmts errors d hd hclean
  obtain ⟨kind, hkind, hstart⟩ := expect_sound hopen
  obtain rfl := eq_openBrace hkind
  obtain ⟨kind, hkind, hrest⟩ := expect_sound hclose
  obtain rfl := eq_closeBrace hkind
  rw [hstmts]
  refine ⟨⟨.openBrace, start⟩ :: ts ++ [⟨.closeBrace, stop⟩], ?_, .braces hnew⟩
  rw [hstart, hts, hrest]
  simp

theorem StmtsSound.close {seen : List Stmt} (hpeek : d.peek? = none ∨ d.peek? = some .closeBrace) :
    StmtsSound errors seen c d hd := by
  intro _
  rw [readStmts_close hpeek]
  exact ⟨[], [], rfl, .nil, by simp⟩

theorem StmtsSound.broken {seen : List Stmt} {recorded : Array SyntaxError} {error : SyntaxError}
    {e : Cursor} {he : e.size < c.size}
    (heq : readStmts errors seen c d hd = readStmts (recorded.push error) seen c e he) :
    StmtsSound errors seen c d hd := by
  intro hclean
  rw [heq] at hclean
  exact absurd (readers_keep.2.1 _ _ _ _ _ hclean) (by simp)

theorem StmtsSound.stmt {seen : List Stmt} {recorded : Array SyntaxError} {stmt : Stmt}
    {e : Cursor} {he : e.size < d.size} {hec : e.size < c.size}
    (heq : readStmts errors seen c d hd = readStmts recorded (stmt :: seen) c e hec)
    (hread : readStmt errors d = ⟨recorded, .ok stmt e he⟩) (hstmt : StmtSound errors d)
    (hmore : StmtsSound recorded (stmt :: seen) c e hec) : StmtsSound errors seen c d hd := by
  intro hclean
  rw [heq] at hclean ⊢
  obtain ⟨us, new, hus, hnew, hstmts⟩ := hmore hclean
  obtain rfl : recorded = #[] := readers_keep.2.1 _ _ _ _ _ hclean
  obtain ⟨ts, hts, hstmt⟩ := hstmt stmt e.rest (by rw [hread]; exact ⟨rfl, Outcome.gives_ok⟩)
  refine ⟨ts ++ us, stmt :: new, ?_, .cons hstmt hnew, by simp [hstmts]⟩
  rw [hts, hus, List.append_assoc]

theorem StmtSound.nested (hpeek : c.peek? = some .openBrace) (hblock : BlockSound errors c) :
    StmtSound errors c := by
  intro stmt rest h
  rw [readStmt_openBrace hpeek] at h
  obtain ⟨recorded, body, d, hd, hread, hclean, h⟩ := Recovered.andThen_reads h
  obtain ⟨rfl, rfl⟩ := Outcome.gives_ok_iff.1 h
  obtain rfl : recorded = #[] := hclean
  obtain ⟨ts, hts, hbody⟩ := hblock body d.rest (by rw [hread]; exact ⟨rfl, Outcome.gives_ok⟩)
  exact ⟨ts, hts, .block hbody⟩

theorem StmtSound.cond {ha : c.advance.size < c.size} (hpeek : c.peek? = some .ifKw)
    (hif : IfSound errors c c.advance ha) : StmtSound errors c := by
  intro stmt rest h
  rw [readStmt_ifKw (Cursor.size_advance_lt hpeek) hpeek] at h
  obtain ⟨ts, hts, hstmt⟩ := hif hpeek rfl stmt rest h
  exact ⟨ts, hts, .cond hstmt⟩

/-- Statements without blocks are sound as they are. -/
theorem StmtSound.simple (hbrace : c.peek? ≠ some .openBrace) (hif : c.peek? ≠ some .ifKw) :
    StmtSound errors c := by
  intro stmt rest h
  rw [readStmt] at h
  split at h
  · contradiction
  · contradiction
  · next hpeek =>
    obtain ⟨decl, d, hd, hread, -, h⟩ := Recovered.mk_andThen_reads h
    obtain ⟨rfl, rfl⟩ := Outcome.gives_ok_iff.1 h
    obtain ⟨ts, hts, hdecl⟩ := readVar_sound hpeek rfl ⟨d, hd, hread, rfl⟩
    exact ⟨ts, hts, .var hdecl⟩
  · next hpeek =>
    exact @readReturn_sound c c.advance (Cursor.size_advance_lt hpeek) rest stmt hpeek rfl h.2
  · next hpeek =>
    exact @readPrint_sound c c.advance (Cursor.size_advance_lt hpeek) rest stmt hpeek rfl h.2
  · exact readExprStmt_sound h.2

theorem IfSound.of
    (hthen : ∀ e : Cursor, e.size < d.size → ∀ f : Cursor, f.size < e.size → ∀ g : Cursor,
      g.size < f.size → BlockSound errors g)
    (helseIf : ∀ e : Cursor, e.size < d.size → ∀ f : Cursor, f.size < e.size → ∀ g : Cursor,
      g.size < f.size → ∀ errors (k : Cursor), k.size < g.size → k.peek? = some .elseKw →
      k.advance.peek? = some .ifKw → ∀ ha, IfSound errors k.advance k.advance.advance ha)
    (helse : ∀ e : Cursor, e.size < d.size → ∀ f : Cursor, f.size < e.size → ∀ g : Cursor,
      g.size < f.size → ∀ errors (k : Cursor), k.size < g.size → k.peek? = some .elseKw →
      BlockSound errors k.advance) : IfSound errors c d hd := by
  rintro hpeek rfl stmt rest h
  rw [readIf] at h
  obtain ⟨p, e, he, hopen, h⟩ := Recovered.mk_andThen_reads h
  obtain ⟨test, f, hf, htest, h⟩ := Recovered.mk_andThen_reads h
  obtain ⟨p', g, hg, hclose, h⟩ := Recovered.mk_andThen_reads h
  obtain ⟨recorded, body, k, hk, hbody, h⟩ := Recovered.andThen_reads h
  obtain ⟨kind, hkind, hstart⟩ := expect_sound hopen
  obtain rfl := eq_openParen hkind
  obtain ⟨ts, hts, htest⟩ := readExpr_sound htest
  obtain ⟨kind, hkind, hfrest⟩ := expect_sound hclose
  obtain rfl := eq_closeParen hkind
  have hhead : c.rest = ⟨.ifKw, c.here⟩ :: ⟨.openParen, p⟩ :: ts ++
    ⟨.closeParen, p'⟩ :: g.rest := by
    rw [c.rest_of_peek? hpeek, hstart, hts, hfrest]
    rfl
  have hthen : recorded = #[] → ∃ us, g.rest = us ++ k.rest ∧ IsBlock us body := fun hclean =>
    hthen e he f hf g hg body k.rest (by rw [hbody]; exact ⟨hclean, Outcome.gives_ok⟩)
  split at h
  · next helseKw =>
    have hadvance := Cursor.size_advance_lt helseKw
    have hkrest := k.rest_of_peek? helseKw
    split at h
    · next hifKw =>
      obtain ⟨recorded', nested, i, hi, hnested, hclean, h⟩ := Recovered.andThen_reads h
      obtain ⟨rfl, rfl⟩ := Outcome.gives_ok_iff.1 h
      obtain rfl : recorded' = #[] := hclean
      have hclean : recorded = #[] :=
        readers_keep.2.2.2.1 _ _ _ _ (by rw [hnested])
      obtain ⟨us, hus, hbody⟩ := hthen hclean
      obtain ⟨vs, hvs, hnested⟩ := helseIf e he f hf g hg recorded k hk helseKw hifKw _ hifKw rfl
        nested i.rest (by rw [hnested]; exact ⟨rfl, Outcome.gives_ok⟩)
      refine ⟨_, ?_, @IsIf.elseIf ts us vs test body nested c.here p p' k.here htest hbody hnested⟩
      rw [hhead, hus, hkrest, hvs]
      simp
    · obtain ⟨recorded', other, i, hi, hother, hclean, h⟩ := Recovered.andThen_reads h
      obtain ⟨rfl, rfl⟩ := Outcome.gives_ok_iff.1 h
      obtain rfl : recorded' = #[] := hclean
      have hclean : recorded = #[] := readers_keep.1 _ _ (by rw [hother])
      obtain ⟨us, hus, hbody⟩ := hthen hclean
      obtain ⟨vs, hvs, hother⟩ := helse e he f hf g hg recorded k hk helseKw other i.rest
        (by rw [hother]; exact ⟨rfl, Outcome.gives_ok⟩)
      refine ⟨_, ?_, @IsIf.elseBlock ts us vs test body other c.here p p' k.here htest hbody hother⟩
      rw [hhead, hus, hkrest, hvs]
      simp
  · obtain ⟨hclean, h⟩ := h
    obtain ⟨rfl, rfl⟩ := Outcome.gives_ok_iff.1 h
    obtain ⟨us, hus, hbody⟩ := hthen hclean
    refine ⟨_, ?_, @IsIf.noElse ts us test body c.here p p' htest hbody⟩
    rw [hhead, hus]
    simp

theorem FnSound.of
    (hbody : ∀ e : Cursor, e.size < d.size → ∀ g : Cursor, g.size < e.size → ∀ k : Cursor,
      k.size < g.size → BlockSound errors k) : FnSound errors c d hd := by
  rintro hpeek rfl decl rest h
  rw [readFn] at h
  obtain ⟨⟨name, nameSpan⟩, e, he, hname, h⟩ := Recovered.mk_andThen_reads h
  obtain ⟨p, f, hf, hopen, h⟩ := Recovered.mk_andThen_reads h
  obtain ⟨params, g, hg, hparams, h⟩ := Recovered.mk_andThen_reads h
  obtain ⟨p', k, hk, hclose, h⟩ := Recovered.mk_andThen_reads h
  obtain ⟨recorded, body, i, hi, hread, hclean, h⟩ := Recovered.andThen_reads h
  obtain ⟨rfl, rfl⟩ := Outcome.gives_ok_iff.1 h
  obtain rfl : recorded = #[] := hclean
  obtain ⟨kind, hkind, hstart⟩ := expect_sound hopen
  obtain rfl := eq_openParen hkind
  obtain ⟨ts, hts, hparams⟩ := readParams_sound ⟨g, hg, hparams, rfl⟩
  obtain ⟨kind, hkind, hgrest⟩ := expect_sound hclose
  obtain rfl := eq_closeParen hkind
  obtain ⟨us, hus, hbody⟩ :=
    hbody e he g hg k hk body i.rest (by rw [hread]; exact ⟨rfl, Outcome.gives_ok⟩)
  refine ⟨_, ?_, @IsFn.fn ts us params body name c.here nameSpan p p' hparams hbody⟩
  rw [c.rest_of_peek? hpeek, expectName_sound hname, hstart, hts, hgrest, hus]
  simp

end Sound

/-- All readers of statements are sound. -/
theorem stmt_readers_sound :
    (∀ errors c, BlockSound errors c) ∧ (∀ errors seen c d hd, StmtsSound errors seen c d hd) ∧
      (∀ errors c, StmtSound errors c) ∧ (∀ errors c d hd, IfSound errors c d hd) ∧
      ∀ errors c d hd, FnSound errors c d hd := by
  refine readBlock.mutual_induct BlockSound StmtsSound StmtSound IfSound FnSound
    ?block ?none ?close ?fn ?brokenFn ?stmt ?brokenStmt ?nested ?ifStmt ?var ?ret ?print ?expr
    ?cond ?decl
  case block => exact fun _ _ hstmts => .of hstmts
  case none => exact fun _ _ _ _ _ hpeek => .close (.inl hpeek)
  case close => exact fun _ _ _ _ _ hpeek => .close (.inr hpeek)
  case fn => exact fun _ _ _ _ _ hpeek _ _ _ _ _ hread _ _ => .broken (readStmts_fn hpeek hread)
  case brokenFn =>
    exact fun _ _ _ _ hd hpeek _ _ _ _ _ hread hr _ _ =>
      .broken (readStmts_brokenFn (Nat.lt_trans hr hd) hpeek hread)
  case stmt =>
    exact fun _ _ _ _ _ _ hclose hfn hpeek _ _ _ _ hread hstmt hmore =>
      .stmt (readStmts_stmt hpeek hclose hfn hread) hread hstmt hmore
  case brokenStmt =>
    exact fun _ _ _ _ hd _ hclose hfn hpeek _ _ _ _ hread hr _ _ =>
      .broken (readStmts_brokenStmt (Nat.lt_trans hr hd) hpeek hclose hfn hread)
  case nested => exact fun _ _ hpeek hblock => .nested hpeek hblock
  case ifStmt => exact fun _ _ hpeek _ hif => .cond hpeek hif
  case var | ret | print => exact fun _ _ hpeek => .simple (by simp [hpeek]) (by simp [hpeek])
  case expr => exact fun _ _ hbrace hif _ _ _ => .simple hbrace hif
  case cond =>
    exact fun errors _ _ _ hthen helseIf helse =>
      .of (fun e he f hf g hg => hthen e he f hf errors g hg)
        (fun e he f hf g hg errors k hk hp hq _ => helseIf e he f hf g hg errors k hk hp hq) helse
  case decl =>
    exact fun errors _ _ _ hbody => .of fun e he g hg k hk => hbody e he e g hg errors k hk

/-! ## Statements are read cleanly -/

namespace Grammar

section Simple

variable {c : Cursor} {ts rest : List Token}

theorem IsVar.read {decl : VarDecl} (h : IsVar ts decl) (hc : c.rest = ts ++ rest)
    (hd : c.advance.size < c.size) : (readVar c c.advance hd).Gives decl rest := by
  cases h with
  | @plain name s nameSpan s' =>
    refine (expectName_gives (Cursor.rest_advance hc)).andThen fun e he herest => ?_
    have hpeek : e.peek?.any TokenKind.isSemicolon = true := by
      rw [Cursor.peek?_of_rest herest]
      rfl
    dsimp only
    rw [if_pos hpeek]
    refine (expectSemicolon_gives herest).andThen fun f hf hfrest => ?_
    exact Outcome.gives_ok_iff.2 ⟨by rw [Cursor.here_of_rest hc], hfrest⟩
  | @init ts e name s nameSpan s' s'' h =>
    have hc' : c.rest = ⟨.varKw, s⟩ :: ⟨.name name, nameSpan⟩ :: ⟨.assign, s'⟩ ::
        (ts ++ ⟨.semicolon, s''⟩ :: rest) := by simpa using hc
    refine (expectName_gives (Cursor.rest_advance hc')).andThen fun e he herest => ?_
    have hpeek : ¬e.peek?.any TokenKind.isSemicolon = true := by
      rw [Cursor.peek?_of_rest herest]
      exact Bool.false_ne_true
    dsimp only
    rw [if_neg hpeek]
    refine (expect_gives herest rfl).andThen fun f hf hfrest => ?_
    refine (h.read hfrest (ends_cons (by decide))).andThen fun g hg hgrest => ?_
    refine (expectSemicolon_gives hgrest).andThen fun k hk hkrest => ?_
    exact Outcome.gives_ok_iff.2 ⟨by rw [Cursor.here_of_rest hc'], hkrest⟩

theorem readReturn_gives {s s' : Span} (hc : c.rest = ⟨.returnKw, s⟩ :: ⟨.semicolon, s'⟩ :: rest)
    (hd : c.advance.size < c.size) :
    (readReturn c c.advance hd).Gives (.ret none (s.upTo s')) rest := by
  have hrest := Cursor.rest_advance hc
  unfold readReturn
  rw [if_pos (by rw [Cursor.peek?_of_rest hrest]; rfl)]
  refine (expectSemicolon_gives hrest).andThen fun f hf hfrest => ?_
  exact Outcome.gives_ok_iff.2 ⟨by rw [Cursor.here_of_rest hc], hfrest⟩

theorem IsExpr.readReturn {e : Expr} {s s' : Span} (h : IsExpr ts e)
    (hc : c.rest = ⟨.returnKw, s⟩ :: (ts ++ ⟨.semicolon, s'⟩ :: rest))
    (hd : c.advance.size < c.size) :
    (readReturn c c.advance hd).Gives (.ret (some e) (s.upTo s')) rest := by
  have hpeek : ¬c.advance.peek?.any TokenKind.isSemicolon = true := by
    obtain ⟨kind, span, us, rfl, hkind⟩ := h.starts
    rw [Cursor.peek?_of_rest (Cursor.rest_advance hc)]
    cases kind <;> first | exact Bool.false_ne_true | cases hkind
  unfold ScriptMachine.readReturn
  rw [if_neg hpeek]
  refine (h.read (Cursor.rest_advance hc) (ends_cons (by decide))).andThen fun d hd hdrest => ?_
  refine (expectSemicolon_gives hdrest).andThen fun f hf hfrest => ?_
  exact Outcome.gives_ok_iff.2 ⟨by rw [Cursor.here_of_rest hc], hfrest⟩

theorem IsExpr.readPrint {e : Expr} {s s' : Span} (h : IsExpr ts e)
    (hc : c.rest = ⟨.printKw, s⟩ :: (ts ++ ⟨.semicolon, s'⟩ :: rest))
    (hd : c.advance.size < c.size) :
    (readPrint c c.advance hd).Gives (.print e (s.upTo s')) rest := by
  refine (h.read (Cursor.rest_advance hc) (ends_cons (by decide))).andThen fun d hd hdrest => ?_
  refine (expectSemicolon_gives hdrest).andThen fun f hf hfrest => ?_
  exact Outcome.gives_ok_iff.2 ⟨by rw [Cursor.here_of_rest hc], hfrest⟩

theorem IsExpr.readExprStmt {e : Expr} {s' : Span} (h : IsExpr ts e)
    (hc : c.rest = ts ++ ⟨.semicolon, s'⟩ :: rest) :
    (readExprStmt c).Gives (.expr e (e.span.upTo s')) rest := by
  refine (h.read hc (ends_cons (by decide))).andThen fun d hd hdrest => ?_
  refine (expectSemicolon_gives hdrest).andThen fun f hf hfrest => ?_
  exact Outcome.gives_ok_iff.2 ⟨rfl, hfrest⟩

theorem IsParamsFrom.read {params : List Param} {span : Span} {d : Cursor}
    (h : IsParamsFrom ts params) (seen : List Param) (hd : d.size < c.size)
    (hrest : d.rest = ts ++ ⟨.closeParen, span⟩ :: rest) :
    (readParamsFrom seen c d hd).Gives (seen.reverse ++ params) (⟨.closeParen, span⟩ :: rest) := by
  induction h generalizing seen d with
  | @last name s =>
    rw [readParamsFrom]
    refine (expectName_gives hrest).andThen fun e he herest => ?_
    have hpeek := Cursor.peek?_of_rest herest
    dsimp only
    split
    · simp_all
    · simp_all
    · exact Outcome.gives_ok_iff.2 ⟨by simp, herest⟩
  | @cons us params name s s' h ih =>
    rw [readParamsFrom]
    refine (expectName_gives hrest).andThen fun e he herest => ?_
    have hpeek := Cursor.peek?_of_rest herest
    have hadvance := Cursor.size_advance_lt hpeek
    dsimp only
    split
    · have hread := ih ({ name, span := s } :: seen) (by omega) (Cursor.rest_advance herest)
      simpa using hread
    all_goals simp_all

theorem IsParams.read {params : List Param} {span : Span} {d : Cursor} (h : IsParams ts params)
    (hd : d.size < c.size) (hrest : d.rest = ts ++ ⟨.closeParen, span⟩ :: rest) :
    (readParams c d hd).Gives params (⟨.closeParen, span⟩ :: rest) := by
  unfold readParams
  cases h with
  | none =>
    rw [if_pos (by rw [Cursor.peek?_of_rest hrest]; rfl)]
    exact Outcome.gives_ok_iff.2 ⟨rfl, hrest⟩
  | some h =>
    have hpeek : ¬d.peek?.any TokenKind.isCloseParen = true := by
      cases h with
      | last | cons =>
        rw [Cursor.peek?_of_rest hrest]
        exact Bool.false_ne_true
    rw [if_neg hpeek]
    exact h.read [] hd hrest

end Simple

/-- Whether a statement can start with the token. -/
def startsStmt : TokenKind → Bool
  | .openBrace | .ifKw | .varKw | .returnKw | .printKw => true
  | kind => startsExpression kind

theorem startsStmt_of_startsExpression {kind : TokenKind} (h : startsExpression kind = true) :
    startsStmt kind = true := by
  cases kind <;> first | rfl | cases h

theorem IsStmt.starts {ts : List Token} {stmt : Stmt} (h : IsStmt ts stmt) :
    Starts startsStmt ts := by
  cases h with
  | block h => cases h; exact ⟨_, _, _, rfl, rfl⟩
  | cond h => cases h <;> exact ⟨_, _, _, rfl, rfl⟩
  | var h => cases h <;> exact ⟨_, _, _, rfl, rfl⟩
  | ret | retValue | print => exact ⟨_, _, _, rfl, rfl⟩
  | expr h =>
    obtain ⟨kind, span, us, rfl, hkind⟩ := h.starts
    exact ⟨kind, span, _, rfl, startsStmt_of_startsExpression hkind⟩

theorem IsIf.starts {ts : List Token} {stmt : Stmt} (h : IsIf ts stmt) :
    ∃ span us, ts = ⟨.ifKw, span⟩ :: us := by
  cases h <;> exact ⟨_, _, rfl⟩

/-- No `else` follows, which would go on with a conditional. -/
def NoElse (rest : List Token) : Prop :=
  ∀ token ∈ rest.head?, token.kind ≠ .elseKw

theorem NoElse.of_starts {want : TokenKind → Bool} {ts : List Token} (h : Starts want ts)
    (helse : want .elseKw = false) : NoElse ts := by
  obtain ⟨kind, span, us, rfl, hkind⟩ := h
  intro token htoken
  cases htoken
  rintro rfl
  rw [helse] at hkind
  cases hkind

theorem noElse_cons {kind : TokenKind} {span : Span} {rest : List Token} (h : kind ≠ .elseKw) :
    NoElse (⟨kind, span⟩ :: rest) := by
  intro token htoken
  cases htoken
  exact h

mutual

/-- A block is read cleanly, whatever follows it. -/
theorem IsBlock.read {ts rest : List Token} {body : Block Stmt} {c : Cursor} :
    IsBlock ts body → c.rest = ts ++ rest → (readBlock #[] c).Reads body rest
  | @IsBlock.braces ts stmts s s' h, hc => by
    have hc' : c.rest = ⟨.openBrace, s⟩ :: (ts ++ ⟨.closeBrace, s'⟩ :: rest) := by simpa using hc
    rw [readBlock]
    refine (Recovered.reads_mk (expect_gives hc' rfl)).andThen fun d hd hdrest => ?_
    obtain ⟨hclean, hstmts, hrest⟩ := h.read [] hd hdrest
    dsimp only
    rw [hclean]
    refine (Recovered.reads_mk (expect_gives hrest rfl)).andThen fun e he herest => ?_
    exact Recovered.reads_ok_iff.2 ⟨by rw [hstmts]; rfl, herest⟩

theorem IsStmts.read {ts rest : List Token} {stmts : List Stmt} {span : Span} {c d : Cursor} :
    IsStmts ts stmts → (seen : List Stmt) → (hd : d.size < c.size) →
      d.rest = ts ++ ⟨.closeBrace, span⟩ :: rest →
      (readStmts #[] seen c d hd).errors = #[] ∧
        (readStmts #[] seen c d hd).stmts = seen.reverse ++ stmts ∧
        (readStmts #[] seen c d hd).next.rest = ⟨.closeBrace, span⟩ :: rest
  | .nil, seen, hd, hrest => by
    rw [readStmts_close (.inr (Cursor.peek?_of_rest hrest))]
    exact ⟨rfl, by simp, hrest⟩
  | @IsStmts.cons ts us stmt stmts h hstmts, seen, hd, hrest => by
    have hrest' : d.rest = ts ++ (us ++ ⟨.closeBrace, span⟩ :: rest) := by
      rw [hrest, List.append_assoc]
    have hno : NoElse (us ++ ⟨.closeBrace, span⟩ :: rest) := by
      cases hstmts with
      | nil => exact noElse_cons nofun
      | cons h _ => exact .of_starts ((h.starts.append _).append _) rfl
    obtain ⟨e, he, hread, herest⟩ := (h.read hrest' hno).eq_ok
    obtain ⟨kind, kindSpan, vs, rfl, hkind⟩ := h.starts
    have hpeek := Cursor.peek?_of_rest hrest'
    have hclose : kind ≠ .closeBrace := by
      rintro rfl
      cases hkind
    have hfn : kind ≠ .fnKw := by
      rintro rfl
      cases hkind
    rw [readStmts_stmt hpeek hclose hfn hread]
    have hmore := hstmts.read (stmt :: seen) (by omega : e.size < c.size) herest
    simpa using hmore

theorem IsStmt.read {ts rest : List Token} {stmt : Stmt} {c : Cursor} :
    IsStmt ts stmt → c.rest = ts ++ rest → NoElse rest → (readStmt #[] c).Reads stmt rest
  | @IsStmt.block ts body h, hc, hno => by
    have hread := h.read hc
    obtain ⟨hbraces⟩ := h
    rw [readStmt_openBrace (Cursor.peek?_of_rest hc)]
    exact hread.andThen fun d hd hrest => Recovered.reads_ok_iff.2 ⟨rfl, hrest⟩
  | @IsStmt.cond ts stmt h, hc, hno => by
    have hpeek : c.peek? = some .ifKw := by
      obtain ⟨span, us, rfl⟩ := h.starts
      exact Cursor.peek?_of_rest hc
    rw [readStmt_ifKw (Cursor.size_advance_lt hpeek) hpeek]
    exact h.read hc hno _
  | @IsStmt.var ts decl h, hc, hno => by
    have hpeek : c.peek? = some .varKw := by cases h <;> exact Cursor.peek?_of_rest hc
    rw [readStmt_varKw (Cursor.size_advance_lt hpeek) hpeek]
    refine (Recovered.reads_mk (h.read hc _)).andThen fun d hd hrest => ?_
    exact Recovered.reads_ok_iff.2 ⟨rfl, hrest⟩
  | @IsStmt.ret s s', hc, hno => by
    have hpeek := Cursor.peek?_of_rest hc
    rw [readStmt_returnKw (Cursor.size_advance_lt hpeek) hpeek]
    exact Recovered.reads_mk (readReturn_gives hc _)
  | @IsStmt.retValue ts e s s' h, hc, hno => by
    have hc' : c.rest = ⟨.returnKw, s⟩ :: (ts ++ ⟨.semicolon, s'⟩ :: rest) := by simpa using hc
    have hpeek := Cursor.peek?_of_rest hc'
    rw [readStmt_returnKw (Cursor.size_advance_lt hpeek) hpeek]
    exact Recovered.reads_mk (h.readReturn hc' _)
  | @IsStmt.print ts e s s' h, hc, hno => by
    have hc' : c.rest = ⟨.printKw, s⟩ :: (ts ++ ⟨.semicolon, s'⟩ :: rest) := by simpa using hc
    have hpeek := Cursor.peek?_of_rest hc'
    rw [readStmt_printKw (Cursor.size_advance_lt hpeek) hpeek]
    exact Recovered.reads_mk (h.readPrint hc' _)
  | @IsStmt.expr ts e s' h, hc, hno => by
    have hc' : c.rest = ts ++ ⟨.semicolon, s'⟩ :: rest := by simpa using hc
    have hread := h.readExprStmt hc'
    obtain ⟨kind, span, us, rfl, hkind⟩ := h.starts
    rw [readStmt_expr (Cursor.peek?_of_rest hc') hkind]
    exact Recovered.reads_mk hread

/-- Where no `else` follows, a conditional is read cleanly from behind its keyword. -/
theorem IsIf.read {ts rest : List Token} {stmt : Stmt} {c : Cursor} :
    IsIf ts stmt → c.rest = ts ++ rest → NoElse rest → (hd : c.advance.size < c.size) →
      (readIf #[] c c.advance hd).Reads stmt rest
  | @IsIf.noElse ts us test body s p p' htest hbody, hc, hno, hd => by
    have hc' : c.rest = ⟨.ifKw, s⟩ :: ⟨.openParen, p⟩ ::
      (ts ++ ⟨.closeParen, p'⟩ :: (us ++ rest)) := by
      simpa using hc
    rw [readIf]
    refine (Recovered.reads_mk (expect_gives (Cursor.rest_advance hc') rfl)).andThen
      fun e he herest => ?_
    refine (Recovered.reads_mk (htest.read herest (ends_cons (by decide)))).andThen
      fun f hf hfrest => ?_
    refine (Recovered.reads_mk (expectCloseParen_gives hfrest)).andThen fun g hg hgrest => ?_
    refine (hbody.read hgrest).andThen fun k hk hkrest => ?_
    split
    · next hpeek =>
      rw [k.rest_of_peek? hpeek] at hkrest
      exact absurd rfl (hno _ (by rw [← hkrest]; rfl))
    · exact Recovered.reads_ok_iff.2 ⟨by rw [Cursor.here_of_rest hc'], hkrest⟩
  | @IsIf.elseBlock ts us vs test body other s p p' q htest hbody hother, hc, hno, hd => by
    have hc' : c.rest = ⟨.ifKw, s⟩ :: ⟨.openParen, p⟩ :: (ts ++ ⟨.closeParen, p'⟩ ::
        (us ++ ⟨.elseKw, q⟩ :: (vs ++ rest))) := by simpa using hc
    rw [readIf]
    refine (Recovered.reads_mk (expect_gives (Cursor.rest_advance hc') rfl)).andThen
      fun e he herest => ?_
    refine (Recovered.reads_mk (htest.read herest (ends_cons (by decide)))).andThen
      fun f hf hfrest => ?_
    refine (Recovered.reads_mk (expectCloseParen_gives hfrest)).andThen fun g hg hgrest => ?_
    refine (hbody.read hgrest).andThen fun k hk hkrest => ?_
    have hread := hother.read (Cursor.rest_advance hkrest)
    have hbrace : k.advance.peek? = some .openBrace := by
      obtain ⟨hbraces⟩ := hother
      exact Cursor.peek?_of_rest (Cursor.rest_advance hkrest)
    have hpeek := Cursor.peek?_of_rest hkrest
    split
    · split
      · simp_all
      · refine hread.andThen fun i hi hirest => ?_
        exact Recovered.reads_ok_iff.2 ⟨by rw [Cursor.here_of_rest hc'], hirest⟩
    · contradiction
  | @IsIf.elseIf ts us vs test body nested s p p' q htest hbody hnested, hc, hno, hd => by
    have hc' : c.rest = ⟨.ifKw, s⟩ :: ⟨.openParen, p⟩ :: (ts ++ ⟨.closeParen, p'⟩ ::
        (us ++ ⟨.elseKw, q⟩ :: (vs ++ rest))) := by simpa using hc
    rw [readIf]
    refine (Recovered.reads_mk (expect_gives (Cursor.rest_advance hc') rfl)).andThen
      fun e he herest => ?_
    refine (Recovered.reads_mk (htest.read herest (ends_cons (by decide)))).andThen
      fun f hf hfrest => ?_
    refine (Recovered.reads_mk (expectCloseParen_gives hfrest)).andThen fun g hg hgrest => ?_
    refine (hbody.read hgrest).andThen fun k hk hkrest => ?_
    have hif : k.advance.peek? = some .ifKw := by
      obtain ⟨span, ws, rfl⟩ := hnested.starts
      exact Cursor.peek?_of_rest (Cursor.rest_advance hkrest)
    have hread := hnested.read (Cursor.rest_advance hkrest) hno (Cursor.size_advance_lt hif)
    have hpeek := Cursor.peek?_of_rest hkrest
    split
    · split
      · refine hread.andThen fun i hi hirest => ?_
        exact Recovered.reads_ok_iff.2 ⟨by rw [Cursor.here_of_rest hc'], hirest⟩
      · contradiction
    · contradiction

end

theorem IsFn.read {ts rest : List Token} {decl : FnDecl} {c : Cursor} (h : IsFn ts decl)
    (hc : c.rest = ts ++ rest) (hd : c.advance.size < c.size) :
    (readFn #[] c c.advance hd).Reads decl rest := by
  obtain @⟨ts, us, params, body, name, s, nameSpan, p, p', hparams, hbody⟩ := h
  have hc' : c.rest = ⟨.fnKw, s⟩ :: ⟨.name name, nameSpan⟩ :: ⟨.openParen, p⟩ ::
      (ts ++ ⟨.closeParen, p'⟩ :: (us ++ rest)) := by simpa using hc
  rw [readFn]
  refine (Recovered.reads_mk (expectName_gives (Cursor.rest_advance hc'))).andThen
    fun e he herest => ?_
  refine (Recovered.reads_mk (expect_gives herest rfl)).andThen fun f hf hfrest => ?_
  refine (Recovered.reads_mk (hparams.read hf hfrest)).andThen fun g hg hgrest => ?_
  refine (Recovered.reads_mk (expect_gives hgrest rfl)).andThen fun k hk hkrest => ?_
  refine (hbody.read hkrest).andThen fun i hi hirest => ?_
  exact Recovered.reads_ok_iff.2 ⟨by rw [Cursor.here_of_rest hc'], hirest⟩

end Grammar

/-! ## Whole files -/

section Files

variable {c : Cursor} {errors : Array SyntaxError} {seen : List Decl}

/-- A file is accepted only if no error was recorded, and then it was read whole. -/
theorem readDecls_sound {program : Program} (h : readDecls errors seen c = .ok program) :
    errors = #[] ∧ ∃ new, IsDecls c.rest new ∧ program.decls = seen.reverse ++ new := by
  fun_induction readDecls errors seen c generalizing program with
  | case1 errors seen c hpeek hempty =>
    cases h
    have hrest : c.rest = [] := by
      rw [Cursor.peek?, Option.map_eq_none_iff] at hpeek
      exact List.head?_eq_none_iff.1 hpeek
    exact ⟨Array.isEmpty_iff.1 hempty, [], hrest ▸ .nil, by simp⟩
  | case2 => cases h
  | case3 errors seen c hpeek recorded decl d hd _ ha _ hread ih =>
    obtain ⟨rfl, new, hnew, hdecls⟩ := ih h
    obtain rfl : errors = #[] := readers_keep.2.2.2.2 errors c c.advance ha (by rw [hread])
    obtain ⟨ts, hts, hdecl⟩ := stmt_readers_sound.2.2.2.2 #[] c c.advance ha hpeek rfl decl d.rest
      (by rw [hread]; exact ⟨rfl, Outcome.gives_ok⟩)
    exact ⟨rfl, .fn decl :: new, hts ▸ .cons (.fn hdecl) hnew, by simp [hdecls]⟩
  | case5 errors seen c hpeek decl d hd _ ha _ hread ih =>
    obtain ⟨rfl, new, hnew, hdecls⟩ := ih h
    obtain ⟨ts, hts, hdecl⟩ := @readVar_sound c c.advance ha d.rest decl hpeek rfl
      ⟨d, hd, hread, rfl⟩
    exact ⟨rfl, .var decl :: new, hts ▸ .cons (.var hdecl) hnew, by simp [hdecls]⟩
  | case4 | case6 | case7 | case8 | case9 =>
    -- the error that is recorded here stays to the end
    next ih => exact absurd (ih h).1 (by simp)

theorem readDecls_fn {ha : c.advance.size < c.size} {recorded : Array SyntaxError} {decl : FnDecl}
    {d : Cursor} {hd : d.size < c.size} (hpeek : c.peek? = some .fnKw)
    (hread : readFn errors c c.advance ha = ⟨recorded, .ok decl d hd⟩) :
    readDecls errors seen c = readDecls recorded (.fn decl :: seen) d := by
  rw [readDecls]
  split
  · simp_all
  · next kind hkind =>
    obtain rfl := Option.some.inj (hpeek.symm.trans hkind)
    dsimp only
    rw [hread]

theorem readDecls_var {ha : c.advance.size < c.size} {decl : VarDecl} {d : Cursor}
    {hd : d.size < c.size} (hpeek : c.peek? = some .varKw)
    (hread : readVar c c.advance ha = .ok decl d hd) :
    readDecls errors seen c = readDecls errors (.var decl :: seen) d := by
  rw [readDecls]
  split
  · simp_all
  · next kind hkind =>
    obtain rfl := Option.some.inj (hpeek.symm.trans hkind)
    dsimp only
    rw [hread]

theorem Grammar.IsDecls.read {decls : List Decl} {ts : List Token} (h : IsDecls ts decls)
    (hc : c.rest = ts) : readDecls #[] seen c = .ok ⟨seen.reverse ++ decls⟩ := by
  induction h generalizing seen c with
  | nil =>
    have hpeek : c.peek? = none := by simp [Cursor.peek?, hc]
    rw [readDecls]
    split
    · simp
    · simp_all
  | @cons ts us decl decls h hdecls ih =>
    cases h with
    | fn h =>
      have hpeek : c.peek? = some .fnKw := by
        obtain ⟨hparams, hbody⟩ := h
        exact Cursor.peek?_of_rest hc
      obtain ⟨d, hd, hread, hrest⟩ := (h.read hc (Cursor.size_advance_lt hpeek)).eq_ok
      rw [readDecls_fn hpeek hread, ih hrest]
      simp
    | var h =>
      have hpeek : c.peek? = some .varKw := by cases h <;> exact Cursor.peek?_of_rest hc
      obtain ⟨d, hd, hread, hrest⟩ := h.read hc (Cursor.size_advance_lt hpeek)
      rw [readDecls_var hpeek hread, ih hrest]
      simp

end Files

theorem parse_iff {stream : TokenStream} {program : Program} :
    parse stream = .ok program ↔ IsProgram stream.tokens program := by
  constructor
  · intro h
    obtain ⟨-, new, hnew, hdecls⟩ := readDecls_sound h
    rw [List.reverse_nil, List.nil_append] at hdecls
    rwa [IsProgram, hdecls]
  · exact fun h => h.read rfl

theorem parseExpression_iff {stream : TokenStream} {e : Expr} :
    parseExpression stream = .ok e ↔ IsExpr stream.tokens e := by
  constructor
  · intro h
    unfold parseExpression at h
    split at h
    · next value next read hread =>
      split at h
      · next hempty =>
        cases h
        obtain ⟨ts, hts, he⟩ := readExpr_sound hread
        rw [List.isEmpty_iff.1 hempty, List.append_nil] at hts
        rwa [show stream.tokens = ts from hts]
      · cases h
    · cases h
  · intro h
    have hends : Ends 7 [] := fun _ htoken => by cases htoken
    obtain ⟨next, read, hread, hrest⟩ :=
      h.read (List.append_nil _).symm hends (c := .start stream)
    rw [parseExpression, hread]
    simp [hrest]

/-- Files and expressions are accepted if and only if they are those of the grammar, and
the result is the one tree that the grammar has for them. -/
theorem parsers_follow_grammar (stream : TokenStream) :
    (∀ program, parse stream = .ok program ↔ IsProgram stream.tokens program) ∧
      (∀ e, parseExpression stream = .ok e ↔ IsExpr stream.tokens e) ∧
      (∀ program other, IsProgram stream.tokens program → IsProgram stream.tokens other →
        program = other) ∧
      ∀ e other, IsExpr stream.tokens e → IsExpr stream.tokens other → e = other := by
  refine ⟨fun _ => parse_iff, fun _ => parseExpression_iff, fun program other h h' => ?_,
    fun e other h h' => ?_⟩
  · exact Except.ok.inj ((parse_iff.2 h).symm.trans (parse_iff.2 h'))
  · exact Except.ok.inj ((parseExpression_iff.2 h).symm.trans (parseExpression_iff.2 h'))

end ScriptMachine
