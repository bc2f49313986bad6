import Mathlib.Logic.Relation
import ScriptMachine.Proofs.Program.Movement
import ScriptMachine.Proofs.Program.Parsing

/-!
# Recovery makes progress

Reading a file is a loop over declarations, and reading a block one over statements. One
turn of either loop (`declTurn`, `stmtTurn`) moves on by at least one token, whatever it
reads and wherever it resumes behind an error, and records at most as many errors as it
moves on by tokens (`declTurn_spec`, `stmtTurn_spec`). So reading a file comes to the
end of its tokens, with at most as many errors as there are tokens (`parse_progress`).
-/

namespace ScriptMachine

/-! ## Statements without blocks -/

section Plain

variable {c d : Cursor}

theorem expectSemicolon_from (c : Cursor) : (expectSemicolon c).From c := expect_from _ rfl

theorem readVar_from (hd : d.size < c.size) : (readVar c d hd).From d := by
  refine (expectName_from _ d).andThen fun name e he => ?_
  dsimp only
  split
  · exact (expectSemicolon_from e).andThen fun stop f hf => .ok (.refl f)
  · refine (expectLandmark_from _ _ e).andThen fun _ f hf => ?_
    refine (readExpr_from f).andThen fun init g hg => ?_
    exact (expectSemicolon_from g).andThen fun stop k hk => .ok (.refl k)

theorem readReturn_from (hd : d.size < c.size) : (readReturn c d hd).From d := by
  unfold readReturn
  split
  · exact (expectSemicolon_from d).andThen fun stop e he => .ok (.refl e)
  · refine (readExpr_from d).andThen fun value e he => ?_
    exact (expectSemicolon_from e).andThen fun stop f hf => .ok (.refl f)

theorem readPrint_from (hd : d.size < c.size) : (readPrint c d hd).From d := by
  refine (readExpr_from d).andThen fun value e he => ?_
  exact (expectSemicolon_from e).andThen fun stop f hf => .ok (.refl f)

theorem readExprStmt_from (c : Cursor) : (readExprStmt c).From c := by
  refine (readExpr_from c).andThen fun value d hd => ?_
  exact (expectSemicolon_from d).andThen fun stop e he => .ok (.refl e)

theorem readParamsFrom_from (seen : List Param) (c d : Cursor) (hd : d.size < c.size) :
    (readParamsFrom seen c d hd).From d := by
  induction seen, d, hd using readParamsFrom.induct with
  | case1 seen d hd ih =>
    rw [readParamsFrom]
    refine (expectName_from _ d).andThen fun name e he => ?_
    dsimp only
    split
    · next hcomma =>
      exact (ih e he name.1 name.2 hcomma).before (Cursor.passes_advance hcomma)
    · next hname => exact .fail (.refl e) ⟨rfl, Cursor.rest_ne_nil hname⟩
    · exact .ok (.refl e)

theorem readParams_from (hd : d.size < c.size) : (readParams c d hd).From d := by
  unfold readParams
  split
  · exact .ok (.refl d)
  · exact readParamsFrom_from [] c d hd

end Plain

/-! ## Resuming -/

section Resuming

variable {start stopped : Cursor}

theorem Cursor.exists_passes_advance (c : Cursor) : ∃ n, c.Passes n c.advance := by
  cases hpeek : c.peek? with
  | some kind => exact ⟨1, passes_advance hpeek⟩
  | none =>
    have hadvance : c.advance = c := by
      unfold advance
      split
      · next hrest => simp [peek?, hrest] at hpeek
      · rfl
    exact ⟨0, by rw [hadvance]; exact .refl c⟩

theorem Cursor.exists_passes_skipTo (want : TokenKind → Bool) (c : Cursor) :
    ∃ n, c.Passes n (c.skipTo want) := by
  fun_induction skipTo want c with
  | case1 | case2 => exact ⟨0, .refl _⟩
  | case3 token rest before stop hwant ih =>
    obtain ⟨n, hn⟩ := ih
    have hadvance : Passes ⟨token :: rest, before, stop⟩ 1 ⟨rest, token.span.stop, stop⟩ :=
      ⟨Nat.succ_le_succ (Nat.zero_le _), rfl⟩
    exact ⟨1 + n, hadvance.trans hn⟩

theorem exists_passes_movedOn (start stopped : Cursor) :
    ∃ n, stopped.Passes n (movedOn start stopped) := by
  unfold movedOn
  split
  · exact stopped.exists_passes_advance
  · exact ⟨0, .refl _⟩

theorem exists_passes_resumeDecl (start stopped : Cursor) :
    ∃ n, stopped.Passes n (resumeDecl start stopped) := by
  obtain ⟨n, hn⟩ := exists_passes_movedOn start stopped
  obtain ⟨m, hm⟩ := (movedOn start stopped).exists_passes_skipTo TokenKind.endsBrokenDecl
  exact ⟨n + m, hn.trans hm⟩

theorem exists_passes_resumeStmt (start stopped : Cursor) :
    ∃ n, stopped.Passes n (resumeStmt start stopped) := by
  obtain ⟨n, hn⟩ := exists_passes_movedOn start stopped
  obtain ⟨m, hm⟩ := (movedOn start stopped).exists_passes_skipTo TokenKind.endsBrokenStmt
  unfold resumeStmt
  dsimp only
  split
  · obtain ⟨k, hk⟩ := ((movedOn start stopped).skipTo
      TokenKind.endsBrokenStmt).exists_passes_advance
    exact ⟨n + m + k, (hn.trans hm).trans hk⟩
  · exact ⟨n + m, hn.trans hm⟩

end Resuming

/-! ## Recorded errors -/

/-- From `errors` on, at most `n` more were recorded, each at a token from `c` on. -/
def Records (c : Cursor) (n : Nat) (errors recorded : Array SyntaxError) : Prop :=
  ∃ new : List SyntaxError, recorded.toList = errors.toList ++ new ∧ new.length ≤ n ∧
    ∀ e ∈ new, c.Reports e

namespace Records

variable {c d : Cursor} {n m : Nat} {errors recorded more : Array SyntaxError}

theorem none : Records c n errors errors := ⟨[], by simp, Nat.zero_le n, nofun⟩

theorem push {e : SyntaxError} (h : c.Reports e) : Records c 1 errors (errors.push e) :=
  ⟨[e], by simp, Nat.le_refl 1, fun _ he => by rwa [List.mem_singleton.1 he]⟩

theorem mono (h : Records c n errors recorded) (hle : n ≤ m) : Records c m errors recorded := by
  obtain ⟨new, hnew, hlength, hreports⟩ := h
  exact ⟨new, hnew, Nat.le_trans hlength hle, hreports⟩

theorem trans {k : Nat} (hd : c.Passes k d) (h : Records c n errors recorded)
    (h' : Records d m recorded more) : Records c (n + m) errors more := by
  obtain ⟨new, hnew, hlength, hreports⟩ := h
  obtain ⟨new', hnew', hlength', hreports'⟩ := h'
  refine ⟨new ++ new', by rw [hnew', hnew, List.append_assoc], ?_, fun e he => ?_⟩
  · rw [List.length_append]
    omega
  · rcases List.mem_append.1 he with he | he
    · exact hreports e he
    · exact (hreports' e he).before hd

end Records

namespace Recovered

variable {c d e : Cursor} {α β : Type} {errors : Array SyntaxError}

/-- Reading went on from `d`, and recorded fewer errors than it read tokens, if it read any. -/
structure From (d : Cursor) (errors : Array SyntaxError) (x : Recovered c α) : Prop where
  outcome : x.outcome.From d
  records : Records d (d.size - x.outcome.place.size - 1) errors x.errors

theorem mk_ok_andThen {a : α} {b : Cursor} {hb : b.size < d.size} {h : d.size ≤ c.size}
    {f : Array SyntaxError → α → (b : Cursor) → b.size < d.size → Recovered c β} :
    (⟨errors, .ok a b hb⟩ : Recovered d α).andThen h f = f errors a b hb :=
  rfl

theorem andThen_eq_ok {x : Recovered d α} {h : d.size ≤ c.size}
    {f : Array SyntaxError → α → (b : Cursor) → b.size < d.size → Recovered c β} {value : β}
    {he : e.size < c.size} (heq : x.andThen h f = ⟨errors, .ok value e he⟩) :
    ∃ a b hb, x.outcome = .ok a b hb ∧ f x.errors a b hb = ⟨errors, .ok value e he⟩ := by
  obtain ⟨recorded, outcome⟩ := x
  cases outcome with
  | ok a b hb => exact ⟨a, b, hb, rfl, heq⟩
  | error error stopped kept => cases heq

theorem From.mk_outcome {outcome : Outcome c α} (h : outcome.From d) :
    (Recovered.mk errors outcome).From d errors :=
  ⟨h, .none⟩

theorem From.before {x : Recovered c α} {n : Nat} (h : d.Passes n e) (hx : x.From e errors) :
    x.From d errors := by
  have hsize := h.size_le
  refine ⟨hx.outcome.before h, (Records.trans h (.none (n := 0)) hx.records).mono ?_⟩
  omega

theorem From.andThen {x : Recovered e α} {h : e.size ≤ c.size}
    {f : Array SyntaxError → α → (b : Cursor) → b.size < e.size → Recovered c β}
    (hx : x.From d errors) (hf : ∀ a b hb, (f x.errors a b hb).From b x.errors) :
    (x.andThen h f).From d errors := by
  obtain ⟨recorded, outcome⟩ := x
  cases outcome with
  | ok a b hb =>
    rw [mk_ok_andThen]
    obtain ⟨n, hn⟩ := hx.outcome.passes
    have hmore : (f recorded a b hb).From b recorded := hf a b hb
    refine ⟨hmore.outcome.before hn, (Records.trans hn hx.records hmore.records).mono ?_⟩
    have hsize := hn.size_le
    have hplace := hmore.outcome.size_le
    simp only [Outcome.place_ok] at hsize ⊢
    omega
  | error error stopped kept => exact ⟨hx.outcome.error, hx.records⟩

end Recovered

/-! ## Progress -/

/-- Reading came from `c` to `d`, and recorded at most as many errors as it read tokens. -/
structure Progress (c : Cursor) (errors : Array SyntaxError) (d : Cursor)
    (recorded : Array SyntaxError) : Prop where
  passes : ∃ n, c.Passes n d
  records : Records c (c.size - d.size) errors recorded

namespace Progress

variable {c d e : Cursor} {α : Type} {errors recorded more : Array SyntaxError}

theorem refl (c : Cursor) (errors : Array SyntaxError) : Progress c errors c errors :=
  ⟨⟨0, .refl c⟩, .none⟩

theorem ahead (h : Progress c errors d recorded) : ∃ n, c.Ahead n d :=
  h.passes.imp fun _ hn => hn.ahead

theorem trans (h : Progress c errors d recorded) (h' : Progress d recorded e more) :
    Progress c errors e more := by
  obtain ⟨n, hn⟩ := h.passes
  obtain ⟨m, hm⟩ := h'.passes
  have hsize := hn.size_le
  have hsize' := hm.size_le
  exact ⟨⟨n + m, hn.trans hm⟩, (Records.trans hn h.records h'.records).mono (by omega)⟩

/-- Behind a value, reading has made progress. -/
theorem of_ok {value : α} {he : e.size < c.size}
    (h : (Recovered.mk recorded (.ok value e he) : Recovered c α).From c errors) :
    Progress c errors e recorded :=
  ⟨h.outcome.passes, h.records.mono (Nat.sub_le _ _)⟩

/-- There is room for one more error behind a value. -/
theorem of_ok_push {value : α} {he : e.size < c.size} {error : SyntaxError}
    (h : (Recovered.mk recorded (.ok value e he) : Recovered c α).From c errors)
    (hreports : c.Reports error) : Progress c errors e (recorded.push error) := by
  refine ⟨h.outcome.passes, (Records.trans (.refl c) h.records (.push hreports)).mono ?_⟩
  rw [Outcome.place_ok]
  omega

/-- Where reading resumes further on, there is room for the error that it stopped with. -/
theorem of_error {error : SyntaxError} {stopped : Cursor} {kept : stopped.size ≤ c.size}
    (h : (Recovered.mk recorded (.error error stopped kept) : Recovered c α).From c errors)
    (hresume : ∃ n, stopped.Passes n e) (hlt : e.size < c.size) :
    Progress c errors e (recorded.push error) := by
  obtain ⟨n, hn⟩ := h.outcome.passes
  obtain ⟨m, hm⟩ := hresume
  have hsize := hm.size_le
  refine ⟨⟨n + m, hn.trans hm⟩,
    (Records.trans (.refl c) h.records (.push h.outcome.reports)).mono ?_⟩
  rw [Outcome.place_error] at hn ⊢
  omega

/-- Where fewer tokens are left, reading is further on in the stream. -/
theorem further {b : Cursor} {i : Nat} (hb : b.Ahead i c) (h : Progress c errors d recorded)
    (hlt : d.size < c.size) :
    errors.toList <+: recorded.toList ∧ ∃ j, i < j ∧ b.Ahead j d := by
  obtain ⟨n, hn⟩ := h.ahead
  obtain ⟨new, hnew, -⟩ := h.records
  have hsize := hn.size_add
  exact ⟨⟨new, hnew.symm⟩, i + n, by omega, hb.trans hn⟩

/-- Reading that started with a token has room for the errors of what it read behind it. -/
theorem recovered_from {b : Cursor} {x : Recovered b α} {n : Nat} (hc : c.Passes n d)
    (hlt : d.size < c.size) (h : Progress d errors e recorded) (hx : x.From e recorded) :
    x.From c errors := by
  obtain ⟨m, hm⟩ := h.passes
  have hsize := hm.size_le
  have hplace := hx.outcome.size_le
  have hrecords := Records.trans hm h.records hx.records
  refine ⟨hx.outcome.before (hc.trans hm), (Records.trans hc (.none (n := 0)) hrecords).mono ?_⟩
  omega

end Progress

/-! ## Statements with blocks -/

/-- The name of a function stands behind its keyword. -/
theorem readFn_name {errors recorded : Array SyntaxError} {c d e : Cursor} {hd : d.size < c.size}
    {he : e.size < c.size} {decl : FnDecl}
    (h : readFn errors c d hd = ⟨recorded, .ok decl e he⟩) : decl.nameSpan = d.here := by
  rw [readFn] at h
  obtain ⟨name, e, he, hname, h⟩ := Recovered.andThen_eq_ok h
  obtain ⟨_, f, hf, -, h⟩ := Recovered.andThen_eq_ok h
  obtain ⟨params, g, hg, -, h⟩ := Recovered.andThen_eq_ok h
  obtain ⟨_, k, hk, -, h⟩ := Recovered.andThen_eq_ok h
  obtain ⟨body, i, hi, -, h⟩ := Recovered.andThen_eq_ok h
  cases h
  exact (Cursor.here_of_rest (expectName_sound hname)).symm

/-- The readers of statements and functions go on from where they are, and record fewer errors
than they read tokens. -/
theorem stmt_readers_from :
    (∀ errors c, (readBlock errors c).From c errors) ∧
      (∀ errors seen c d hd, Progress d errors (readStmts errors seen c d hd).next
        (readStmts errors seen c d hd).errors) ∧
      (∀ errors c, (readStmt errors c).From c errors) ∧
      (∀ errors c d hd, (readIf errors c d hd).From d errors) ∧
      ∀ errors c d hd, (readFn errors c d hd).From d errors := by
  refine readBlock.mutual_induct (fun errors c => (readBlock errors c).From c errors)
    (fun errors seen c d hd => Progress d errors (readStmts errors seen c d hd).next
      (readStmts errors seen c d hd).errors)
    (fun errors c => (readStmt errors c).From c errors)
    (fun errors c d hd => (readIf errors c d hd).From d errors)
    (fun errors c d hd => (readFn errors c d hd).From d errors)
    ?block ?none ?close ?fn ?brokenFn ?stmt ?brokenStmt ?nested ?ifStmt ?var ?ret ?print ?expr
    ?cond ?decl
  case block =>
    intro errors c hstmts
    rw [readBlock]
    have hopen := expectLandmark_from TokenKind.isOpenBrace .openBlock c
    cases hstart : expect TokenKind.isOpenBrace (.landmark .openBlock) c with
    | ok start d hd =>
      rw [hstart] at hopen
      obtain ⟨n, hn⟩ := hopen.passes
      rw [Recovered.mk_ok_andThen]
      refine Progress.recovered_from hn hd (hstmts errors d hd) ?_
      exact (Recovered.From.mk_outcome (expectLandmark_from _ _ _)).andThen fun _ e he =>
        .mk_outcome (.ok (.refl e))
    | error error stopped kept =>
      rw [hstart] at hopen
      exact .mk_outcome hopen.error
  case none | close =>
    intro errors seen c d hd hpeek
    rw [readStmts_close (by simp [hpeek])]
    exact .refl d errors
  case fn =>
    intro errors seen c d hd hpeek ha recorded decl e he hread hfn hmore
    rw [readStmts_fn hpeek hread]
    rw [hread] at hfn
    have hname : d.Reports ⟨.nestedFunction, decl.nameSpan⟩ :=
      ⟨1, d.advance, Cursor.passes_advance hpeek, (readFn_name hread).symm, trivial⟩
    exact (Progress.of_ok_push (hfn.before (Cursor.passes_advance hpeek)) hname).trans hmore
  case brokenFn =>
    intro errors seen c d hd hpeek ha recorded error stopped kept hread hr hfn hmore
    rw [readStmts_brokenFn (Nat.lt_trans hr hd) hpeek hread]
    rw [hread] at hfn
    exact (Progress.of_error (hfn.before (Cursor.passes_advance hpeek))
      (exists_passes_resumeStmt d stopped) hr).trans hmore
  case stmt =>
    intro errors seen c d hd kind hclose hfn hpeek recorded stmt e he hread hstmt hmore
    rw [readStmts_stmt hpeek hclose hfn hread]
    rw [hread] at hstmt
    exact (Progress.of_ok hstmt).trans hmore
  case brokenStmt =>
    intro errors seen c d hd kind hclose hfn hpeek recorded error stopped kept hread hr hstmt
      hmore
    rw [readStmts_brokenStmt (Nat.lt_trans hr hd) hpeek hclose hfn hread]
    rw [hread] at hstmt
    exact (Progress.of_error hstmt (exists_passes_resumeStmt d stopped) hr).trans hmore
  case nested =>
    intro errors c hpeek hblock
    rw [readStmt_openBrace hpeek]
    exact hblock.andThen fun _ d hd => .mk_outcome (.ok (.refl d))
  case ifStmt =>
    intro errors c hpeek ha hif
    rw [readStmt_ifKw (Cursor.size_advance_lt hpeek) hpeek]
    exact hif.before (Cursor.passes_advance hpeek)
  case var =>
    intro errors c hpeek
    rw [readStmt_varKw (Cursor.size_advance_lt hpeek) hpeek]
    exact (Recovered.From.mk_outcome
      ((readVar_from _).before (Cursor.passes_advance hpeek))).andThen
      fun _ d hd => .mk_outcome (.ok (.refl d))
  case ret =>
    intro errors c hpeek
    rw [readStmt_returnKw (Cursor.size_advance_lt hpeek) hpeek]
    exact .mk_outcome ((readReturn_from _).before (Cursor.passes_advance hpeek))
  case print =>
    intro errors c hpeek
    rw [readStmt_printKw (Cursor.size_advance_lt hpeek) hpeek]
    exact .mk_outcome ((readPrint_from _).before (Cursor.passes_advance hpeek))
  case expr =>
    intro errors c hbrace hif hvar hret hprint
    rw [readStmt]
    split
    · contradiction
    · contradiction
    · contradiction
    · contradiction
    · contradiction
    · exact .mk_outcome (readExprStmt_from c)
  case cond =>
    intro errors c d hd hblock hif helse
    rw [readIf]
    refine (Recovered.From.mk_outcome (expectLandmark_from _ _ d)).andThen fun _ e he => ?_
    refine (Recovered.From.mk_outcome (readExpr_from e)).andThen fun test f hf => ?_
    refine (Recovered.From.mk_outcome (expectCloseParen_from _ f)).andThen fun _ g hg => ?_
    refine (hblock e he f hf errors g hg).andThen fun body h hh => ?_
    split
    · next hp =>
      split
      · next hq =>
        refine Recovered.From.before (Cursor.passes_advance hp) ?_
        refine Recovered.From.before (Cursor.passes_advance hq) ?_
        exact (hif e he f hf g hg _ h hh hp hq).andThen fun _ i _ => .mk_outcome (.ok (.refl i))
      · refine Recovered.From.before (Cursor.passes_advance hp) ?_
        exact (helse e he f hf g hg _ h hh hp).andThen fun _ i _ => .mk_outcome (.ok (.refl i))
    · exact .mk_outcome (.ok (.refl h))
  case decl =>
    intro errors c d hd hblock
    rw [readFn]
    refine (Recovered.From.mk_outcome (expectName_from _ d)).andThen fun name e he => ?_
    refine (Recovered.From.mk_outcome (expectLandmark_from _ _ e)).andThen fun _ f hf => ?_
    refine (Recovered.From.mk_outcome (readParams_from hf)).andThen fun params g hg => ?_
    refine (Recovered.From.mk_outcome (expectLandmark_from _ _ g)).andThen fun _ h hh => ?_
    exact (hblock e he f g hg errors h hh).andThen fun _ i _ => .mk_outcome (.ok (.refl i))

/-! ## Turns -/

/-- Where a loop is: what it has recorded and read, the latest first, and its place. -/
structure Loop (α : Type) where
  errors : Array SyntaxError
  seen : List α
  place : Cursor

/-- The next turn of the loop over the declarations of a file, if it does not end there. -/
def declTurn (s : Loop Decl) : Option (Loop Decl) :=
  match hp : s.place.peek? with
  | none => none
  | some .fnKw =>
    match readFn s.errors s.place s.place.advance (Cursor.size_advance_lt hp) with
    | ⟨errors, .ok decl d _⟩ => some ⟨errors, .fn decl :: s.seen, d⟩
    | ⟨errors, .error error stopped _⟩ =>
      some ⟨errors.push error, s.seen, resumeDecl s.place stopped⟩
  | some .varKw =>
    match readVar s.place s.place.advance (Cursor.size_advance_lt hp) with
    | .ok decl d _ => some ⟨s.errors, .var decl :: s.seen, d⟩
    | .error error stopped _ => some ⟨s.errors.push error, s.seen, resumeDecl s.place stopped⟩
  | some .classKw =>
    some ⟨s.errors.push (s.place.error .classes), s.seen, resumeDecl s.place s.place⟩
  | some .importKw =>
    some ⟨s.errors.push (s.place.error .imports), s.seen, resumeDecl s.place s.place⟩
  | some _ => some ⟨s.errors.push (s.place.error .topLevel), s.seen, resumeDecl s.place s.place⟩

/-- The next turn of the loop over the statements of a block, if it does not end there. -/
def stmtTurn (s : Loop Stmt) : Option (Loop Stmt) :=
  match hp : s.place.peek? with
  | none | some .closeBrace => none
  | some .fnKw =>
    match readFn s.errors s.place s.place.advance (Cursor.size_advance_lt hp) with
    | ⟨errors, .ok decl d _⟩ => some ⟨errors.push ⟨.nestedFunction, decl.nameSpan⟩, s.seen, d⟩
    | ⟨errors, .error error stopped _⟩ =>
      some ⟨errors.push error, s.seen, resumeStmt s.place stopped⟩
  | some _ =>
    match readStmt s.errors s.place with
    | ⟨errors, .ok stmt d _⟩ => some ⟨errors, stmt :: s.seen, d⟩
    | ⟨errors, .error error stopped _⟩ =>
      some ⟨errors.push error, s.seen, resumeStmt s.place stopped⟩

section Turns

variable {errors recorded : Array SyntaxError} {c : Cursor}

theorem readDecls_brokenFn {seen : List Decl} {ha : c.advance.size < c.size} {error : SyntaxError}
    {stopped : Cursor} {kept : stopped.size ≤ c.size} (hpeek : c.peek? = some .fnKw)
    (hread : readFn errors c c.advance ha = ⟨recorded, .error error stopped kept⟩) :
    readDecls errors seen c = readDecls (recorded.push error) seen (resumeDecl c stopped) := by
  rw [readDecls]
  split
  · simp_all
  · next kind hkind =>
    obtain rfl := Option.some.inj (hpeek.symm.trans hkind)
    dsimp only
    rw [hread]

theorem readDecls_brokenVar {seen : List Decl} {ha : c.advance.size < c.size} {error : SyntaxError}
    {stopped : Cursor} {kept : stopped.size ≤ c.size} (hpeek : c.peek? = some .varKw)
    (hread : readVar c c.advance ha = .error error stopped kept) :
    readDecls errors seen c = readDecls (errors.push error) seen (resumeDecl c stopped) := by
  rw [readDecls]
  split
  · simp_all
  · next kind hkind =>
    obtain rfl := Option.some.inj (hpeek.symm.trans hkind)
    dsimp only
    rw [hread]

/-- What is read behind a turn over declarations is what is read before it, and the turn has made
progress. -/
theorem declTurn_spec {s s' : Loop Decl} (h : declTurn s = some s') :
    readDecls s.errors s.seen s.place = readDecls s'.errors s'.seen s'.place ∧
      Progress s.place s.errors s'.place s'.errors ∧ s'.place.size < s.place.size := by
  obtain ⟨errors, seen, c⟩ := s
  unfold declTurn at h
  split at h
  case h_1 => cases h
  case h_2 hpeek =>
    have hfrom := (stmt_readers_from.2.2.2.2 errors c c.advance
      (Cursor.size_advance_lt hpeek)).before (Cursor.passes_advance hpeek)
    split at h
    · next recorded decl d hd hread =>
      cases h
      rw [hread] at hfrom
      exact ⟨readDecls_fn hpeek hread, .of_ok hfrom, hd⟩
    · next recorded error stopped kept hread =>
      cases h
      rw [hread] at hfrom
      have hlt := size_resumeDecl_lt (Cursor.size_pos hpeek) kept
      exact ⟨readDecls_brokenFn hpeek hread,
        .of_error hfrom (exists_passes_resumeDecl c stopped) hlt, hlt⟩
  case h_3 hpeek =>
    have hfrom : (Recovered.mk errors (readVar c c.advance _)).From c errors :=
      .mk_outcome ((readVar_from (Cursor.size_advance_lt hpeek)).before
        (Cursor.passes_advance hpeek))
    split at h
    · next decl d hd hread =>
      cases h
      rw [hread] at hfrom
      exact ⟨readDecls_var hpeek hread, .of_ok hfrom, hd⟩
    · next error stopped kept hread =>
      cases h
      rw [hread] at hfrom
      have hlt := size_resumeDecl_lt (Cursor.size_pos hpeek) kept
      exact ⟨readDecls_brokenVar hpeek hread,
        .of_error hfrom (exists_passes_resumeDecl c stopped) hlt, hlt⟩
  all_goals
    next hpeek =>
      cases h
      have hfrom : ∀ {fault}, fault.BelongsAt c → (Recovered.mk errors
          (.fail fault c (Nat.le_refl _) : Outcome c Unit)).From c errors :=
        fun hfault => .mk_outcome (.fail (.refl c) hfault)
      have hlt := size_resumeDecl_lt (Cursor.size_pos hpeek) (Nat.le_refl c.size)
      refine ⟨?_, .of_error (hfrom trivial) (exists_passes_resumeDecl c c) hlt, hlt⟩
      rw [readDecls]
      split
      · simp_all
      · next kind hkind =>
        obtain rfl := Option.some.inj (hpeek.symm.trans hkind)
        first | rfl | split <;> simp_all

theorem declTurn_eq_none {s : Loop Decl} (h : declTurn s = none) : s.place.peek? = none := by
  unfold declTurn at h
  split at h
  case h_1 hpeek => exact hpeek
  case h_2 | h_3 => split at h <;> cases h
  all_goals cases h

/-- What is read behind a turn over statements is what is read before it, and the turn has made
progress. -/
theorem stmtTurn_spec {s s' : Loop Stmt} (h : stmtTurn s = some s') :
    (∀ c hd hd', readStmts s.errors s.seen c s.place hd =
      readStmts s'.errors s'.seen c s'.place hd') ∧
      Progress s.place s.errors s'.place s'.errors ∧ s'.place.size < s.place.size := by
  obtain ⟨errors, seen, d⟩ := s
  unfold stmtTurn at h
  split at h
  case h_1 | h_2 => cases h
  case h_3 hpeek =>
    have hfrom := (stmt_readers_from.2.2.2.2 errors d d.advance
      (Cursor.size_advance_lt hpeek)).before (Cursor.passes_advance hpeek)
    split at h
    · next recorded decl e he hread =>
      cases h
      have hname : d.Reports ⟨.nestedFunction, decl.nameSpan⟩ :=
        ⟨1, d.advance, Cursor.passes_advance hpeek, (readFn_name hread).symm, trivial⟩
      rw [hread] at hfrom
      exact ⟨fun _ _ _ => readStmts_fn hpeek hread, .of_ok_push hfrom hname, he⟩
    · next recorded error stopped kept hread =>
      cases h
      rw [hread] at hfrom
      have hlt := size_resumeStmt_lt (Cursor.size_pos hpeek) kept
      exact ⟨fun _ _ hd' => readStmts_brokenFn hd' hpeek hread,
        .of_error hfrom (exists_passes_resumeStmt d stopped) hlt, hlt⟩
  case h_4 kind hclose hfn hpeek =>
    have hfrom := stmt_readers_from.2.2.1 errors d
    split at h
    · next recorded stmt e he hread =>
      cases h
      rw [hread] at hfrom
      exact ⟨fun _ _ _ => readStmts_stmt hpeek hclose hfn hread, .of_ok hfrom, he⟩
    · next recorded error stopped kept hread =>
      cases h
      rw [hread] at hfrom
      have hlt := size_resumeStmt_lt (Cursor.size_pos hpeek) kept
      exact ⟨fun _ _ hd' => readStmts_brokenStmt hd' hpeek hclose hfn hread,
        .of_error hfrom (exists_passes_resumeStmt d stopped) hlt, hlt⟩

theorem stmtTurn_eq_none {s : Loop Stmt} (h : stmtTurn s = none) :
    s.place.peek? = none ∨ s.place.peek? = some .closeBrace := by
  unfold stmtTurn at h
  split at h
  case h_1 hpeek => exact .inl hpeek
  case h_2 hpeek => exact .inr hpeek
  case h_3 | h_4 => split at h <;> cases h

end Turns

/-! ## Runs -/

namespace Loop

variable {α : Type} {turn : Loop α → Option (Loop α)}

/-- The loop comes from `s` to `s'` by turns. -/
def Turns (turn : Loop α → Option (Loop α)) : Loop α → Loop α → Prop :=
  Relation.ReflTransGen fun s s' => turn s = some s'

theorem Turns.progress
    (hturn : ∀ s s', turn s = some s' → Progress s.place s.errors s'.place s'.errors)
    {s s' : Loop α} (h : Turns turn s s') : Progress s.place s.errors s'.place s'.errors := by
  induction h with
  | refl => exact .refl s.place s.errors
  | tail _ hlast ih => exact ih.trans (hturn _ _ hlast)

/-- A loop ends if every turn of it moves on. -/
theorem exists_turns (hturn : ∀ s s', turn s = some s' → s'.place.size < s.place.size)
    (s : Loop α) : ∃ last, Turns turn s last ∧ turn last = none := by
  induction hsize : s.place.size using Nat.strongRecOn generalizing s with
  | ind n ih =>
    cases hs : turn s with
    | none => exact ⟨s, .refl, hs⟩
    | some s' =>
      obtain ⟨last, hturns, hlast⟩ := ih _ (hsize ▸ hturn s s' hs) s' rfl
      exact ⟨last, .head hs hturns, hlast⟩

end Loop

/-- Reading declarations is a run of the loop over them, to the end of the tokens. -/
theorem readDecls_turns (errors : Array SyntaxError) (seen : List Decl) (c : Cursor) :
    ∃ last : Loop Decl, Loop.Turns declTurn ⟨errors, seen, c⟩ last ∧ last.place.peek? = none ∧
      readDecls errors seen c =
        if last.errors.isEmpty then .ok ⟨last.seen.reverse⟩ else .error last.errors.toList := by
  obtain ⟨last, hturns, hlast⟩ := Loop.exists_turns (fun s s' h => (declTurn_spec h).2.2)
    (⟨errors, seen, c⟩ : Loop Decl)
  have hpeek := declTurn_eq_none hlast
  have hread : readDecls errors seen c = readDecls last.errors last.seen last.place := by
    clear hlast hpeek
    induction hturns with
    | refl => rfl
    | tail _ hstep ih => exact ih.trans (declTurn_spec hstep).1
  refine ⟨last, hturns, hpeek, ?_⟩
  rw [hread, readDecls]
  split
  · rfl
  · simp_all

/-- Reading statements is a run of the loop over them, to the end of the block. -/
theorem readStmts_turns (errors : Array SyntaxError) (seen : List Stmt) (c d : Cursor)
    (hd : d.size < c.size) :
    ∃ last : Loop Stmt, Loop.Turns stmtTurn ⟨errors, seen, d⟩ last ∧
      (last.place.peek? = none ∨ last.place.peek? = some .closeBrace) ∧
      ∃ hlast, readStmts errors seen c d hd =
        ⟨last.errors, last.seen.reverse, last.place, hlast⟩ := by
  obtain ⟨last, hturns, hlast⟩ := Loop.exists_turns (fun s s' h => (stmtTurn_spec h).2.2)
    (⟨errors, seen, d⟩ : Loop Stmt)
  have hpeek := stmtTurn_eq_none hlast
  have hread : ∃ hlast, readStmts errors seen c d hd =
      readStmts last.errors last.seen c last.place hlast := by
    clear hlast hpeek
    induction hturns with
    | refl => exact ⟨hd, rfl⟩
    | tail _ hstep ih =>
      obtain ⟨hb, hread⟩ := ih
      obtain ⟨hsame, -, hlt⟩ := stmtTurn_spec hstep
      exact ⟨Nat.lt_trans hlt hb, hread.trans (hsame c hb _)⟩
  obtain ⟨hlast, hread⟩ := hread
  exact ⟨last, hturns, hpeek, hlast, hread.trans (readStmts_close hpeek)⟩

/-- The errors of a file are reported at its tokens, where what they mend belongs. -/
theorem reports_of_parse {stream : TokenStream} {errors : List SyntaxError}
    (h : parse stream = .error errors) : ∀ e ∈ errors, (Cursor.start stream).Reports e := by
  obtain ⟨last, hturns, -, hread⟩ := readDecls_turns #[] [] (.start stream)
  have hprogress := hturns.progress fun s s' h => (declTurn_spec h).2.1
  obtain ⟨new, hnew, -, hreports⟩ := hprogress.records
  rw [parse, hread] at h
  split at h
  · cases h
  · cases h
    rw [hnew, List.nil_append]
    exact hreports

/-- **Progress.** Every reader that begins in a stream ends there, no less far on. Wherever a turn
of the loop over declarations, or of the loop over the statements of a block, begins, it ends
further on, and keeps the errors recorded before. Both loops end: reading a block in front of a
closing brace or at the end of the stream, reading a file there. The result of reading a file is
an error if and only if errors were recorded, and these are at most as many as there are tokens,
each at the span of a token or of the end. -/
theorem parse_progress (stream : TokenStream) :
    (∀ i d, (Cursor.start stream).Ahead i d →
      (∃ j, i ≤ j ∧ (Cursor.start stream).Ahead j (readExpr d).place) ∧
      ∀ errors, (∃ j, i ≤ j ∧ (Cursor.start stream).Ahead j (readStmt errors d).outcome.place) ∧
        ∀ c hd, ∃ j, i ≤ j ∧ (Cursor.start stream).Ahead j (readFn errors c d hd).outcome.place) ∧
    (∀ i s s', (Cursor.start stream).Ahead i s.place → declTurn s = some s' →
      s.errors.toList <+: s'.errors.toList ∧
        ∃ j, i < j ∧ (Cursor.start stream).Ahead j s'.place) ∧
    (∀ i s s', (Cursor.start stream).Ahead i s.place → stmtTurn s = some s' →
      s.errors.toList <+: s'.errors.toList ∧
        ∃ j, i < j ∧ (Cursor.start stream).Ahead j s'.place) ∧
    (∀ errors seen c d hd i, (Cursor.start stream).Ahead i d →
      ∃ last : Loop Stmt, Loop.Turns stmtTurn ⟨errors, seen, d⟩ last ∧
        (∃ j, i ≤ j ∧ (Cursor.start stream).Ahead j last.place) ∧
        (last.place.peek? = none ∨ last.place.peek? = some .closeBrace) ∧
        ∃ hlast, readStmts errors seen c d hd =
          ⟨last.errors, last.seen.reverse, last.place, hlast⟩) ∧
    ∃ last : Loop Decl, Loop.Turns declTurn ⟨#[], [], .start stream⟩ last ∧
      (Cursor.start stream).Ahead stream.tokens.length last.place ∧
      (parse stream =
        if last.errors.isEmpty then .ok ⟨last.seen.reverse⟩ else .error last.errors.toList) ∧
      last.errors.size ≤ stream.tokens.length ∧ ∀ e ∈ last.errors, e.span ∈ stream.spans := by
  refine ⟨fun i d hd => ⟨(readExpr_from d).further hd, fun errors =>
    ⟨(stmt_readers_from.2.2.1 errors d).outcome.further hd, fun c hc =>
      (stmt_readers_from.2.2.2.2 errors c d hc).outcome.further hd⟩⟩,
    fun i s s' hs h => ?_, fun i s s' hs h => ?_, fun errors seen c d hd i hi => ?_, ?_⟩
  · obtain ⟨-, hprogress, hlt⟩ := declTurn_spec h
    exact hprogress.further hs hlt
  · obtain ⟨-, hprogress, hlt⟩ := stmtTurn_spec h
    exact hprogress.further hs hlt
  · obtain ⟨last, hturns, hpeek, hread⟩ := readStmts_turns errors seen c d hd
    obtain ⟨n, hn⟩ := (hturns.progress fun s s' h => (stmtTurn_spec h).2.1).ahead
    exact ⟨last, hturns, ⟨i + n, Nat.le_add_right i n, hi.trans hn⟩, hpeek, hread⟩
  · obtain ⟨last, hturns, hpeek, hread⟩ := readDecls_turns #[] [] (.start stream)
    have hprogress := hturns.progress fun s s' h => (declTurn_spec h).2.1
    obtain ⟨n, hn⟩ := hprogress.ahead
    obtain ⟨new, hnew, hlength, hreports⟩ := hprogress.records
    have hend : last.place.size = 0 := by
      cases hlast : last.place.rest with
      | nil => simp [Cursor.size, hlast]
      | cons token rest => simp [Cursor.peek?, hlast] at hpeek
    have hall : n = stream.tokens.length := by
      have hadd : last.place.size + n = stream.tokens.length := hn.size_add
      omega
    rw [List.nil_append] at hnew
    refine ⟨last, hturns, hall ▸ hn, hread, ?_, fun e he => ?_⟩
    · rw [← Array.length_toList, hnew]
      exact Nat.le_trans hlength (Nat.sub_le _ _)
    · exact (hreports e (hnew ▸ he.val)).mem_spans

end ScriptMachine
