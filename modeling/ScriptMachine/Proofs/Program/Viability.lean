import ScriptMachine.Proofs.Program.Lookahead
import ScriptMachine.Proofs.Program.Parsing

/-!
# The first impossible token

Where reading an expression stops with an error, what it has read up to there is the beginning of
some expression (`expr_readers_viable`), and as it does not look further, nothing that goes on
with the token at which it stopped is one (`parseExpression_first_impossible`).
-/

namespace ScriptMachine

open Grammar

/-! ## Beginnings -/

namespace Outcome

variable {c d e : Cursor} {α β : Type} {rest : List Token} {P Q : List Token → Prop}

/-- If reading stopped with an error, the tokens of `rest` that it read can be completed to tokens
of which `P` holds. -/
def Viable (rest : List Token) (P : List Token → Prop) (x : Outcome c α) : Prop :=
  ∀ e stopped kept, x = .error e stopped kept → ∃ ts us, rest = ts ++ stopped.rest ∧ P (ts ++ us)

theorem viable_ok {a : α} {next : Cursor} {read : next.size < c.size} :
    (ok a next read).Viable rest P :=
  nofun

theorem viable_fail {fault : SyntaxFault} {hd : d.size ≤ c.size} (h : ∃ us, P us) :
    (fail fault d hd : Outcome c α).Viable d.rest P := by
  intro _ _ _ heq
  cases heq
  obtain ⟨us, hus⟩ := h
  exact ⟨[], us, rfl, hus⟩

/-- What completes a part completes the whole, if the whole can be closed behind the part. -/
theorem Viable.closing {x : Outcome c α} (hx : x.Viable rest P)
    (h : ∀ ts, P ts → ∃ vs, Q (ts ++ vs)) : x.Viable rest Q := by
  intro _ _ _ heq
  obtain ⟨ts, us, hts, hus⟩ := hx _ _ _ heq
  obtain ⟨vs, hvs⟩ := h _ hus
  exact ⟨ts, us ++ vs, hts, by rwa [← List.append_assoc]⟩

theorem Viable.mono {x : Outcome c α} (hx : x.Viable rest P) (h : ∀ ts, P ts → Q ts) :
    x.Viable rest Q :=
  hx.closing fun ts hts => ⟨[], by rw [List.append_nil]; exact h ts hts⟩

theorem Viable.before {x : Outcome c α} (ls : List Token) (hrest : rest = ls ++ d.rest)
    (hx : x.Viable d.rest fun ts => P (ls ++ ts)) : x.Viable rest P := by
  intro _ _ _ heq
  obtain ⟨ts, us, hts, hus⟩ := hx _ _ _ heq
  exact ⟨ls ++ ts, us, by rw [hrest, hts, List.append_assoc], by rwa [List.append_assoc]⟩

theorem Viable.andThen {x : Outcome d α} {h : d.size ≤ c.size}
    {f : α → (b : Cursor) → b.size < d.size → Outcome c β} (hx : x.Viable rest P)
    (hf : ∀ a b hb, x = .ok a b hb → (f a b hb).Viable rest P) :
    (x.andThen h f).Viable rest P := by
  cases x with
  | ok a b hb => exact hf a b hb rfl
  | error error stopped kept =>
    intro _ _ _ heq
    cases heq
    exact hx _ _ _ rfl

end Outcome

open Outcome (Viable viable_ok viable_fail)

section Expectations

variable {c : Cursor} {P : List Token → Prop}

theorem expect_viable {want : TokenKind → Bool} {fault : SyntaxFault} (h : ∃ us, P us) :
    (expect want fault c).Viable c.rest P := by
  by_cases hwant : c.peek?.any want = true
  · obtain ⟨kind, hpeek, -⟩ := Cursor.exists_peek?_of_any hwant
    rw [expect_of_any hwant (Cursor.size_advance_lt hpeek)]
    exact viable_ok
  · rw [expect_of_not_any hwant]
    exact viable_fail h

theorem expectName_viable {role : NameRole} (h : ∃ us, P us) :
    (expectName role c).Viable c.rest P := by
  by_cases hname : ∃ name, c.peek? = some (.name name)
  · obtain ⟨name, hpeek⟩ := hname
    rw [expectName_of_name hpeek (Cursor.size_advance_lt hpeek)]
    exact viable_ok
  · rw [expectName_of_ne (not_exists.1 hname)]
    exact viable_fail h

end Expectations

/-! ## Expressions -/

/-- Where reading an expression stops, what it read so far begins some expression. -/
def ExprViable (c : Cursor) : Prop := (readExpr c).Viable c.rest fun ts => ∃ e, IsExpr ts e

def LevelViable (level : Level) (c : Cursor) : Prop :=
  (readLevel level c).Viable c.rest fun ts => ∃ e, IsLevel level ts e

def OperatorsViable (level : Level) (left : Expr) (c d : Cursor) (hd : d.size < c.size) : Prop :=
  ∀ ls, IsLevel level ls left →
    (readOperators level left c d hd).Viable d.rest fun ts => ∃ e, IsLevel level (ls ++ ts) e

def OperandViable (level : Level) (c : Cursor) : Prop :=
  (readOperand level c).Viable c.rest fun ts => ∃ e, IsOperand level ts e

def SignedViable (c : Cursor) : Prop := (readSigned c).Viable c.rest fun ts => ∃ e, IsSigned ts e

def PrimaryViable (c : Cursor) : Prop :=
  (readPrimary c).Viable c.rest fun ts => ∃ e, IsPrimary ts e

def ItemsViable (close : TokenKind → Bool) (role : ItemRole) (c d : Cursor)
    (hd : d.size < c.size) : Prop :=
  (readItems close role c d hd).Viable d.rest fun ts => ∃ items, IsItems ts items

def ItemsFromViable (close : TokenKind → Bool) (role : ItemRole) (seen : List Expr)
    (c d : Cursor) (hd : d.size < c.size) : Prop :=
  (readItemsFrom close role seen c d hd).Viable d.rest fun ts => ∃ items, IsItemsFrom ts items

def SuffixesViable (base : Expr) (c d : Cursor) (hd : d.size < c.size) : Prop :=
  ∀ bs, IsPrimary bs base →
    (readSuffixes base c d hd).Viable d.rest fun ts => ∃ e, IsPrimary (bs ++ ts) e

section Viable

variable {c d : Cursor} {hd : d.size < c.size} {level : Level}

theorem ExprViable.of (hlevel : LevelViable .disjunction c)
    (hvalue : ∀ d : Cursor, d.size < c.size → ∀ op, d.peek?.bind assignOp? = some op →
      ExprViable d.advance) : ExprViable c := by
  unfold ExprViable
  rw [readExpr]
  refine Viable.andThen (hlevel.mono fun _ => Exists.imp fun _ => .level)
    fun target d hd hread => ?_
  obtain ⟨ts, hts, htarget⟩ := readLevel_sound hread
  split
  · next op hop =>
    obtain ⟨kind, hkind, hrest⟩ := d.rest_of_bind hop
    have hassign : ∀ us, (∃ value, IsExpr us value) →
        ∃ e, IsExpr (ts ++ [⟨kind, d.here⟩] ++ us) e := by
      rintro us ⟨value, hvalue⟩
      rw [List.append_assoc]
      exact ⟨_, .assign htarget (assigns_iff.1 hkind) hvalue⟩
    refine Viable.before (ts ++ [⟨kind, d.here⟩]) (d := d.advance) (by simp [hts, hrest]) ?_
    exact Viable.andThen ((hvalue d hd op hop).mono hassign) fun _ _ _ _ => viable_ok
  · exact viable_ok

theorem LevelViable.of (hoperand : OperandViable level c)
    (hoperators : ∀ left d hd, OperatorsViable level left c d hd) : LevelViable level c := by
  unfold LevelViable
  rw [readLevel]
  refine Viable.andThen (hoperand.mono fun _ => Exists.imp fun _ => .operand)
    fun left d hd hread => ?_
  obtain ⟨ts, hts, hleft⟩ := readOperand_sound hread
  exact Viable.before ts hts (hoperators left d hd ts (.operand hleft))

theorem OperatorsViable.join {left : Expr} {op : Connective}
    (hop : d.peek?.bind level.connective? = some op) (ha : d.advance.size < d.size)
    (hoperand : OperandViable level d.advance)
    (hoperators : ∀ (right : Expr) (e : Cursor), e.size < d.advance.size → ∀ he,
      OperatorsViable level (op.join left right) c e he) :
    OperatorsViable level left c d hd := by
  intro ls hleft
  obtain ⟨kind, hkind, hrest⟩ := d.rest_of_bind hop
  have hjoin := joins_iff.1 hkind
  rw [readOperators_join hop ha]
  refine Viable.before [⟨kind, d.here⟩] (d := d.advance) hrest ?_
  refine Viable.andThen (hoperand.mono fun _ h => h.elim fun _ h => ⟨_, .join hleft hjoin h⟩)
    fun right e he hread => ?_
  obtain ⟨ts, hts, hright⟩ := readOperand_sound hread
  have hjoined : IsLevel level (ls ++ ⟨kind, d.here⟩ :: ts) (op.join left right) :=
    .join hleft hjoin hright
  refine Viable.before ts hts ((hoperators right e he _ _ hjoined).mono ?_)
  simp

theorem OperatorsViable.stop {left : Expr} (hop : d.peek?.bind level.connective? = none) :
    OperatorsViable level left c d hd := by
  intro ls hleft
  rw [readOperators_of_none hop]
  exact viable_ok

theorem OperandViable.tighter {tighter : Level} (hover : level.tighter? = some tighter)
    (hlevel : LevelViable tighter c) : OperandViable level c := by
  unfold OperandViable
  rw [readOperand_tighter hover]
  exact hlevel.mono fun _ => Exists.imp fun _ => .tighter (over_iff.1 hover)

theorem OperandViable.signed (hover : level.tighter? = none) (hsigned : SignedViable c) :
    OperandViable level c := by
  unfold OperandViable
  obtain rfl := eq_product_iff.1 hover
  rw [readOperand_signed hover]
  exact hsigned.mono fun _ => Exists.imp fun _ => .signed

theorem SignedViable.sign {op : UnaryOp} (hop : c.peek?.bind sign? = some op)
    (ha : c.advance.size < c.size) (hsigned : SignedViable c.advance) : SignedViable c := by
  unfold SignedViable
  obtain ⟨kind, hkind, hrest⟩ := c.rest_of_bind hop
  rw [readSigned_sign hop ha]
  refine Viable.before [⟨kind, c.here⟩] (d := c.advance) hrest ?_
  exact Viable.andThen
    (hsigned.mono fun _ h => h.elim fun _ he => ⟨_, .sign (signs_iff.1 hkind) he⟩)
    fun _ _ _ _ => viable_ok

theorem SignedViable.plain (hop : c.peek?.bind sign? = none) (hprimary : PrimaryViable c) :
    SignedViable c := by
  unfold SignedViable
  rw [readSigned_plain hop]
  exact hprimary.mono fun _ => Exists.imp fun _ => .plain

/-- What is to be closed can be closed, and behind that suffixes can follow. -/
theorem closed_viable {want : TokenKind → Bool} {fault : SyntaxFault} {kind : TokenKind}
    {value : Span → Expr} {h : d.size ≤ c.size}
    {hlt : ∀ e : Cursor, e.size < d.size → e.size < c.size} (ls : List Token)
    (hwant : ∀ {other}, want other = true → other = kind)
    (hclosed : ∀ close, IsPrimary (ls ++ [⟨kind, close⟩]) (value close))
    (hsuffixes : ∀ close e he, SuffixesViable (value close) c e (hlt e he)) :
    ((expect want fault d).andThen h fun close e he =>
      readSuffixes (value close) c e (hlt e he)).Viable d.rest fun ts =>
        ∃ e, IsPrimary (ls ++ ts) e := by
  refine Viable.andThen (expect_viable ⟨_, _, hclosed d.here⟩) fun close e he hclose => ?_
  obtain ⟨other, hother, hrest⟩ := expect_sound hclose
  obtain rfl := hwant hother
  refine Viable.before [⟨other, close⟩] hrest ((hsuffixes close e he _ (hclosed close)).mono ?_)
  simp

theorem PrimaryViable.group (hpeek : c.peek? = some .openParen)
    (ha : c.advance.size < c.size) (hexpr : ExprViable c.advance)
    (hsuffixes : ∀ (inner : Expr) (d : Cursor), d.size < c.advance.size →
      ∀ close (e : Cursor), e.size < d.size → ∀ he,
      SuffixesViable (inner.withSpan (c.here.upTo close)) c e he) : PrimaryViable c := by
  unfold PrimaryViable
  rw [readPrimary_group hpeek ha]
  refine Viable.before [⟨.openParen, c.here⟩] (d := c.advance) (c.rest_of_peek? hpeek) ?_
  refine Viable.andThen (hexpr.closing fun _ h => h.elim fun _ he =>
    ⟨[⟨.closeParen, c.here⟩], _, .group he⟩) fun inner d hd hread => ?_
  obtain ⟨ts, hts, hinner⟩ := readExpr_sound hread
  exact Viable.before ts hts (closed_viable (⟨.openParen, c.here⟩ :: ts) eq_closeParen
    (fun _ => .group hinner) fun close e he => hsuffixes inner d hd close e he _)

theorem PrimaryViable.list (hpeek : c.peek? = some .openBracket)
    (ha : c.advance.size < c.size)
    (hitems : ItemsViable TokenKind.isCloseBracket .element c c.advance ha)
    (hsuffixes : ∀ (items : List Expr) (d : Cursor), d.size < c.size →
      ∀ close (e : Cursor), e.size < d.size → ∀ he,
      SuffixesViable (.list items (c.here.upTo close)) c e he) : PrimaryViable c := by
  unfold PrimaryViable
  rw [readPrimary_list hpeek ha]
  refine Viable.before [⟨.openBracket, c.here⟩] (d := c.advance) (c.rest_of_peek? hpeek) ?_
  refine Viable.andThen (hitems.closing fun _ h => h.elim fun _ hitems =>
    ⟨[⟨.closeBracket, c.here⟩], _, .list hitems⟩) fun items d hd hread => ?_
  obtain ⟨ts, hts, hlist⟩ := readItems_sound hread
  exact Viable.before ts hts (closed_viable (⟨.openBracket, c.here⟩ :: ts) eq_closeBracket
    (fun _ => .list hlist) fun close e he => hsuffixes items d hd close e he _)

theorem PrimaryViable.atom {kind : TokenKind} {atom : Expr} (hpeek : c.peek? = some kind)
    (hatom : atom? kind c.here = some atom)
    (hsuffixes : ∀ ha, SuffixesViable atom c c.advance ha) : PrimaryViable c := by
  unfold PrimaryViable
  rw [readPrimary_atom hpeek hatom (Cursor.size_advance_lt hpeek)]
  exact Viable.before [⟨kind, c.here⟩] (c.rest_of_peek? hpeek)
    (hsuffixes _ _ (.atom (isAtom_iff.1 hatom)))

theorem PrimaryViable.noAtom {kind : TokenKind} (hparen : kind ≠ .openParen)
    (hbracket : kind ≠ .openBracket) (hpeek : c.peek? = some kind)
    (hatom : atom? kind c.here = none) : PrimaryViable c := by
  unfold PrimaryViable
  rw [readPrimary_noAtom hparen hbracket hpeek hatom]
  exact viable_fail ⟨[⟨.nullKw, c.here⟩], _, .atom (.null _)⟩

theorem PrimaryViable.atEnd (hpeek : c.peek? = none) : PrimaryViable c := by
  unfold PrimaryViable
  rw [readPrimary_atEnd hpeek]
  exact viable_fail ⟨[⟨.nullKw, c.here⟩], _, .atom (.null _)⟩

theorem ItemsViable.none {close : TokenKind → Bool} {role : ItemRole}
    (hclose : d.peek?.any close = true) : ItemsViable close role c d hd := by
  unfold ItemsViable
  rw [readItems, if_pos hclose]
  exact viable_ok

theorem ItemsViable.some {close : TokenKind → Bool} {role : ItemRole}
    (hclose : ¬d.peek?.any close = true) (hfrom : ItemsFromViable close role [] c d hd) :
    ItemsViable close role c d hd := by
  unfold ItemsViable
  rw [readItems, if_neg hclose]
  exact hfrom.mono fun _ => Exists.imp fun _ => .some

theorem ItemsFromViable.of {close : TokenKind → Bool} {role : ItemRole} {seen : List Expr}
    (hexpr : ExprViable d)
    (hmore : ∀ (item : Expr) (e : Cursor), e.size < d.size → e.peek? = some .comma → ∀ he,
      ItemsFromViable close role (item :: seen) c e.advance he) :
    ItemsFromViable close role seen c d hd := by
  unfold ItemsFromViable
  rw [readItemsFrom]
  refine Viable.andThen (hexpr.mono fun _ h => h.elim fun e he => ⟨[e], .last he⟩)
    fun item e he hread => ?_
  obtain ⟨ts, hts, hitem⟩ := readExpr_sound hread
  split
  · next hcomma =>
    have hcons : ∀ us, (∃ items, IsItemsFrom us items) →
        ∃ items, IsItemsFrom (ts ++ [⟨.comma, e.here⟩] ++ us) items := by
      rintro us ⟨items, hitems⟩
      rw [List.append_assoc]
      exact ⟨item :: items, .cons hitem hitems⟩
    refine Viable.before (ts ++ [⟨.comma, e.here⟩]) (d := e.advance)
      (by simp [hts, e.rest_of_peek? hcomma]) ?_
    exact (hmore item e he hcomma _).mono hcons
  · split
    · refine Viable.before ts hts (viable_fail ⟨[], [item], ?_⟩)
      rw [List.append_nil]
      exact .last hitem
    · exact viable_ok
  · exact viable_ok

theorem SuffixesViable.call {base : Expr} (hpeek : d.peek? = some .openParen)
    (ha : d.advance.size < d.size)
    (hitems : ItemsViable TokenKind.isCloseParen .argument d d.advance ha)
    (hsuffixes : ∀ (args : List Expr) (e : Cursor), e.size < d.size →
      ∀ close (f : Cursor), f.size < e.size → ∀ hf,
      SuffixesViable (.call base args (base.span.upTo close)) c f hf) :
    SuffixesViable base c d hd := by
  intro bs hbase
  have hcall : ∀ us args close, IsItems us args →
      IsPrimary (bs ++ ⟨.openParen, d.here⟩ :: us ++ [⟨.closeParen, close⟩])
        (.call base args (base.span.upTo close)) := fun _ _ _ => .call hbase
  rw [readSuffixes_call hpeek ha]
  refine Viable.before [⟨.openParen, d.here⟩] (d := d.advance) (d.rest_of_peek? hpeek) ?_
  refine Viable.andThen (hitems.closing fun ts h => h.elim fun args h =>
    ⟨[⟨.closeParen, d.here⟩], _, by simpa using hcall ts args d.here h⟩) fun args e he hread => ?_
  obtain ⟨ts, hts, hargs⟩ := readItems_sound hread
  refine Viable.before ts hts (Viable.mono (closed_viable _ eq_closeParen
    (fun close => hcall ts args close hargs) fun close f hf => hsuffixes args e he close f hf _) ?_)
  simp

theorem SuffixesViable.index {base : Expr} (hpeek : d.peek? = some .openBracket)
    (ha : d.advance.size < d.size) (hexpr : ExprViable d.advance)
    (hsuffixes : ∀ (index : Expr) (e : Cursor), e.size < d.advance.size →
      ∀ close (f : Cursor), f.size < e.size → ∀ hf,
      SuffixesViable (.index base index (base.span.upTo close)) c f hf) :
    SuffixesViable base c d hd := by
  intro bs hbase
  have hindexed : ∀ us index close, IsExpr us index →
      IsPrimary (bs ++ ⟨.openBracket, d.here⟩ :: us ++ [⟨.closeBracket, close⟩])
        (.index base index (base.span.upTo close)) := fun _ _ _ => .index hbase
  rw [readSuffixes_index hpeek ha]
  refine Viable.before [⟨.openBracket, d.here⟩] (d := d.advance) (d.rest_of_peek? hpeek) ?_
  refine Viable.andThen (hexpr.closing fun ts h => h.elim fun index h =>
    ⟨[⟨.closeBracket, d.here⟩], _, by simpa using hindexed ts index d.here h⟩)
    fun index e he hread => ?_
  obtain ⟨ts, hts, hindex⟩ := readExpr_sound hread
  refine Viable.before ts hts (Viable.mono (closed_viable _ eq_closeBracket
    (fun close => hindexed ts index close hindex)
    fun close f hf => hsuffixes index e he close f hf _) ?_)
  simp

theorem SuffixesViable.property {base : Expr} (hpeek : d.peek? = some .dot)
    (ha : d.advance.size < d.size)
    (hsuffixes : ∀ (name : String × Span) (e : Cursor), e.size < d.advance.size → ∀ he,
      SuffixesViable (.property base name.1 (base.span.upTo name.2)) c e he) :
    SuffixesViable base c d hd := by
  intro bs hbase
  have hname : ∀ name span, IsPrimary (bs ++ [⟨.dot, d.here⟩, ⟨.name name, span⟩])
      (.property base name (base.span.upTo span)) := fun _ _ => .property hbase
  rw [readSuffixes_property hpeek ha]
  refine Viable.before [⟨.dot, d.here⟩] (d := d.advance) (d.rest_of_peek? hpeek) (Viable.andThen
    (expectName_viable ⟨[⟨.name "", d.here⟩], _, hname "" d.here⟩) fun name e he hread => ?_)
  refine Viable.before [⟨.name name.1, name.2⟩] (expectName_sound hread)
    ((hsuffixes name e he _ _ (hname name.1 name.2)).mono ?_)
  simp

theorem SuffixesViable.bare {base : Expr} (hparen : d.peek? ≠ some .openParen)
    (hbracket : d.peek? ≠ some .openBracket) (hdot : d.peek? ≠ some .dot) :
    SuffixesViable base c d hd := by
  intro bs hbase
  rw [readSuffixes_of_ne hparen hbracket hdot]
  exact viable_ok

end Viable

/-- Where a reader of expressions stops, what it read so far can be completed to what it was to
read. -/
theorem expr_readers_viable :
    (∀ c, ExprViable c) ∧ (∀ level c, LevelViable level c) ∧
      (∀ level left c d hd, OperatorsViable level left c d hd) ∧
      (∀ level c, OperandViable level c) ∧ (∀ c, SignedViable c) ∧ (∀ c, PrimaryViable c) ∧
      (∀ close role c d hd, ItemsViable close role c d hd) ∧
      (∀ close role seen c d hd, ItemsFromViable close role seen c d hd) ∧
      ∀ base c d hd, SuffixesViable base c d hd := by
  refine readExpr.mutual_induct ExprViable LevelViable OperatorsViable OperandViable
    SignedViable PrimaryViable ItemsViable ItemsFromViable SuffixesViable
    ?expr ?level ?join ?stop ?tighter ?signed ?sign ?plain ?group ?list ?atom ?noAtom ?atEnd
    ?none ?some ?items ?call ?index ?property ?bare
  case expr => exact fun _ hlevel hvalue => .of hlevel hvalue
  case level => exact fun _ _ hoperand hoperators => .of hoperand hoperators
  case join =>
    exact fun _ _ _ _ _ _ hop ha hoperand hoperators =>
      .join hop ha hoperand fun right e he _ => hoperators right e he
  case stop => exact fun _ _ _ _ _ hop => .stop hop
  case tighter => exact fun _ _ _ hover _ hlevel => .tighter hover hlevel
  case signed => exact fun _ _ hover hsigned => .signed hover hsigned
  case sign => exact fun _ _ hop ha hsigned => .sign hop ha hsigned
  case plain => exact fun _ hop hprimary => .plain hop hprimary
  case group =>
    exact fun _ hpeek ha hexpr hsuffixes =>
      .group hpeek ha hexpr fun inner d hd close e he _ => hsuffixes inner d hd close e he
  case list =>
    exact fun _ hpeek ha hitems hsuffixes =>
      .list hpeek ha hitems fun items d hd close e he _ => hsuffixes items d hd close e he
  case atom =>
    exact fun _ _ _ _ hpeek _ hatom hsuffixes => .atom hpeek hatom fun _ => hsuffixes
  case noAtom =>
    exact fun _ _ hparen hbracket hpeek hatom => .noAtom hparen hbracket hpeek hatom
  case atEnd => exact fun _ hpeek => .atEnd hpeek
  case none => exact fun _ _ _ _ _ hclose => .none hclose
  case some => exact fun _ _ _ _ _ hclose hfrom => .some hclose hfrom
  case items =>
    exact fun _ _ _ _ _ _ hexpr hmore => .of hexpr fun item e he hcomma _ => hmore item e he hcomma
  case call =>
    exact fun _ _ _ _ hpeek ha hitems hsuffixes =>
      .call hpeek ha hitems fun args e he close f hf _ => hsuffixes args e he close f hf
  case index =>
    exact fun _ _ _ _ hpeek ha hexpr hsuffixes =>
      .index hpeek ha hexpr fun index e he close f hf _ => hsuffixes index e he close f hf
  case property =>
    exact fun _ _ _ _ hpeek ha hsuffixes =>
      .property hpeek ha fun name e he _ => hsuffixes name e he
  case bare => exact fun _ _ _ _ hparen hbracket hdot => .bare hparen hbracket hdot

/-! ## Whole streams -/

/-- The kinds of the tokens of a stream, and last the end, which is of no kind. -/
def TokenStream.kinds (stream : TokenStream) : List (Option TokenKind) :=
  stream.tokens.map (fun token => some token.kind) ++ [none]

section Streams

variable {stream other : TokenStream} {n : Nat}

theorem TokenStream.getElem?_kinds (h : n ≤ stream.tokens.length) :
    stream.kinds[n]? = some (stream.tokens[n]?.map Token.kind) := by
  unfold kinds
  rcases Nat.lt_or_eq_of_le h with hlt | rfl
  · rw [List.getElem?_append_left (by rwa [List.length_map])]
    simp [hlt]
  · simp

/-- Streams that begin with the same kinds agree from their starts on. -/
theorem Cursor.agree_start (hn : n ≤ stream.tokens.length)
    (h : stream.kinds.take (n + 1) <+: other.kinds) : (start stream).Agree n (start other) := by
  intro i hi
  obtain ⟨more, hmore⟩ := h
  have hkinds : other.kinds[i]? = some (stream.tokens[i]?.map Token.kind) := by
    have hlt : i < (stream.kinds.take (n + 1)).length := by
      simp only [TokenStream.kinds, List.length_take, List.length_append, List.length_map,
        List.length_singleton]
      omega
    rw [← hmore, List.getElem?_append_left hlt, List.getElem?_take_of_lt (Nat.lt_succ_of_le hi),
      TokenStream.getElem?_kinds (Nat.le_trans hi hn)]
  have hlength := (List.getElem?_eq_some_iff.1 hkinds).1
  rw [TokenStream.kinds, List.length_append, List.length_map, List.length_singleton] at hlength
  rw [TokenStream.getElem?_kinds (Nat.le_of_lt_succ hlength)] at hkinds
  exact (Option.some.inj hkinds).symm

/-- A stream is accepted if an expression is read from it, and nothing is left. -/
theorem readExpr_of_parseExpression {value : Expr} (h : parseExpression stream = .ok value) :
    ∃ next read, readExpr (.start stream) = .ok value next read ∧ next.peek? = none := by
  unfold parseExpression at h
  split at h
  · next next read hread =>
    split at h
    · next hempty =>
      cases h
      exact ⟨next, read, hread, by simp [Cursor.peek?, List.isEmpty_iff.1 hempty]⟩
    · cases h
  · cases h

/-- An error is reported at the token where reading an expression stopped. -/
theorem span_of_parseExpression {e : SyntaxError} (h : parseExpression stream = .error e) :
    e.span = (readExpr (.start stream)).place.here := by
  unfold parseExpression at h
  split at h
  · next next read hread =>
    split at h
    · cases h
    · cases h
      rw [hread]
      rfl
  · next error stopped kept hread =>
    cases h
    rw [hread]
    exact (readExpr_from _).here hread

/-- The tokens before the one at which reading an expression stopped begin an expression. -/
theorem exists_completion (stream : TokenStream) :
    ∃ ts us e, stream.tokens = ts ++ (readExpr (.start stream)).place.rest ∧
      IsExpr (ts ++ us) e := by
  cases hread : readExpr (.start stream) with
  | ok value next read =>
    obtain ⟨ts, hts, he⟩ := readExpr_sound hread
    exact ⟨ts, [], value, hts, by rwa [List.append_nil]⟩
  | error error stopped kept =>
    obtain ⟨ts, us, hts, e, he⟩ := expr_readers_viable.1 (.start stream) _ _ _ hread
    exact ⟨ts, us, e, hts, he⟩

/-- No stream that begins with the kinds up to the token at which reading another stopped with an
error is accepted. -/
theorem parseExpression_ne_ok {e : SyntaxError} {value : Expr}
    (h : parseExpression stream = .error e)
    (hplace : (Cursor.start stream).Ahead n (readExpr (.start stream)).place)
    (hbegins : stream.kinds.take (n + 1) <+: other.kinds) : parseExpression other ≠ .ok value := by
  intro hok
  have hagree := Cursor.agree_start hplace.inside hbegins
  obtain ⟨next', read', hread', hend⟩ := readExpr_of_parseExpression hok
  obtain ⟨hsame, hplace'⟩ := expr_readers_mirror.1 _ (.start other) n hplace hagree
  have hpeek := (Cursor.Agree.ahead (n := n) (m := 0) hagree hplace hplace').peek?
  cases hread : readExpr (.start stream) with
  | ok value next read =>
    rw [hread, hread'] at hpeek
    have hnext : next.rest.isEmpty = true := by
      have hnone : next.peek? = none := hpeek.trans hend
      rw [Cursor.peek?, Option.map_eq_none_iff, List.head?_eq_none_iff] at hnone
      rw [hnone, List.isEmpty_nil]
    simp [parseExpression, hread, hnext] at h
  | error error stopped kept =>
    rw [hread, hread'] at hsame
    cases hsame

/-- **The first impossible token.** If no expression makes up a stream, the error is reported at
the token, or the end, at which reading it stopped. The kinds before that token begin a stream that
an expression makes up, and with its kind they do not. -/
theorem parseExpression_first_impossible {e : SyntaxError}
    (h : parseExpression stream = .error e) :
    ∃ i, (Cursor.start stream).Ahead i (readExpr (.start stream)).place ∧
      stream.spans[i]? = some e.span ∧
      (∃ other value, stream.kinds.take i <+: other.kinds ∧ parseExpression other = .ok value) ∧
      ∀ other value, stream.kinds.take (i + 1) <+: other.kinds →
        parseExpression other ≠ .ok value := by
  obtain ⟨i, hplace⟩ := (readExpr_from (.start stream)).ahead
  obtain ⟨ts, us, value, hts, hvalue⟩ := exists_completion stream
  refine ⟨i, hplace, ?_, ⟨⟨ts ++ us, stream.stop⟩, value, ?_, parseExpression_iff.2 hvalue⟩,
    fun other value hbegins => parseExpression_ne_ok h hplace hbegins⟩
  · rw [span_of_parseExpression h]
    exact Cursor.getElem?_spans hplace
  · have hlength : i = ts.length := by
      have hsize : (readExpr (.start stream)).place.rest.length + i = stream.tokens.length :=
        hplace.size_add
      rw [hts, List.length_append] at hsize
      omega
    refine ⟨us.map (fun token => some token.kind) ++ [none], ?_⟩
    simp [TokenStream.kinds, hts, hlength]

end Streams

/-- A parenthesis that is not closed is noticed at the end. -/
theorem parseExpression_first_impossible_demo :
    let stream : TokenStream :=
      ⟨[⟨.openParen, ⟨1, 1⟩, ⟨1, 2⟩⟩, ⟨.nullKw, ⟨1, 2⟩, ⟨1, 6⟩⟩], ⟨1, 6⟩⟩
    let e : SyntaxError := ⟨.insertion (.closeParen .group) ⟨1, 6⟩, .point ⟨1, 6⟩⟩
    parseExpression stream = .error e ∧
      ∃ i, (Cursor.start stream).Ahead i (readExpr (.start stream)).place ∧
        stream.spans[i]? = some e.span ∧
        (∃ other value, stream.kinds.take i <+: other.kinds ∧ parseExpression other = .ok value) ∧
        ∀ other value, stream.kinds.take (i + 1) <+: other.kinds →
          parseExpression other ≠ .ok value := by
  intro stream e
  have h : parseExpression stream = .error e := by cbv
  exact ⟨h, parseExpression_first_impossible h⟩

end ScriptMachine
