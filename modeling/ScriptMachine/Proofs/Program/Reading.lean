import ScriptMachine.Proofs.Program.Branches
import ScriptMachine.Proofs.Program.Grammar

/-!
# Reading expressions follows the grammar

What the readers of expressions accept is an expression of the grammar, with the
tree that they return (`readExpr_sound`), and an expression of the grammar is read
whole if no token behind it could go on with it (`Grammar.IsExpr.read`).
-/

namespace ScriptMachine

/-! ## Cursors and outcomes -/

namespace Cursor

variable {c : Cursor} {kind : TokenKind} {span : Span} {rest : List Token}

theorem rest_of_peek? (h : c.peek? = some kind) : c.rest = ⟨kind, c.here⟩ :: c.advance.rest := by
  unfold peek? at h
  unfold here advance
  cases hrest : c.rest with
  | nil => simp [hrest] at h
  | cons token rest =>
    rw [hrest] at h
    cases h
    rfl

theorem rest_of_bind {α : Type} {f : TokenKind → Option α} {a : α}
    (h : c.peek?.bind f = some a) :
    ∃ kind, f kind = some a ∧ c.rest = ⟨kind, c.here⟩ :: c.advance.rest := by
  obtain ⟨kind, hkind, hf⟩ := Option.bind_eq_some_iff.1 h
  exact ⟨kind, hf, rest_of_peek? hkind⟩

theorem peek?_of_rest (h : c.rest = ⟨kind, span⟩ :: rest) : c.peek? = some kind := by
  simp [peek?, h]

theorem here_of_rest (h : c.rest = ⟨kind, span⟩ :: rest) : c.here = span := by
  simp [here, h]

theorem rest_advance (h : c.rest = ⟨kind, span⟩ :: rest) : c.advance.rest = rest := by
  simp [advance, h]

end Cursor

namespace Outcome

variable {c d : Cursor} {α β : Type}

/-- The outcome is a value, with the tokens `rest` behind it. -/
def Gives (x : Outcome c α) (value : α) (rest : List Token) : Prop :=
  ∃ next read, x = .ok value next read ∧ next.rest = rest

theorem gives_ok {value : α} {next : Cursor} {read : next.size < c.size} :
    (ok value next read).Gives value next.rest :=
  ⟨next, read, rfl, rfl⟩

theorem gives_ok_iff {value value' : α} {next : Cursor} {read : next.size < c.size}
    {rest : List Token} :
    (ok value next read).Gives value' rest ↔ value = value' ∧ next.rest = rest := by
  constructor
  · rintro ⟨_, _, heq, hrest⟩
    cases heq
    exact ⟨rfl, hrest⟩
  · rintro ⟨rfl, rfl⟩
    exact gives_ok

theorem not_gives_fail {fault : SyntaxFault} {h : d.size ≤ c.size} {value : α}
    {rest : List Token} : ¬(fail fault d h : Outcome c α).Gives value rest := by
  rintro ⟨_, _, heq, _⟩
  cases heq

theorem andThen_gives_iff {x : Outcome d α} {h : d.size ≤ c.size}
    {f : α → (e : Cursor) → e.size < d.size → Outcome c β} {value : β} {rest : List Token} :
    (x.andThen h f).Gives value rest ↔
      ∃ a e he, x = .ok a e he ∧ (f a e he).Gives value rest := by
  cases x with
  | ok a e he =>
    constructor
    · exact fun hf => ⟨a, e, he, rfl, hf⟩
    · rintro ⟨_, _, _, heq, hf⟩
      cases heq
      exact hf
  | error error stopped kept =>
    constructor
    · rintro ⟨_, _, heq, _⟩
      cases heq
    · rintro ⟨_, _, _, heq, _⟩
      cases heq

/-- Goes on behind a value that is read. -/
theorem Gives.andThen {x : Outcome d α} {h : d.size ≤ c.size}
    {f : α → (e : Cursor) → e.size < d.size → Outcome c β} {a : α} {value : β}
    {rest rest' : List Token} (hx : x.Gives a rest)
    (hf : ∀ e he, e.rest = rest → (f a e he).Gives value rest') :
    (x.andThen h f).Gives value rest' := by
  obtain ⟨e, he, rfl, hrest⟩ := hx
  exact hf e he hrest

end Outcome

section Expect

variable {c : Cursor} {want : TokenKind → Bool} {fault : SyntaxFault}

theorem expect_sound {span : Span} {next : Cursor} {read : next.size < c.size}
    (h : expect want fault c = .ok span next read) :
    ∃ kind, want kind = true ∧ c.rest = ⟨kind, span⟩ :: next.rest := by
  unfold expect at h
  split at h
  · next kind hpeek =>
    split at h
    · next hwant =>
      cases h
      exact ⟨kind, hwant, c.rest_of_peek? hpeek⟩
    · cases h
  · cases h

theorem expect_gives {kind : TokenKind} {span : Span} {rest : List Token}
    (h : c.rest = ⟨kind, span⟩ :: rest) (hwant : want kind = true) :
    (expect want fault c).Gives span rest := by
  unfold expect
  split
  · next kind' hpeek =>
    obtain rfl : kind = kind' := by
      rw [Cursor.peek?_of_rest h] at hpeek
      exact Option.some.inj hpeek
    rw [if_pos hwant, Outcome.gives_ok_iff]
    exact ⟨Cursor.here_of_rest h, Cursor.rest_advance h⟩
  · next hpeek =>
    rw [Cursor.peek?_of_rest h] at hpeek
    cases hpeek

theorem expectCloseParen_gives {role : ParenRole} {span : Span} {rest : List Token}
    (h : c.rest = ⟨.closeParen, span⟩ :: rest) : (expectCloseParen role c).Gives span rest :=
  expect_gives h rfl

theorem expectCloseBracket_gives {role : BracketRole} {span : Span} {rest : List Token}
    (h : c.rest = ⟨.closeBracket, span⟩ :: rest) : (expectCloseBracket role c).Gives span rest :=
  expect_gives h rfl

theorem expectName_sound {role : NameRole} {name : String × Span} {next : Cursor}
    {read : next.size < c.size} (h : expectName role c = .ok name next read) :
    c.rest = ⟨.name name.1, name.2⟩ :: next.rest := by
  unfold expectName at h
  split at h
  · next hpeek =>
    cases h
    exact c.rest_of_peek? hpeek
  · cases h
  · cases h

theorem expectName_gives {role : NameRole} {name : String} {span : Span} {rest : List Token}
    (h : c.rest = ⟨.name name, span⟩ :: rest) :
    (expectName role c).Gives (name, span) rest := by
  unfold expectName
  split
  · next name' hpeek =>
    obtain rfl : name = name' := by
      rw [Cursor.peek?_of_rest h] at hpeek
      cases hpeek
      rfl
    rw [Outcome.gives_ok_iff]
    exact ⟨by rw [Cursor.here_of_rest h], Cursor.rest_advance h⟩
  · next hother hpeek =>
    rw [Cursor.peek?_of_rest h] at hpeek
    exact absurd (Option.some.inj hpeek).symm (hother name)
  · next hpeek =>
    rw [Cursor.peek?_of_rest h] at hpeek
    cases hpeek

end Expect

/-! ## The tables of the readers -/

namespace Grammar

theorem over_iff {level tighter : Level} : level.tighter? = some tighter ↔ Over level tighter := by
  constructor
  · intro h
    cases level <;> cases h <;> constructor
  · rintro ⟨⟩ <;> rfl

theorem eq_product_iff {level : Level} : level.tighter? = none ↔ level = .product := by
  cases level <;> simp [Level.tighter?]

theorem joins_iff {level : Level} {kind : TokenKind} {op : Connective} :
    level.connective? kind = some op ↔ Joins level kind op := by
  constructor
  · intro h
    cases level <;> cases kind <;> cases h <;> constructor
  · rintro ⟨⟩ <;> rfl

theorem signs_iff {kind : TokenKind} {op : UnaryOp} : sign? kind = some op ↔ Signs kind op := by
  constructor
  · intro h
    cases kind <;> cases h <;> constructor
  · rintro ⟨⟩ <;> rfl

theorem assigns_iff {kind : TokenKind} {op : AssignOp} :
    assignOp? kind = some op ↔ Assigns kind op := by
  constructor
  · intro h
    cases kind <;> cases h <;> constructor
  · rintro ⟨⟩ <;> rfl

theorem isAtom_iff {kind : TokenKind} {span : Span} {e : Expr} :
    atom? kind span = some e ↔ IsAtom ⟨kind, span⟩ e := by
  constructor
  · intro h
    cases kind <;> cases h <;> constructor
  · rintro ⟨⟩ <;> rfl

theorem eq_closeParen {kind : TokenKind} (h : kind.isCloseParen = true) : kind = .closeParen := by
  cases kind <;> cases h
  rfl

theorem eq_closeBracket {kind : TokenKind} (h : kind.isCloseBracket = true) :
    kind = .closeBracket := by
  cases kind <;> cases h
  rfl

end Grammar

/-! ## What is read is an expression -/

open Grammar

/-- What `readExpr` reads at a cursor is an expression. -/
def ExprSound (c : Cursor) : Prop :=
  ∀ e rest, (readExpr c).Gives e rest → ∃ ts, c.rest = ts ++ rest ∧ IsExpr ts e

def LevelSound (level : Level) (c : Cursor) : Prop :=
  ∀ e rest, (readLevel level c).Gives e rest → ∃ ts, c.rest = ts ++ rest ∧ IsLevel level ts e

/-- What is read behind an expression of a level makes up one together with it. -/
def OperatorsSound (level : Level) (left : Expr) (c d : Cursor) (hd : d.size < c.size) : Prop :=
  ∀ e rest ls, IsLevel level ls left → (readOperators level left c d hd).Gives e rest →
    ∃ ts, d.rest = ts ++ rest ∧ IsLevel level (ls ++ ts) e

def OperandSound (level : Level) (c : Cursor) : Prop :=
  ∀ e rest, (readOperand level c).Gives e rest →
    ∃ ts, c.rest = ts ++ rest ∧ IsOperand level ts e

def SignedSound (c : Cursor) : Prop :=
  ∀ e rest, (readSigned c).Gives e rest → ∃ ts, c.rest = ts ++ rest ∧ IsSigned ts e

def PrimarySound (c : Cursor) : Prop :=
  ∀ e rest, (readPrimary c).Gives e rest → ∃ ts, c.rest = ts ++ rest ∧ IsPrimary ts e

def ItemsSound (close : TokenKind → Bool) (role : ItemRole) (c d : Cursor)
    (hd : d.size < c.size) : Prop :=
  ∀ items rest, (readItems close role c d hd).Gives items rest →
    ∃ ts, d.rest = ts ++ rest ∧ IsItems ts items

/-- The members that are read come behind those that were seen. -/
def ItemsFromSound (close : TokenKind → Bool) (role : ItemRole) (seen : List Expr) (c d : Cursor)
    (hd : d.size < c.size) : Prop :=
  ∀ items rest, (readItemsFrom close role seen c d hd).Gives items rest →
    ∃ ts new, d.rest = ts ++ rest ∧ IsItemsFrom ts new ∧ items = seen.reverse ++ new

def SuffixesSound (base : Expr) (c d : Cursor) (hd : d.size < c.size) : Prop :=
  ∀ e rest bs, IsPrimary bs base → (readSuffixes base c d hd).Gives e rest →
    ∃ ts, d.rest = ts ++ rest ∧ IsPrimary (bs ++ ts) e

section Sound

variable {c d : Cursor} {hd : d.size < c.size} {level : Level}

theorem ExprSound.of (hlevel : LevelSound .disjunction c)
    (hvalue : ∀ d : Cursor, d.size < c.size → ∀ op, d.peek?.bind assignOp? = some op →
      ExprSound d.advance) : ExprSound c := by
  intro e rest h
  rw [readExpr, Outcome.andThen_gives_iff] at h
  obtain ⟨target, d, hd, htarget, h⟩ := h
  obtain ⟨ts, hts, htarget⟩ := hlevel _ _ ⟨d, hd, htarget, rfl⟩
  split at h
  · next op hop =>
    obtain ⟨kind, hkind, hrest⟩ := d.rest_of_bind hop
    obtain ⟨value, f, hf, hread, h⟩ := Outcome.andThen_gives_iff.1 h
    obtain ⟨rfl, rfl⟩ := Outcome.gives_ok_iff.1 h
    obtain ⟨us, hus, hvalue⟩ := hvalue d hd op hop _ _ ⟨f, hf, hread, rfl⟩
    refine ⟨ts ++ ⟨kind, d.here⟩ :: us, ?_, .assign htarget (assigns_iff.1 hkind) hvalue⟩
    rw [hts, hrest, hus, List.append_assoc]
    rfl
  · obtain ⟨rfl, rfl⟩ := Outcome.gives_ok_iff.1 h
    exact ⟨ts, hts, .level htarget⟩

theorem LevelSound.of (hoperand : OperandSound level c)
    (hoperators : ∀ left d hd, OperatorsSound level left c d hd) : LevelSound level c := by
  intro e rest h
  rw [readLevel, Outcome.andThen_gives_iff] at h
  obtain ⟨left, d, hd, hleft, h⟩ := h
  obtain ⟨ts, hts, hleft⟩ := hoperand _ _ ⟨d, hd, hleft, rfl⟩
  obtain ⟨us, hus, he⟩ := hoperators left d hd _ _ _ (.operand hleft) h
  exact ⟨ts ++ us, by rw [hts, hus, List.append_assoc], he⟩

theorem OperatorsSound.join {left : Expr} {op : Connective}
    (hop : d.peek?.bind level.connective? = some op) (hoperand : OperandSound level d.advance)
    (hoperators : ∀ (right : Expr) (e : Cursor), e.size < d.advance.size → ∀ he,
      OperatorsSound level (op.join left right) c e he) :
    OperatorsSound level left c d hd := by
  intro e rest ls hleft h
  obtain ⟨kind, hkind, hrest⟩ := d.rest_of_bind hop
  rw [readOperators_join hop (Cursor.size_advance_lt_of_bind hop)] at h
  obtain ⟨right, f, hf, hright, h⟩ := Outcome.andThen_gives_iff.1 h
  obtain ⟨us, hus, hright⟩ := hoperand _ _ ⟨f, hf, hright, rfl⟩
  obtain ⟨vs, hvs, he⟩ :=
    hoperators right f hf _ _ _ _ (.join hleft (joins_iff.1 hkind) hright) h
  refine ⟨⟨kind, d.here⟩ :: (us ++ vs), ?_, ?_⟩
  · rw [hrest, hus, hvs, List.cons_append, List.append_assoc]
  · rwa [List.append_assoc] at he

theorem OperatorsSound.stop {left : Expr} (hop : d.peek?.bind level.connective? = none) :
    OperatorsSound level left c d hd := by
  intro e rest ls hleft h
  rw [readOperators_of_none hop] at h
  obtain ⟨rfl, rfl⟩ := Outcome.gives_ok_iff.1 h
  exact ⟨[], rfl, by rwa [List.append_nil]⟩

theorem OperandSound.tighter {tighter : Level} (hover : level.tighter? = some tighter)
    (hlevel : LevelSound tighter c) : OperandSound level c := by
  intro e rest h
  rw [readOperand_tighter hover] at h
  obtain ⟨ts, hts, he⟩ := hlevel _ _ h
  exact ⟨ts, hts, .tighter (over_iff.1 hover) he⟩

theorem OperandSound.signed (hover : level.tighter? = none) (hsigned : SignedSound c) :
    OperandSound level c := by
  intro e rest h
  rw [readOperand_signed hover] at h
  obtain ⟨ts, hts, he⟩ := hsigned _ _ h
  obtain rfl := eq_product_iff.1 hover
  exact ⟨ts, hts, .signed he⟩

theorem SignedSound.sign {op : UnaryOp} (hop : c.peek?.bind sign? = some op)
    (hsigned : SignedSound c.advance) : SignedSound c := by
  intro e rest h
  obtain ⟨kind, hkind, hrest⟩ := c.rest_of_bind hop
  rw [readSigned_sign hop (Cursor.size_advance_lt_of_bind hop)] at h
  obtain ⟨operand, d, hd, hoperand, h⟩ := Outcome.andThen_gives_iff.1 h
  obtain ⟨rfl, rfl⟩ := Outcome.gives_ok_iff.1 h
  obtain ⟨ts, hts, hoperand⟩ := hsigned _ _ ⟨d, hd, hoperand, rfl⟩
  refine ⟨⟨kind, c.here⟩ :: ts, ?_, .sign (signs_iff.1 hkind) hoperand⟩
  rw [hrest, hts]
  rfl

theorem SignedSound.plain (hop : c.peek?.bind sign? = none) (hprimary : PrimarySound c) :
    SignedSound c := by
  intro e rest h
  rw [readSigned_plain hop] at h
  obtain ⟨ts, hts, he⟩ := hprimary _ _ h
  exact ⟨ts, hts, .plain he⟩

theorem PrimarySound.group (hpeek : c.peek? = some .openParen) (hexpr : ExprSound c.advance)
    (hsuffixes : ∀ (inner : Expr) (d : Cursor), d.size < c.advance.size →
      ∀ close (e : Cursor), e.size < d.size → ∀ he,
      SuffixesSound (inner.withSpan (c.here.upTo close)) c e he) : PrimarySound c := by
  intro e rest h
  rw [readPrimary_group hpeek (Cursor.size_advance_lt hpeek)] at h
  obtain ⟨inner, d, hd, hinner, h⟩ := Outcome.andThen_gives_iff.1 h
  obtain ⟨close, f, hf, hclose, h⟩ := Outcome.andThen_gives_iff.1 h
  obtain ⟨ts, hts, hinner⟩ := hexpr _ _ ⟨d, hd, hinner, rfl⟩
  obtain ⟨kind, hkind, hrest⟩ := expect_sound hclose
  obtain rfl := eq_closeParen hkind
  obtain ⟨us, hus, he⟩ := hsuffixes inner d hd close f hf _ _ _ _ (.group hinner) h
  refine ⟨_, ?_, he⟩
  rw [c.rest_of_peek? hpeek, hts, hrest, hus]
  simp

theorem PrimarySound.list (hpeek : c.peek? = some .openBracket)
    (hitems : ∀ hd, ItemsSound TokenKind.isCloseBracket .element c c.advance hd)
    (hsuffixes : ∀ (items : List Expr) (d : Cursor), d.size < c.size →
      ∀ close (e : Cursor), e.size < d.size → ∀ he,
      SuffixesSound (.list items (c.here.upTo close)) c e he) : PrimarySound c := by
  intro e rest h
  rw [readPrimary_list hpeek (Cursor.size_advance_lt hpeek)] at h
  obtain ⟨items, d, hd, hread, h⟩ := Outcome.andThen_gives_iff.1 h
  obtain ⟨close, f, hf, hclose, h⟩ := Outcome.andThen_gives_iff.1 h
  obtain ⟨ts, hts, hread⟩ := hitems _ _ _ ⟨d, hd, hread, rfl⟩
  obtain ⟨kind, hkind, hrest⟩ := expect_sound hclose
  obtain rfl := eq_closeBracket hkind
  obtain ⟨us, hus, he⟩ := hsuffixes items d hd close f hf _ _ _ _ (.list hread) h
  refine ⟨_, ?_, he⟩
  rw [c.rest_of_peek? hpeek, hts, hrest, hus]
  simp

theorem PrimarySound.atom {kind : TokenKind} {atom : Expr} (hpeek : c.peek? = some kind)
    (hatom : atom? kind c.here = some atom)
    (hsuffixes : ∀ hd, SuffixesSound atom c c.advance hd) : PrimarySound c := by
  intro e rest h
  rw [readPrimary_atom hpeek hatom (Cursor.size_advance_lt hpeek)] at h
  obtain ⟨us, hus, he⟩ := hsuffixes _ _ _ _ (.atom (isAtom_iff.1 hatom)) h
  refine ⟨_, ?_, he⟩
  rw [c.rest_of_peek? hpeek, hus]
  rfl

theorem PrimarySound.noAtom {kind : TokenKind} (hparen : kind ≠ .openParen)
    (hbracket : kind ≠ .openBracket) (hpeek : c.peek? = some kind)
    (hatom : atom? kind c.here = none) : PrimarySound c := by
  intro e rest h
  rw [readPrimary_noAtom hparen hbracket hpeek hatom] at h
  exact absurd h Outcome.not_gives_fail

theorem PrimarySound.atEnd (hpeek : c.peek? = none) : PrimarySound c := by
  intro e rest h
  rw [readPrimary_atEnd hpeek] at h
  exact absurd h Outcome.not_gives_fail

theorem ItemsSound.none {close : TokenKind → Bool} {role : ItemRole}
    (hclose : d.peek?.any close = true) : ItemsSound close role c d hd := by
  intro items rest h
  rw [readItems, if_pos hclose] at h
  obtain ⟨rfl, rfl⟩ := Outcome.gives_ok_iff.1 h
  exact ⟨[], rfl, .none⟩

theorem ItemsSound.some {close : TokenKind → Bool} {role : ItemRole}
    (hclose : ¬d.peek?.any close = true) (hfrom : ItemsFromSound close role [] c d hd) :
    ItemsSound close role c d hd := by
  intro items rest h
  rw [readItems, if_neg hclose] at h
  obtain ⟨ts, new, hts, hnew, rfl⟩ := hfrom _ _ h
  exact ⟨ts, hts, .some hnew⟩

theorem ItemsFromSound.of {close : TokenKind → Bool} {role : ItemRole} {seen : List Expr}
    (hexpr : ExprSound d)
    (hmore : ∀ (item : Expr) (e : Cursor), e.size < d.size → e.peek? = some .comma → ∀ he,
      ItemsFromSound close role (item :: seen) c e.advance he) :
    ItemsFromSound close role seen c d hd := by
  intro items rest h
  rw [readItemsFrom, Outcome.andThen_gives_iff] at h
  obtain ⟨item, e, he, hitem, h⟩ := h
  obtain ⟨ts, hts, hitem⟩ := hexpr _ _ ⟨e, he, hitem, rfl⟩
  split at h
  · next hcomma =>
    obtain ⟨us, new, hus, hnew, rfl⟩ := hmore item e he hcomma _ _ _ h
    refine ⟨ts ++ ⟨.comma, e.here⟩ :: us, item :: new, ?_, .cons hitem hnew, by simp⟩
    rw [hts, e.rest_of_peek? hcomma, hus, List.append_assoc]
    rfl
  · split at h
    · exact absurd h Outcome.not_gives_fail
    · obtain ⟨rfl, rfl⟩ := Outcome.gives_ok_iff.1 h
      exact ⟨ts, [item], hts, .last hitem, by simp⟩
  · obtain ⟨rfl, rfl⟩ := Outcome.gives_ok_iff.1 h
    exact ⟨ts, [item], hts, .last hitem, by simp⟩

theorem SuffixesSound.call {base : Expr} (hpeek : d.peek? = some .openParen)
    (hitems : ∀ he, ItemsSound TokenKind.isCloseParen .argument d d.advance he)
    (hsuffixes : ∀ (args : List Expr) (e : Cursor), e.size < d.size →
      ∀ close (f : Cursor), f.size < e.size → ∀ hf,
      SuffixesSound (.call base args (base.span.upTo close)) c f hf) :
    SuffixesSound base c d hd := by
  intro e rest bs hbase h
  rw [readSuffixes_call hpeek (Cursor.size_advance_lt hpeek)] at h
  obtain ⟨args, e', he', hargs, h⟩ := Outcome.andThen_gives_iff.1 h
  obtain ⟨close, f, hf, hclose, h⟩ := Outcome.andThen_gives_iff.1 h
  obtain ⟨ts, hts, hargs⟩ := hitems _ _ _ ⟨e', he', hargs, rfl⟩
  obtain ⟨kind, hkind, hrest⟩ := expect_sound hclose
  obtain rfl := eq_closeParen hkind
  obtain ⟨us, hus, he⟩ := hsuffixes args e' he' close f hf _ _ _ _ (.call hbase hargs) h
  refine ⟨⟨.openParen, d.here⟩ :: ts ++ ⟨.closeParen, close⟩ :: us, ?_, by simpa using he⟩
  rw [d.rest_of_peek? hpeek, hts, hrest, hus]
  simp

theorem SuffixesSound.index {base : Expr} (hpeek : d.peek? = some .openBracket)
    (hexpr : ExprSound d.advance)
    (hsuffixes : ∀ (index : Expr) (e : Cursor), e.size < d.advance.size →
      ∀ close (f : Cursor), f.size < e.size → ∀ hf,
      SuffixesSound (.index base index (base.span.upTo close)) c f hf) :
    SuffixesSound base c d hd := by
  intro e rest bs hbase h
  rw [readSuffixes_index hpeek (Cursor.size_advance_lt hpeek)] at h
  obtain ⟨index, e', he', hindex, h⟩ := Outcome.andThen_gives_iff.1 h
  obtain ⟨close, f, hf, hclose, h⟩ := Outcome.andThen_gives_iff.1 h
  obtain ⟨ts, hts, hindex⟩ := hexpr _ _ ⟨e', he', hindex, rfl⟩
  obtain ⟨kind, hkind, hrest⟩ := expect_sound hclose
  obtain rfl := eq_closeBracket hkind
  obtain ⟨us, hus, he⟩ := hsuffixes index e' he' close f hf _ _ _ _ (.index hbase hindex) h
  refine ⟨⟨.openBracket, d.here⟩ :: ts ++ ⟨.closeBracket, close⟩ :: us, ?_, by simpa using he⟩
  rw [d.rest_of_peek? hpeek, hts, hrest, hus]
  simp

theorem SuffixesSound.property {base : Expr} (hpeek : d.peek? = some .dot)
    (hsuffixes : ∀ (name : String × Span) (e : Cursor), e.size < d.advance.size → ∀ he,
      SuffixesSound (.property base name.1 (base.span.upTo name.2)) c e he) :
    SuffixesSound base c d hd := by
  intro e rest bs hbase h
  rw [readSuffixes_property hpeek (Cursor.size_advance_lt hpeek)] at h
  obtain ⟨name, e', he', hname, h⟩ := Outcome.andThen_gives_iff.1 h
  obtain ⟨us, hus, he⟩ := hsuffixes name e' he' _ _ _ _ (.property hbase) h
  refine ⟨⟨.dot, d.here⟩ :: ⟨.name name.1, name.2⟩ :: us, ?_, by simpa using he⟩
  rw [d.rest_of_peek? hpeek, expectName_sound hname, hus]
  rfl

theorem SuffixesSound.stop {base : Expr} (hparen : d.peek? ≠ some .openParen)
    (hbracket : d.peek? ≠ some .openBracket) (hdot : d.peek? ≠ some .dot) :
    SuffixesSound base c d hd := by
  intro e rest bs hbase h
  rw [readSuffixes_of_ne hparen hbracket hdot] at h
  obtain ⟨rfl, rfl⟩ := Outcome.gives_ok_iff.1 h
  exact ⟨[], rfl, by rwa [List.append_nil]⟩

end Sound

/-- All readers are sound. -/
theorem readers_sound :
    (∀ c, ExprSound c) ∧ (∀ level c, LevelSound level c) ∧
      (∀ level left c d hd, OperatorsSound level left c d hd) ∧
      (∀ level c, OperandSound level c) ∧ (∀ c, SignedSound c) ∧ (∀ c, PrimarySound c) ∧
      (∀ close role c d hd, ItemsSound close role c d hd) ∧
      (∀ close role seen c d hd, ItemsFromSound close role seen c d hd) ∧
      ∀ base c d hd, SuffixesSound base c d hd :=
  readExpr.mutual_induct ExprSound LevelSound OperatorsSound OperandSound SignedSound
    PrimarySound ItemsSound ItemsFromSound SuffixesSound
    (fun _ hlevel hvalue => .of hlevel hvalue)
    (fun _ _ hoperand hoperators => .of hoperand hoperators)
    (fun _ _ _ _ _ _ hop _ hoperand hoperators =>
      .join hop hoperand fun right e he _ => hoperators right e he)
    (fun _ _ _ _ _ hop => .stop hop)
    (fun _ _ _ hover _ hlevel => .tighter hover hlevel)
    (fun _ _ hover hsigned => .signed hover hsigned)
    (fun _ _ hop _ hsigned => .sign hop hsigned)
    (fun _ hop hprimary => .plain hop hprimary)
    (fun _ hpeek _ hexpr hsuffixes =>
      .group hpeek hexpr fun inner d hd close e he _ => hsuffixes inner d hd close e he)
    (fun _ hpeek _ hitems hsuffixes =>
      .list hpeek (fun _ => hitems) fun items d hd close e he _ => hsuffixes items d hd close e he)
    (fun _ _ _ _ hpeek _ hatom hsuffixes => .atom hpeek hatom fun _ => hsuffixes)
    (fun _ _ hparen hbracket hpeek hatom => .noAtom hparen hbracket hpeek hatom)
    (fun _ hpeek => .atEnd hpeek)
    (fun _ _ _ _ _ hclose => .none hclose)
    (fun _ _ _ _ _ hclose hfrom => .some hclose hfrom)
    (fun _ _ _ _ _ _ hexpr hmore => .of hexpr fun item e he hp _ => hmore item e he hp)
    (fun _ _ _ _ hpeek _ hitems hsuffixes =>
      .call hpeek (fun _ => hitems) fun args e he close f hf _ => hsuffixes args e he close f hf)
    (fun _ _ _ _ hpeek _ hexpr hsuffixes =>
      .index hpeek hexpr fun index e he close f hf _ => hsuffixes index e he close f hf)
    (fun _ _ _ _ hpeek _ hsuffixes => .property hpeek fun name e he _ => hsuffixes name e he)
    (fun _ _ _ _ hparen hbracket hdot => .stop hparen hbracket hdot)

theorem readExpr_sound {c next : Cursor} {e : Expr} {read : next.size < c.size}
    (h : readExpr c = .ok e next read) : ∃ ts, c.rest = ts ++ next.rest ∧ IsExpr ts e :=
  readers_sound.1 c e next.rest ⟨next, read, h, rfl⟩

theorem readLevel_sound {level : Level} {c next : Cursor} {e : Expr} {read : next.size < c.size}
    (h : readLevel level c = .ok e next read) :
    ∃ ts, c.rest = ts ++ next.rest ∧ IsLevel level ts e :=
  readers_sound.2.1 level c e next.rest ⟨next, read, h, rfl⟩

theorem readOperand_sound {level : Level} {c next : Cursor} {e : Expr} {read : next.size < c.size}
    (h : readOperand level c = .ok e next read) :
    ∃ ts, c.rest = ts ++ next.rest ∧ IsOperand level ts e :=
  readers_sound.2.2.2.1 level c e next.rest ⟨next, read, h, rfl⟩

theorem readItems_sound {close : TokenKind → Bool} {role : ItemRole} {c d next : Cursor}
    {items : List Expr} {hd : d.size < c.size} {read : next.size < c.size}
    (h : readItems close role c d hd = .ok items next read) :
    ∃ ts, d.rest = ts ++ next.rest ∧ IsItems ts items :=
  readers_sound.2.2.2.2.2.2.1 close role c d hd items next.rest ⟨next, read, h, rfl⟩

/-! ## Expressions are read -/

namespace Grammar

/-- The first of the tokens satisfies `want`. -/
def Starts (want : TokenKind → Bool) (ts : List Token) : Prop :=
  ∃ kind span us, ts = ⟨kind, span⟩ :: us ∧ want kind = true

theorem Starts.append {want : TokenKind → Bool} {ts : List Token} (h : Starts want ts)
    (us : List Token) : Starts want (ts ++ us) := by
  obtain ⟨kind, span, vs, rfl, hkind⟩ := h
  exact ⟨kind, span, vs ++ us, rfl, hkind⟩

/-- Whether a primary expression can start with the token. -/
def startsPrimary (kind : TokenKind) : Bool := startsExpression kind && (sign? kind).isNone

theorem IsPrimary.starts {ts : List Token} {e : Expr} : IsPrimary ts e → Starts startsPrimary ts
  | @IsPrimary.atom ⟨kind, span⟩ _ h => ⟨kind, span, [], rfl, by cases h <;> rfl⟩
  | .group _ => ⟨_, _, _, rfl, rfl⟩
  | .list _ => ⟨_, _, _, rfl, rfl⟩
  | .call hcallee _ => (hcallee.starts.append _).append _
  | .index hbase _ => (hbase.starts.append _).append _
  | .property hobject => hobject.starts.append _

theorem IsSigned.starts {ts : List Token} {e : Expr} : IsSigned ts e → Starts startsExpression ts
  | .sign hop _ => ⟨_, _, _, rfl, by cases hop <;> rfl⟩
  | .plain h => by
    obtain ⟨kind, span, us, rfl, hkind⟩ := h.starts
    exact ⟨kind, span, us, rfl, (Bool.and_eq_true _ _ ▸ hkind).1⟩

mutual

theorem IsLevel.starts {level : Level} {ts : List Token} {e : Expr} :
    IsLevel level ts e → Starts startsExpression ts
  | .operand h => h.starts
  | .join hleft _ _ => hleft.starts.append _

theorem IsOperand.starts {level : Level} {ts : List Token} {e : Expr} :
    IsOperand level ts e → Starts startsExpression ts
  | .tighter _ h => h.starts
  | .signed h => h.starts

end

theorem IsExpr.starts {ts : List Token} {e : Expr} : IsExpr ts e → Starts startsExpression ts
  | .level h => h.starts
  | .assign htarget _ _ => htarget.starts.append _

theorem IsItemsFrom.starts {ts : List Token} {items : List Expr} :
    IsItemsFrom ts items → Starts startsExpression ts
  | .last h => h.starts
  | .cons h _ => h.starts.append _

/-- How loosely a token goes on with an expression: a suffix first, then the
operators of the levels, then assignment, and last what does not go on. -/
def looseness : TokenKind → Nat
  | .openParen | .openBracket | .dot => 0
  | .star | .slash | .slashSlash | .percent => 1
  | .plus | .minus => 2
  | .less | .lessEqual | .greater | .greaterEqual => 3
  | .equal | .notEqual => 4
  | .andKw => 5
  | .orKw => 6
  | .assign | .plusAssign | .minusAssign | .starAssign | .slashAssign | .slashSlashAssign
  | .percentAssign => 7
  | _ => 8

/-- No token at the head of `rest` goes on with an expression as tightly as `n`. -/
def Ends (n : Nat) (rest : List Token) : Prop :=
  ∀ token ∈ rest.head?, n < looseness token.kind

theorem Ends.mono {n m : Nat} {rest : List Token} (h : Ends m rest) (hle : n ≤ m) : Ends n rest :=
  fun token htoken => Nat.lt_of_le_of_lt hle (h token htoken)

theorem ends_cons {n : Nat} {kind : TokenKind} {span : Span} {rest : List Token}
    (h : n < looseness kind) : Ends n (⟨kind, span⟩ :: rest) := by
  intro token htoken
  cases htoken
  exact h

theorem Joins.looseness_eq {level : Level} {kind : TokenKind} {op : Connective}
    (h : Joins level kind op) : looseness kind = level.rank + 1 := by
  cases h <;> rfl

theorem Assigns.looseness_eq {kind : TokenKind} {op : AssignOp} (h : Assigns kind op) :
    looseness kind = 7 := by
  cases h <;> rfl

theorem Over.rank_eq {level tighter : Level} (h : Over level tighter) :
    tighter.rank + 1 = level.rank := by
  cases h <;> rfl

section Stop

variable {c d : Cursor} {hd : d.size < c.size}

theorem looseness_of_peek? {n : Nat} {kind : TokenKind} (h : Ends n d.rest)
    (hpeek : d.peek? = some kind) : n < looseness kind := by
  have hrest := d.rest_of_peek? hpeek
  exact h ⟨kind, d.here⟩ (by rw [hrest]; rfl)

/-- Operators of a level are not read on where none follows. -/
theorem readOperators_stop {level : Level} {e : Expr} (h : Ends (level.rank + 1) d.rest) :
    (readOperators level e c d hd).Gives e d.rest := by
  rw [readOperators]
  split
  · next op hop =>
    obtain ⟨kind, hpeek, hkind⟩ := Option.bind_eq_some_iff.1 hop
    have hloose := looseness_of_peek? h hpeek
    rw [(joins_iff.1 hkind).looseness_eq] at hloose
    exact absurd hloose (Nat.lt_irrefl _)
  · exact Outcome.gives_ok

/-- Suffixes are not read on where none follows. -/
theorem readSuffixes_stop {e : Expr} (h : Ends 0 d.rest) :
    (readSuffixes e c d hd).Gives e d.rest := by
  have hne : ∀ kind, looseness kind = 0 → d.peek? ≠ some kind := fun kind hkind hpeek =>
    absurd (looseness_of_peek? h hpeek) (Nat.not_lt.2 (Nat.le_of_eq hkind))
  rw [readSuffixes_of_ne (hne _ rfl) (hne _ rfl) (hne _ rfl)]
  exact Outcome.gives_ok

end Stop

/-- The token `kind` closes a comma list whose end `close` recognizes. -/
structure Closes (close : TokenKind → Bool) (kind : TokenKind) : Prop where
  closes : close kind = true
  loose : 7 < looseness kind
  noComma : kind ≠ .comma
  noStart : ∀ {kind}, startsExpression kind = true → close kind = false

theorem Closes.paren : Closes TokenKind.isCloseParen .closeParen :=
  ⟨rfl, by decide, nofun, fun {kind} h => by cases kind <;> first | rfl | cases h⟩

theorem Closes.bracket : Closes TokenKind.isCloseBracket .closeBracket :=
  ⟨rfl, by decide, nofun, fun {kind} h => by cases kind <;> first | rfl | cases h⟩

mutual

/-- An expression is read whole if no token behind it goes on with it. -/
theorem IsExpr.read {ts rest : List Token} {e : Expr} {c : Cursor} :
    IsExpr ts e → c.rest = ts ++ rest → Ends 7 rest → (readExpr c).Gives e rest
  | .level h, hc, hends => by
    obtain ⟨d, hd, rfl, hlevel⟩ := h.read hc (hends.mono (by decide))
    rw [readExpr, hlevel]
    refine (readOperators_stop (hends.mono (by decide))).andThen fun f hf hrest => ?_
    split
    · next op hop =>
      obtain ⟨kind, hpeek, hkind⟩ := Option.bind_eq_some_iff.1 hop
      have hloose := looseness_of_peek? (hrest ▸ hends) hpeek
      rw [(assigns_iff.1 hkind).looseness_eq] at hloose
      exact absurd hloose (Nat.lt_irrefl _)
    · exact Outcome.gives_ok_iff.2 ⟨rfl, hrest⟩
  | @IsExpr.assign ts us target value kind op s htarget hop hvalue, hc, hends => by
    have hc' : c.rest = ts ++ ⟨kind, s⟩ :: (us ++ rest) := by
      rw [hc, List.append_assoc]
      rfl
    have hkind := hop.looseness_eq
    obtain ⟨d, hd, hrest, hlevel⟩ := htarget.read hc' (ends_cons (by rw [hkind]; decide))
    rw [readExpr, hlevel]
    have hstop : Ends (Level.disjunction.rank + 1) d.rest := by
      rw [hrest]
      exact ends_cons (by rw [hkind]; decide)
    refine (readOperators_stop hstop).andThen fun f hf hfrest => ?_
    rw [hrest] at hfrest
    have hop' : f.peek?.bind assignOp? = some op := by
      rw [Cursor.peek?_of_rest hfrest]
      exact assigns_iff.2 hop
    split
    · next op' hfound =>
      obtain rfl : op = op' := Option.some.inj (hop'.symm.trans hfound)
      refine (hvalue.read (Cursor.rest_advance hfrest) hends).andThen fun g hg hgrest => ?_
      exact Outcome.gives_ok_iff.2 ⟨rfl, hgrest⟩
    · next hfound =>
      rw [hop'] at hfound
      cases hfound

/-- Reading a level comes to the operators behind an expression of it. -/
theorem IsLevel.read {level : Level} {ts rest : List Token} {e : Expr} {c : Cursor} :
    IsLevel level ts e → c.rest = ts ++ rest → Ends level.rank rest →
      ∃ d hd, d.rest = rest ∧ readLevel level c = readOperators level e c d hd
  | .operand h, hc, hends => by
    obtain ⟨d, hd, hread, hrest⟩ := h.read hc hends
    refine ⟨d, hd, hrest, ?_⟩
    rw [readLevel, hread]
    rfl
  | @IsLevel.join _ ts us left right kind op s hleft hop hright, hc, hends => by
    have hc' : c.rest = ts ++ ⟨kind, s⟩ :: (us ++ rest) := by
      rw [hc, List.append_assoc]
      rfl
    have hkind := hop.looseness_eq
    obtain ⟨d, hd, hrest, hread⟩ := hleft.read hc' (ends_cons (by omega))
    obtain ⟨f, hf, hright, hfrest⟩ := hright.read (Cursor.rest_advance hrest) hends
    have hop' : d.peek?.bind level.connective? = some op := by
      rw [Cursor.peek?_of_rest hrest]
      exact joins_iff.2 hop
    have hadvance := Cursor.size_advance_lt_of_bind hop'
    refine ⟨f, by omega, hfrest, ?_⟩
    rw [hread, readOperators_join hop' hadvance, hright]
    rfl

theorem IsOperand.read {level : Level} {ts rest : List Token} {e : Expr} {c : Cursor} :
    IsOperand level ts e → c.rest = ts ++ rest → Ends level.rank rest →
      (readOperand level c).Gives e rest
  | @IsOperand.tighter _ tighter _ _ hover h, hc, hends => by
    have hrank := hover.rank_eq
    obtain ⟨d, hd, rfl, hread⟩ := h.read hc (hends.mono (by omega))
    rw [readOperand_tighter (over_iff.2 hover), hread]
    exact readOperators_stop (hends.mono (by omega))
  | .signed h, hc, hends => by
    rw [readOperand]
    exact h.read hc hends

theorem IsSigned.read {ts rest : List Token} {e : Expr} {c : Cursor} :
    IsSigned ts e → c.rest = ts ++ rest → Ends 0 rest → (readSigned c).Gives e rest
  | @IsSigned.sign ts e kind op s hop h, hc, hends => by
    have hop' : c.peek?.bind sign? = some op := by
      rw [Cursor.peek?_of_rest hc]
      exact signs_iff.2 hop
    rw [readSigned_sign hop' (Cursor.size_advance_lt_of_bind hop')]
    refine (h.read (Cursor.rest_advance hc) hends).andThen fun d hd hrest => ?_
    exact Outcome.gives_ok_iff.2 ⟨by rw [Cursor.here_of_rest hc], hrest⟩
  | .plain h, hc, hends => by
    have hunsigned : c.peek?.bind sign? = none := by
      obtain ⟨kind, span, us, rfl, hkind⟩ := h.starts
      rw [Cursor.peek?_of_rest hc]
      exact Option.isNone_iff_eq_none.1 (Bool.and_eq_true _ _ ▸ hkind).2
    obtain ⟨d, hd, rfl, hread⟩ := h.read hc
    rw [readSigned_plain hunsigned, hread]
    exact readSuffixes_stop hends

/-- Reading a primary expression comes to the suffixes behind it. -/
theorem IsPrimary.read {ts rest : List Token} {e : Expr} {c : Cursor} :
    IsPrimary ts e → c.rest = ts ++ rest →
      ∃ d hd, d.rest = rest ∧ readPrimary c = readSuffixes e c d hd
  | @IsPrimary.atom ⟨kind, span⟩ e h, hc => by
    have hpeek := Cursor.peek?_of_rest hc
    have hatom : atom? kind c.here = some e := by
      rw [Cursor.here_of_rest hc]
      exact isAtom_iff.2 h
    exact ⟨c.advance, Cursor.size_advance_lt hpeek, Cursor.rest_advance hc,
      readPrimary_atom hpeek hatom _⟩
  | @IsPrimary.group ts e s s' h, hc => by
    have hc' : c.rest = ⟨.openParen, s⟩ :: (ts ++ ⟨.closeParen, s'⟩ :: rest) := by simpa using hc
    have hpeek := Cursor.peek?_of_rest hc'
    have hadvance := Cursor.size_advance_lt hpeek
    obtain ⟨d, hd, hread, hrest⟩ := h.read (Cursor.rest_advance hc') (ends_cons (by decide))
    obtain ⟨f, hf, hclose, hfrest⟩ := @expectCloseParen_gives d .group s' rest hrest
    refine ⟨f, by omega, hfrest, ?_⟩
    rw [readPrimary_group hpeek hadvance, hread]
    dsimp only [Outcome.andThen]
    rw [hclose, Cursor.here_of_rest hc']
  | @IsPrimary.list ts items s s' h, hc => by
    have hc' : c.rest = ⟨.openBracket, s⟩ :: (ts ++ ⟨.closeBracket, s'⟩ :: rest) := by
      simpa using hc
    have hpeek := Cursor.peek?_of_rest hc'
    have hadvance := Cursor.size_advance_lt hpeek
    obtain ⟨d, hd, hread, hrest⟩ :=
      h.read .bracket .element hadvance (Cursor.rest_advance hc')
    obtain ⟨f, hf, hclose, hfrest⟩ := @expectCloseBracket_gives d .items s' rest hrest
    refine ⟨f, by omega, hfrest, ?_⟩
    rw [readPrimary_list hpeek hadvance, hread]
    dsimp only [Outcome.andThen]
    rw [hclose, Cursor.here_of_rest hc']
  | @IsPrimary.call ts us callee args s s' hcallee hargs, hc => by
    have hc' : c.rest = ts ++ ⟨.openParen, s⟩ :: (us ++ ⟨.closeParen, s'⟩ :: rest) := by
      simpa using hc
    obtain ⟨d, hd, hrest, hread⟩ := hcallee.read hc'
    have hpeek := Cursor.peek?_of_rest hrest
    have hadvance := Cursor.size_advance_lt hpeek
    obtain ⟨f, hf, hitems, hfrest⟩ :=
      hargs.read .paren .argument hadvance (Cursor.rest_advance hrest)
    obtain ⟨g, hg, hclose, hgrest⟩ := @expectCloseParen_gives f .args s' rest hfrest
    refine ⟨g, by omega, hgrest, ?_⟩
    rw [hread, readSuffixes_call hpeek hadvance, hitems]
    dsimp only [Outcome.andThen]
    rw [hclose]
  | @IsPrimary.index ts us base index s s' hbase hindex, hc => by
    have hc' : c.rest = ts ++ ⟨.openBracket, s⟩ :: (us ++ ⟨.closeBracket, s'⟩ :: rest) := by
      simpa using hc
    obtain ⟨d, hd, hrest, hread⟩ := hbase.read hc'
    have hpeek := Cursor.peek?_of_rest hrest
    have hadvance := Cursor.size_advance_lt hpeek
    obtain ⟨f, hf, hexpr, hfrest⟩ :=
      hindex.read (Cursor.rest_advance hrest) (ends_cons (by decide))
    obtain ⟨g, hg, hclose, hgrest⟩ := @expectCloseBracket_gives f .index s' rest hfrest
    refine ⟨g, by omega, hgrest, ?_⟩
    rw [hread, readSuffixes_index hpeek hadvance, hexpr]
    dsimp only [Outcome.andThen]
    rw [hclose]
  | @IsPrimary.property ts object name s s' hobject, hc => by
    have hc' : c.rest = ts ++ ⟨.dot, s⟩ :: ⟨.name name, s'⟩ :: rest := by simpa using hc
    obtain ⟨d, hd, hrest, hread⟩ := hobject.read hc'
    have hpeek := Cursor.peek?_of_rest hrest
    have hadvance := Cursor.size_advance_lt hpeek
    obtain ⟨f, hf, hname, hfrest⟩ :=
      @expectName_gives d.advance .property name s' rest (Cursor.rest_advance hrest)
    refine ⟨f, by omega, hfrest, ?_⟩
    rw [hread, readSuffixes_property hpeek hadvance, hname]
    rfl

/-- A comma list is read up to the token that closes it. -/
theorem IsItems.read {close : TokenKind → Bool} {kind : TokenKind} {ts rest : List Token}
    {items : List Expr} {span : Span} {c d : Cursor} :
    IsItems ts items → Closes close kind → (role : ItemRole) → (hd : d.size < c.size) →
      d.rest = ts ++ ⟨kind, span⟩ :: rest →
      (readItems close role c d hd).Gives items (⟨kind, span⟩ :: rest)
  | .none, hclose, role, hd, hrest => by
    have hpeek : d.peek?.any close = true := by
      rw [Cursor.peek?_of_rest hrest]
      exact hclose.closes
    rw [readItems, if_pos hpeek]
    exact Outcome.gives_ok_iff.2 ⟨rfl, hrest⟩
  | .some h, hclose, role, hd, hrest => by
    have hpeek : ¬d.peek?.any close = true := by
      obtain ⟨kind, span, us, rfl, hkind⟩ := h.starts
      rw [Cursor.peek?_of_rest hrest]
      exact Bool.eq_false_iff.1 (hclose.noStart hkind)
    rw [readItems, if_neg hpeek]
    exact h.read hclose role [] hd hrest

theorem IsItemsFrom.read {close : TokenKind → Bool} {kind : TokenKind} {ts rest : List Token}
    {items : List Expr} {span : Span} {c d : Cursor} :
    IsItemsFrom ts items → Closes close kind → (role : ItemRole) → (seen : List Expr) →
      (hd : d.size < c.size) → d.rest = ts ++ ⟨kind, span⟩ :: rest →
      (readItemsFrom close role seen c d hd).Gives (seen.reverse ++ items) (⟨kind, span⟩ :: rest)
  | .last h, hclose, role, seen, hd, hrest => by
    rw [readItemsFrom]
    refine (h.read hrest (ends_cons hclose.loose)).andThen fun f hf hfrest => ?_
    have hpeek := Cursor.peek?_of_rest hfrest
    split
    · next hcomma =>
      rw [hpeek] at hcomma
      exact absurd (Option.some.inj hcomma) hclose.noComma
    · next kind' _ hkind' =>
      obtain rfl : kind = kind' := Option.some.inj (hpeek.symm.trans hkind')
      rw [if_neg (by simp [hclose.closes]), Outcome.gives_ok_iff]
      exact ⟨by simp, hfrest⟩
    · next hnone =>
      rw [hpeek] at hnone
      cases hnone
  | @IsItemsFrom.cons ts us e items s h hitems, hclose, role, seen, hd, hrest => by
    have hrest' : d.rest = ts ++ ⟨.comma, s⟩ :: (us ++ ⟨kind, span⟩ :: rest) := by
      rw [hrest, List.append_assoc]
      rfl
    rw [readItemsFrom]
    refine (h.read hrest' (ends_cons (by decide))).andThen fun f hf hfrest => ?_
    have hpeek := Cursor.peek?_of_rest hfrest
    have hadvance : f.advance.size < c.size := by
      have hlt := Cursor.size_advance_lt hpeek
      omega
    split
    · have hread := hitems.read hclose role (e :: seen) hadvance (Cursor.rest_advance hfrest)
      simpa using hread
    all_goals simp_all

end

end Grammar

end ScriptMachine
