import ScriptMachine.Proofs.Program.Movement

/-!
# How far readers look

A reader of expressions decides by the kinds of the tokens up to the one that it stops at, and
looks no further: where another stream has the same kinds so far, it stops after as many tokens,
in the same way (`expr_readers_mirror`).
-/

namespace ScriptMachine

namespace Cursor

variable {c c' d d' : Cursor} {n m : Nat}

/-- From `c` and from `c'` on, the next `n` tokens and the one behind them are of the same kinds,
where the end of the text counts as a kind of its own. -/
def Agree (c : Cursor) (n : Nat) (c' : Cursor) : Prop :=
  ∀ i ≤ n, c.rest[i]?.map Token.kind = c'.rest[i]?.map Token.kind

theorem Agree.mono (h : c.Agree n c') (hle : m ≤ n) : c.Agree m c' :=
  fun i hi => h i (Nat.le_trans hi hle)

theorem Agree.peek? (h : c.Agree n c') : c.peek? = c'.peek? := by
  have hhead := h 0 (Nat.zero_le n)
  rwa [← List.head?_eq_getElem?, ← List.head?_eq_getElem?] at hhead

/-- Further on, there is less left to agree on. -/
theorem Agree.ahead (h : c.Agree (n + m) c') (hd : c.Ahead n d) (hd' : c'.Ahead n d') :
    d.Agree m d' := by
  intro i hi
  rw [hd.rest, hd'.rest, List.getElem?_drop, List.getElem?_drop]
  exact h (n + i) (Nat.add_le_add_left hi n)

/-- The distance between two places is one number. -/
theorem Ahead.eq (h : c.Ahead n d) (h' : c.Ahead m d) : n = m := by
  have hsize := h.size_add
  have hsize' := h'.size_add
  omega

end Cursor

namespace Outcome

variable {c c' d d' e e' k k' : Cursor} {α β : Type}

def isOk : Outcome c α → Bool
  | .ok .. => true
  | .error .. => false

/-- If `d'` agrees with `d` as far as `x` looked from `d`, then `x'` ended like `x`: with a value
or an error as `x` did, and after as many tokens. -/
def Mirrors (d : Cursor) (x : Outcome c α) (d' : Cursor) (x' : Outcome c' β) : Prop :=
  ∀ n, d.Ahead n x.place → d.Agree n d' → x.isOk = x'.isOk ∧ d'.Ahead n x'.place

theorem mirrors_ok {a : α} {a' : β} {hd : d.size < c.size} {hd' : d'.size < c'.size} :
    Mirrors d (ok a d hd) d' (ok a' d' hd') := by
  intro n hn _
  obtain rfl := hn.eq (.refl d)
  exact ⟨rfl, .refl d'⟩

theorem mirrors_fail {fault fault' : SyntaxFault} {hd : d.size ≤ c.size} {hd' : d'.size ≤ c'.size} :
    Mirrors d (fail fault d hd : Outcome c α) d' (fail fault' d' hd' : Outcome c' β) := by
  intro n hn _
  obtain rfl := hn.eq (.refl d)
  exact ⟨rfl, .refl d'⟩

/-- Every reader looks at the next token. -/
theorem Mirrors.of_peek? {x : Outcome c α} {x' : Outcome c' β}
    (h : d.peek? = d'.peek? → Mirrors d x d' x') : Mirrors d x d' x' :=
  fun n hn hagree => h hagree.peek? n hn hagree

theorem Mirrors.before {x : Outcome c α} {x' : Outcome c' β} {n : Nat} (hd : d.Ahead n e)
    (hd' : d'.Ahead n e') (hx : x.From e) (h : Mirrors e x e' x') : Mirrors d x d' x' := by
  intro k hk hagree
  obtain ⟨m, hm⟩ := hx.ahead
  obtain rfl := hk.eq (hd.trans hm)
  obtain ⟨hok, hplace⟩ := h m hm (hagree.ahead hd hd')
  exact ⟨hok, hd'.trans hplace⟩

theorem Mirrors.andThen {x : Outcome k α} {x' : Outcome k' α} {h : k.size ≤ c.size}
    {h' : k'.size ≤ c'.size} {f : α → (b : Cursor) → b.size < k.size → Outcome c β}
    {f' : α → (b : Cursor) → b.size < k'.size → Outcome c' β} (hmirrors : Mirrors d x d' x')
    (hx : x.From d)
    (hf : ∀ a b hb, (f a b hb).From b ∧ ∀ a' b' hb', Mirrors b (f a b hb) b' (f' a' b' hb')) :
    Mirrors d (x.andThen h f) d' (x'.andThen h' f') := by
  intro k hk hagree
  cases x with
  | ok a b hb =>
    obtain ⟨n, hn⟩ := hx.ahead
    obtain ⟨hfrom, hmore⟩ := hf a b hb
    obtain ⟨m, hm⟩ := hfrom.ahead
    obtain rfl : k = n + m := hk.eq (hn.trans hm)
    obtain ⟨hok, hplace⟩ := hmirrors n hn (hagree.mono (Nat.le_add_right n m))
    cases x' with
    | ok a' b' hb' =>
      obtain ⟨hok', hplace'⟩ := hmore a' b' hb' m hm (hagree.ahead hn hplace)
      exact ⟨hok', hplace.trans hplace'⟩
    | error error stopped kept => cases hok
  | error error stopped kept =>
    obtain ⟨hok, hplace⟩ := hmirrors k hk hagree
    cases x' with
    | ok a' b' hb' => cases hok
    | error error' stopped' kept' => exact ⟨rfl, hplace⟩

/-- Reads on behind tokens that both readers have passed. -/
theorem Mirrors.before_andThen {x : Outcome k α} {x' : Outcome k' α} {h : k.size ≤ c.size}
    {h' : k'.size ≤ c'.size} {f : α → (b : Cursor) → b.size < k.size → Outcome c β}
    {f' : α → (b : Cursor) → b.size < k'.size → Outcome c' β} {n : Nat} (hd : d.Ahead n e)
    (hd' : d'.Ahead n e') (hx : x.From e) (hmirrors : Mirrors e x e' x')
    (hf : ∀ a b hb, (f a b hb).From b ∧ ∀ a' b' hb', Mirrors b (f a b hb) b' (f' a' b' hb')) :
    Mirrors d (x.andThen h f) d' (x'.andThen h' f') :=
  (hmirrors.andThen hx hf).before hd hd' (hx.andThen fun a b hb => (hf a b hb).1)

end Outcome

open Outcome (Mirrors mirrors_ok mirrors_fail)

theorem expect_mirrors (want : TokenKind → Bool) (fault fault' : SyntaxFault) (c c' : Cursor) :
    Mirrors c (expect want fault c) c' (expect want fault' c') := by
  refine .of_peek? fun hpeek => ?_
  by_cases hwant : c.peek?.any want = true
  · obtain ⟨kind, hkind, -⟩ := Cursor.exists_peek?_of_any hwant
    rw [expect_of_any hwant (Cursor.size_advance_lt hkind),
      expect_of_any (hpeek ▸ hwant) (Cursor.size_advance_lt (hpeek ▸ hkind))]
    exact mirrors_ok.before (Cursor.ahead_advance hkind) (Cursor.ahead_advance (hpeek ▸ hkind))
      (.ok (.refl _))
  · rw [expect_of_not_any hwant, expect_of_not_any (hpeek ▸ hwant)]
    exact mirrors_fail

theorem expectName_mirrors (role : NameRole) (c c' : Cursor) :
    Mirrors c (expectName role c) c' (expectName role c') := by
  refine .of_peek? fun hpeek => ?_
  by_cases hname : ∃ name, c.peek? = some (.name name)
  · obtain ⟨name, hkind⟩ := hname
    rw [expectName_of_name hkind (Cursor.size_advance_lt hkind),
      expectName_of_name (hpeek ▸ hkind) (Cursor.size_advance_lt (hpeek ▸ hkind))]
    exact mirrors_ok.before (Cursor.ahead_advance hkind) (Cursor.ahead_advance (hpeek ▸ hkind))
      (.ok (.refl _))
  · rw [expectName_of_ne (not_exists.1 hname), expectName_of_ne (hpeek ▸ not_exists.1 hname)]
    exact mirrors_fail

/-- Whether a token is an expression by itself does not depend on where it stands. -/
theorem isSome_atom? (kind : TokenKind) (span span' : Span) :
    (atom? kind span).isSome = (atom? kind span').isSome := by
  cases kind <;> rfl

/-! ## Expressions -/

/-- From any place that agrees with `c`, an expression is read as from `c`. -/
def ExprMirrors (c : Cursor) : Prop := ∀ c', Mirrors c (readExpr c) c' (readExpr c')

def LevelMirrors (level : Level) (c : Cursor) : Prop :=
  ∀ c', Mirrors c (readLevel level c) c' (readLevel level c')

/-- What is read behind an expression does not depend on the expression. -/
def OperatorsMirror (level : Level) (left : Expr) (c d : Cursor) (hd : d.size < c.size) : Prop :=
  ∀ left' c' d' hd',
    Mirrors d (readOperators level left c d hd) d' (readOperators level left' c' d' hd')

def OperandMirrors (level : Level) (c : Cursor) : Prop :=
  ∀ c', Mirrors c (readOperand level c) c' (readOperand level c')

def SignedMirrors (c : Cursor) : Prop := ∀ c', Mirrors c (readSigned c) c' (readSigned c')

def PrimaryMirrors (c : Cursor) : Prop := ∀ c', Mirrors c (readPrimary c) c' (readPrimary c')

def ItemsMirror (close : TokenKind → Bool) (role : ItemRole) (c d : Cursor)
    (hd : d.size < c.size) : Prop :=
  ∀ c' d' hd', Mirrors d (readItems close role c d hd) d' (readItems close role c' d' hd')

def ItemsFromMirror (close : TokenKind → Bool) (role : ItemRole) (seen : List Expr)
    (c d : Cursor) (hd : d.size < c.size) : Prop :=
  ∀ seen' c' d' hd',
    Mirrors d (readItemsFrom close role seen c d hd) d' (readItemsFrom close role seen' c' d' hd')

def SuffixesMirror (base : Expr) (c d : Cursor) (hd : d.size < c.size) : Prop :=
  ∀ base' c' d' hd', Mirrors d (readSuffixes base c d hd) d' (readSuffixes base' c' d' hd')

section Mirrors

variable {c d : Cursor} {hd : d.size < c.size} {level : Level}

theorem ExprMirrors.of (hlevel : LevelMirrors .disjunction c)
    (hvalue : ∀ d : Cursor, d.size < c.size → ∀ op, d.peek?.bind assignOp? = some op →
      ExprMirrors d.advance) : ExprMirrors c := by
  intro c'
  rw [readExpr, readExpr]
  refine (hlevel c').andThen (readLevel_from _ c) fun target d hd => ⟨?_, fun target' d' hd' => ?_⟩
  · split
    · next op hop =>
      exact ((readExpr_from d.advance).andThen fun value e he => .ok (.refl e)).before
        (Cursor.passes_advance_of_bind hop)
    · exact .ok (.refl d)
  · refine .of_peek? fun hpeek => ?_
    split
    · next op hop =>
      split
      · next op' hop' =>
        exact .before_andThen (Cursor.ahead_advance_of_bind hop)
          (Cursor.ahead_advance_of_bind hop') (readExpr_from d.advance)
          (hvalue d hd op hop d'.advance) fun value e he =>
            ⟨.ok (.refl e), fun _ _ _ => mirrors_ok⟩
      · next hop' =>
        rw [← hpeek, hop] at hop'
        cases hop'
    · next hop =>
      split
      · next op' hop' =>
        rw [← hpeek, hop] at hop'
        cases hop'
      · exact mirrors_ok

theorem LevelMirrors.of (hoperand : OperandMirrors level c)
    (hoperators : ∀ left d hd, OperatorsMirror level left c d hd) : LevelMirrors level c := by
  intro c'
  rw [readLevel, readLevel]
  exact (hoperand c').andThen (readOperand_from level c) fun left d hd =>
    ⟨readOperators_from, fun left' d' => hoperators left d hd left' c' d'⟩

theorem OperatorsMirror.join {left : Expr} {op : Connective}
    (hop : d.peek?.bind level.connective? = some op) (ha : d.advance.size < d.size)
    (hoperand : OperandMirrors level d.advance)
    (hoperators : ∀ (right : Expr) (e : Cursor), e.size < d.advance.size → ∀ he,
      OperatorsMirror level (op.join left right) c e he) :
    OperatorsMirror level left c d hd := by
  intro left' c' d' hd'
  refine .of_peek? fun hpeek => ?_
  have hop' := hpeek ▸ hop
  have ha' := Cursor.size_advance_lt_of_bind hop'
  rw [readOperators_join hop ha, readOperators_join hop' ha']
  exact .before_andThen (Cursor.ahead_advance_of_bind hop) (Cursor.ahead_advance_of_bind hop')
    (readOperand_from level d.advance) (hoperand d'.advance) fun right e he =>
      ⟨readOperators_from, fun right' e' _ => hoperators right e he _ _ c' e' _⟩

theorem OperatorsMirror.stop {left : Expr} (hop : d.peek?.bind level.connective? = none) :
    OperatorsMirror level left c d hd := by
  intro left' c' d' hd'
  refine .of_peek? fun hpeek => ?_
  rw [readOperators_of_none hop, readOperators_of_none (hpeek ▸ hop)]
  exact mirrors_ok

theorem OperandMirrors.tighter {tighter : Level} (hover : level.tighter? = some tighter)
    (hlevel : LevelMirrors tighter c) : OperandMirrors level c := by
  intro c'
  rw [readOperand_tighter hover, readOperand_tighter hover]
  exact hlevel c'

theorem OperandMirrors.signed (hover : level.tighter? = none) (hsigned : SignedMirrors c) :
    OperandMirrors level c := by
  intro c'
  rw [readOperand_signed hover, readOperand_signed hover]
  exact hsigned c'

theorem SignedMirrors.sign {op : UnaryOp} (hop : c.peek?.bind sign? = some op)
    (ha : c.advance.size < c.size) (hsigned : SignedMirrors c.advance) : SignedMirrors c := by
  intro c'
  refine .of_peek? fun hpeek => ?_
  have hop' := hpeek ▸ hop
  have ha' := Cursor.size_advance_lt_of_bind hop'
  rw [readSigned_sign hop ha, readSigned_sign hop' ha']
  exact .before_andThen (Cursor.ahead_advance_of_bind hop) (Cursor.ahead_advance_of_bind hop')
    (readSigned_from c.advance) (hsigned c'.advance) fun operand d hd =>
      ⟨.ok (.refl d), fun _ _ _ => mirrors_ok⟩

theorem SignedMirrors.plain (hop : c.peek?.bind sign? = none) (hprimary : PrimaryMirrors c) :
    SignedMirrors c := by
  intro c'
  refine .of_peek? fun hpeek => ?_
  rw [readSigned_plain hop, readSigned_plain (hpeek ▸ hop)]
  exact hprimary c'

/-- Closings and suffixes behind them are read alike, whatever was closed. -/
theorem closed_mirrors {want : TokenKind → Bool} {fault : SyntaxFault} {value : Span → Expr}
    {h : d.size ≤ c.size} {hlt : ∀ e : Cursor, e.size < d.size → e.size < c.size}
    (hclose : (expect want fault d).From d)
    (hsuffixes : ∀ close e he, SuffixesMirror (value close) c e (hlt e he)) :
    ((expect want fault d).andThen h fun close e he =>
      readSuffixes (value close) c e (hlt e he)).From d ∧
    ∀ {fault' : SyntaxFault} {c' d' : Cursor} {value' : Span → Expr} {h' : d'.size ≤ c'.size}
      {hlt' : ∀ e : Cursor, e.size < d'.size → e.size < c'.size},
      Mirrors d ((expect want fault d).andThen h fun close e he =>
          readSuffixes (value close) c e (hlt e he))
        d' ((expect want fault' d').andThen h' fun close e he =>
          readSuffixes (value' close) c' e (hlt' e he)) := by
  refine ⟨hclose.andThen fun close e he => readSuffixes_from,
    fun {fault' c' d' value' h' hlt'} => ?_⟩
  exact (expect_mirrors _ _ _ d d').andThen hclose fun close e he =>
    ⟨readSuffixes_from, fun close' e' _ => hsuffixes close e he _ c' e' _⟩

theorem PrimaryMirrors.group (hpeek : c.peek? = some .openParen)
    (ha : c.advance.size < c.size) (hexpr : ExprMirrors c.advance)
    (hsuffixes : ∀ (inner : Expr) (d : Cursor), d.size < c.advance.size →
      ∀ close (e : Cursor), e.size < d.size → ∀ he,
      SuffixesMirror (inner.withSpan (c.here.upTo close)) c e he) : PrimaryMirrors c := by
  intro c'
  refine .of_peek? fun hsame => ?_
  have hpeek' := hsame ▸ hpeek
  have ha' := Cursor.size_advance_lt hpeek'
  rw [readPrimary_group hpeek ha, readPrimary_group hpeek' ha']
  refine .before_andThen (Cursor.ahead_advance hpeek) (Cursor.ahead_advance hpeek')
    (readExpr_from c.advance) (hexpr c'.advance) fun inner d hd => ?_
  obtain ⟨hfrom, hmirrors⟩ := closed_mirrors (expectCloseParen_from .group d)
    fun close e he => hsuffixes inner d hd close e he _
  exact ⟨hfrom, fun inner' d' hd' => hmirrors⟩

theorem PrimaryMirrors.list (hpeek : c.peek? = some .openBracket)
    (ha : c.advance.size < c.size)
    (hitems : ItemsMirror TokenKind.isCloseBracket .element c c.advance ha)
    (hsuffixes : ∀ (items : List Expr) (d : Cursor), d.size < c.size →
      ∀ close (e : Cursor), e.size < d.size → ∀ he,
      SuffixesMirror (.list items (c.here.upTo close)) c e he) : PrimaryMirrors c := by
  intro c'
  refine .of_peek? fun hsame => ?_
  have hpeek' := hsame ▸ hpeek
  have ha' := Cursor.size_advance_lt hpeek'
  rw [readPrimary_list hpeek ha, readPrimary_list hpeek' ha']
  refine .before_andThen (Cursor.ahead_advance hpeek) (Cursor.ahead_advance hpeek')
    readItems_from (hitems c' c'.advance ha') fun items d hd => ?_
  obtain ⟨hfrom, hmirrors⟩ := closed_mirrors (expectCloseBracket_from .items d)
    fun close e he => hsuffixes items d hd close e he _
  exact ⟨hfrom, fun items' d' hd' => hmirrors⟩

theorem PrimaryMirrors.atom {kind : TokenKind} {atom : Expr} (hpeek : c.peek? = some kind)
    (hatom : atom? kind c.here = some atom)
    (hsuffixes : ∀ ha, SuffixesMirror atom c c.advance ha) : PrimaryMirrors c := by
  intro c'
  refine .of_peek? fun hsame => ?_
  have hpeek' := hsame ▸ hpeek
  have ha' := Cursor.size_advance_lt hpeek'
  obtain ⟨atom', hatom'⟩ : ∃ atom', atom? kind c'.here = some atom' := by
    rw [← Option.isSome_iff_exists, isSome_atom? kind _ c.here, hatom, Option.isSome_some]
  rw [readPrimary_atom hpeek hatom (Cursor.size_advance_lt hpeek),
    readPrimary_atom hpeek' hatom' ha']
  exact (hsuffixes _ atom' c' c'.advance ha').before (Cursor.ahead_advance hpeek)
    (Cursor.ahead_advance hpeek') readSuffixes_from

theorem PrimaryMirrors.noAtom {kind : TokenKind} (hparen : kind ≠ .openParen)
    (hbracket : kind ≠ .openBracket) (hpeek : c.peek? = some kind)
    (hatom : atom? kind c.here = none) : PrimaryMirrors c := by
  intro c'
  refine .of_peek? fun hsame => ?_
  have hatom' : atom? kind c'.here = none := by
    rw [← Option.not_isSome_iff_eq_none, isSome_atom? kind _ c.here, hatom]
    exact Bool.false_ne_true
  rw [readPrimary_noAtom hparen hbracket hpeek hatom,
    readPrimary_noAtom hparen hbracket (hsame ▸ hpeek) hatom']
  exact mirrors_fail

theorem PrimaryMirrors.atEnd (hpeek : c.peek? = none) : PrimaryMirrors c := by
  intro c'
  refine .of_peek? fun hsame => ?_
  rw [readPrimary_atEnd hpeek, readPrimary_atEnd (hsame ▸ hpeek)]
  exact mirrors_fail

theorem ItemsMirror.none {close : TokenKind → Bool} {role : ItemRole}
    (hclose : d.peek?.any close = true) : ItemsMirror close role c d hd := by
  intro c' d' hd'
  refine .of_peek? fun hpeek => ?_
  rw [readItems, readItems, if_pos hclose, if_pos (hpeek ▸ hclose)]
  exact mirrors_ok

theorem ItemsMirror.some {close : TokenKind → Bool} {role : ItemRole}
    (hclose : ¬d.peek?.any close = true) (hfrom : ItemsFromMirror close role [] c d hd) :
    ItemsMirror close role c d hd := by
  intro c' d' hd'
  refine .of_peek? fun hpeek => ?_
  rw [readItems, readItems, if_neg hclose, if_neg (hpeek ▸ hclose)]
  exact hfrom [] c' d' hd'

theorem ItemsFromMirror.of {close : TokenKind → Bool} {role : ItemRole} {seen : List Expr}
    (hexpr : ExprMirrors d)
    (hmore : ∀ (item : Expr) (e : Cursor), e.size < d.size → e.peek? = some .comma → ∀ he,
      ItemsFromMirror close role (item :: seen) c e.advance he) :
    ItemsFromMirror close role seen c d hd := by
  intro seen' c' d' hd'
  rw [readItemsFrom, readItemsFrom]
  refine (hexpr d').andThen (readExpr_from d) fun item e he => ⟨?_, fun item' e' he' => ?_⟩
  · split
    · next hcomma => exact readItemsFrom_from.before (Cursor.passes_advance hcomma)
    · next kind _ hkind =>
      split
      · exact .fail (.refl e) ⟨rfl, Cursor.rest_ne_nil hkind⟩
      · exact .ok (.refl e)
    · exact .ok (.refl e)
  · refine .of_peek? fun hpeek => ?_
    split
    · next hcomma =>
      split
      · next hcomma' =>
        exact (hmore item e he hcomma _ _ _ _ _).before (Cursor.ahead_advance hcomma)
          (Cursor.ahead_advance hcomma') readItemsFrom_from
      all_goals simp_all
    · next kind hcomma hkind =>
      split
      · next hmissing =>
        split
        · simp_all
        · next kind' _ hkind' =>
          obtain rfl : kind = kind' := Option.some.inj (hkind.symm.trans (hpeek.trans hkind'))
          rw [if_pos hmissing]
          exact mirrors_fail
        · simp_all
      · next hlast =>
        split
        · simp_all
        · next kind' _ hkind' =>
          obtain rfl : kind = kind' := Option.some.inj (hkind.symm.trans (hpeek.trans hkind'))
          rw [if_neg hlast]
          exact mirrors_ok
        · simp_all
    · next hnone =>
      split
      · simp_all
      · simp_all
      · exact mirrors_ok

theorem SuffixesMirror.call {base : Expr} (hpeek : d.peek? = some .openParen)
    (ha : d.advance.size < d.size)
    (hitems : ItemsMirror TokenKind.isCloseParen .argument d d.advance ha)
    (hsuffixes : ∀ (args : List Expr) (e : Cursor), e.size < d.size →
      ∀ close (f : Cursor), f.size < e.size → ∀ hf,
      SuffixesMirror (.call base args (base.span.upTo close)) c f hf) :
    SuffixesMirror base c d hd := by
  intro base' c' d' hd'
  refine .of_peek? fun hsame => ?_
  have hpeek' := hsame ▸ hpeek
  have ha' := Cursor.size_advance_lt hpeek'
  rw [readSuffixes_call hpeek ha, readSuffixes_call hpeek' ha']
  refine .before_andThen (Cursor.ahead_advance hpeek) (Cursor.ahead_advance hpeek')
    readItems_from (hitems d' d'.advance ha') fun args e he => ?_
  obtain ⟨hfrom, hmirrors⟩ := closed_mirrors (expectCloseParen_from .args e)
    fun close f hf => hsuffixes args e he close f hf _
  exact ⟨hfrom, fun args' e' he' => hmirrors⟩

theorem SuffixesMirror.index {base : Expr} (hpeek : d.peek? = some .openBracket)
    (ha : d.advance.size < d.size) (hexpr : ExprMirrors d.advance)
    (hsuffixes : ∀ (index : Expr) (e : Cursor), e.size < d.advance.size →
      ∀ close (f : Cursor), f.size < e.size → ∀ hf,
      SuffixesMirror (.index base index (base.span.upTo close)) c f hf) :
    SuffixesMirror base c d hd := by
  intro base' c' d' hd'
  refine .of_peek? fun hsame => ?_
  have hpeek' := hsame ▸ hpeek
  have ha' := Cursor.size_advance_lt hpeek'
  rw [readSuffixes_index hpeek ha, readSuffixes_index hpeek' ha']
  refine .before_andThen (Cursor.ahead_advance hpeek) (Cursor.ahead_advance hpeek')
    (readExpr_from d.advance) (hexpr d'.advance) fun index e he => ?_
  obtain ⟨hfrom, hmirrors⟩ := closed_mirrors (expectCloseBracket_from .index e)
    fun close f hf => hsuffixes index e he close f hf _
  exact ⟨hfrom, fun index' e' he' => hmirrors⟩

theorem SuffixesMirror.property {base : Expr} (hpeek : d.peek? = some .dot)
    (ha : d.advance.size < d.size)
    (hsuffixes : ∀ (name : String × Span) (e : Cursor), e.size < d.advance.size → ∀ he,
      SuffixesMirror (.property base name.1 (base.span.upTo name.2)) c e he) :
    SuffixesMirror base c d hd := by
  intro base' c' d' hd'
  refine .of_peek? fun hsame => ?_
  have hpeek' := hsame ▸ hpeek
  have ha' := Cursor.size_advance_lt hpeek'
  rw [readSuffixes_property hpeek ha, readSuffixes_property hpeek' ha']
  exact .before_andThen (Cursor.ahead_advance hpeek) (Cursor.ahead_advance hpeek')
    (expectName_from _ d.advance) (expectName_mirrors _ d.advance d'.advance) fun name e he =>
      ⟨readSuffixes_from, fun name' e' _ => hsuffixes name e he _ _ c' e' _⟩

theorem SuffixesMirror.bare {base : Expr} (hparen : d.peek? ≠ some .openParen)
    (hbracket : d.peek? ≠ some .openBracket) (hdot : d.peek? ≠ some .dot) :
    SuffixesMirror base c d hd := by
  intro base' c' d' hd'
  refine .of_peek? fun hsame => ?_
  rw [readSuffixes_of_ne hparen hbracket hdot,
    readSuffixes_of_ne (hsame ▸ hparen) (hsame ▸ hbracket) (hsame ▸ hdot)]
  exact mirrors_ok

end Mirrors

/-- Readers of expressions end alike from places that agree as far as they look. -/
theorem expr_readers_mirror :
    (∀ c, ExprMirrors c) ∧ (∀ level c, LevelMirrors level c) ∧
      (∀ level left c d hd, OperatorsMirror level left c d hd) ∧
      (∀ level c, OperandMirrors level c) ∧ (∀ c, SignedMirrors c) ∧ (∀ c, PrimaryMirrors c) ∧
      (∀ close role c d hd, ItemsMirror close role c d hd) ∧
      (∀ close role seen c d hd, ItemsFromMirror close role seen c d hd) ∧
      ∀ base c d hd, SuffixesMirror base c d hd := by
  refine readExpr.mutual_induct ExprMirrors LevelMirrors OperatorsMirror OperandMirrors
    SignedMirrors PrimaryMirrors ItemsMirror ItemsFromMirror SuffixesMirror
    ?expr ?level ?join ?stop ?tighter ?signed ?sign ?plain ?group ?list ?atom ?noAtom ?atEnd
    ?none ?some ?items ?call ?index ?property ?bare
  case expr => exact fun _ hlevel hvalue => .of hlevel hvalue
  case level => exact fun _ _ hoperand hoperators => .of hoperand hoperators
  case join =>
    exact fun _ _ _ _ _ _ hop ha hoperand hoperators =>
      .join hop ha hoperand fun right e he _ => hoperators right e he
  case stop => exact fun _ _ _ _ _ hop => .stop hop
  case tighter => exact fun _ _ _ hover _ hlevel => .tighter hover hlevel
  case signed => exact fun _ _ hover hsigned => .signed hover hsigned
  case sign => exact fun _ _ hop ha hsigned => .sign hop ha hsigned
  case plain => exact fun _ hop hprimary => .plain hop hprimary
  case group =>
    exact fun _ hpeek ha hexpr hsuffixes =>
      .group hpeek ha hexpr fun inner d hd close e he _ => hsuffixes inner d hd close e he
  case list =>
    exact fun _ hpeek ha hitems hsuffixes =>
      .list hpeek ha hitems fun items d hd close e he _ => hsuffixes items d hd close e he
  case atom =>
    exact fun _ _ _ _ hpeek _ hatom hsuffixes => .atom hpeek hatom fun _ => hsuffixes
  case noAtom =>
    exact fun _ _ hparen hbracket hpeek hatom => .noAtom hparen hbracket hpeek hatom
  case atEnd => exact fun _ hpeek => .atEnd hpeek
  case none => exact fun _ _ _ _ _ hclose => .none hclose
  case some => exact fun _ _ _ _ _ hclose hfrom => .some hclose hfrom
  case items =>
    exact fun _ _ _ _ _ _ hexpr hmore => .of hexpr fun item e he hcomma _ => hmore item e he hcomma
  case call =>
    exact fun _ _ _ _ hpeek ha hitems hsuffixes =>
      .call hpeek ha hitems fun args e he close f hf _ => hsuffixes args e he close f hf
  case index =>
    exact fun _ _ _ _ hpeek ha hexpr hsuffixes =>
      .index hpeek ha hexpr fun index e he close f hf _ => hsuffixes index e he close f hf
  case property =>
    exact fun _ _ _ _ hpeek ha hsuffixes =>
      .property hpeek ha fun name e he _ => hsuffixes name e he
  case bare => exact fun _ _ _ _ hparen hbracket hdot => .bare hparen hbracket hdot

end ScriptMachine
