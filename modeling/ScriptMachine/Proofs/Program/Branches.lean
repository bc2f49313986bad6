import ScriptMachine.Program.Expression

/-!
# The branches of the readers of expressions

One equation for each branch of a reader, under what the branch asks of the next token. Facts
about the readers are proved branch by branch from these, in the order of the reader's own
induction.
-/

namespace ScriptMachine

variable {c d : Cursor} {level : Level}

theorem readOperators_join {hd : d.size < c.size} {left : Expr} {op : Connective}
    (hop : d.peek?.bind level.connective? = some op) (ha : d.advance.size < d.size) :
    readOperators level left c d hd =
      (readOperand level d.advance).andThen (Nat.le_of_lt (Nat.lt_trans ha hd)) fun right e he =>
        readOperators level (op.join left right) c e (Nat.lt_trans he (Nat.lt_trans ha hd)) := by
  rw [readOperators]
  split
  · next op' hop' =>
    obtain rfl : op = op' := Option.some.inj (hop.symm.trans hop')
    rfl
  · next hop' =>
    rw [hop] at hop'
    cases hop'

theorem readOperators_of_none {hd : d.size < c.size} {left : Expr}
    (hop : d.peek?.bind level.connective? = none) :
    readOperators level left c d hd = .ok left d hd := by
  rw [readOperators]
  split <;> simp_all

theorem readOperand_tighter {tighter : Level} (hover : level.tighter? = some tighter) :
    readOperand level c = readLevel tighter c := by
  rw [readOperand]
  split <;> simp_all

theorem readOperand_signed (hover : level.tighter? = none) :
    readOperand level c = readSigned c := by
  rw [readOperand]
  split <;> simp_all

theorem readSigned_sign {op : UnaryOp} (hop : c.peek?.bind sign? = some op)
    (ha : c.advance.size < c.size) :
    readSigned c = (readSigned c.advance).andThen (Nat.le_of_lt ha) fun operand d hd =>
      .ok (.unary op operand (c.here.upTo operand.span)) d (Nat.lt_trans hd ha) := by
  rw [readSigned]
  split
  · next op' hop' =>
    obtain rfl : op = op' := Option.some.inj (hop.symm.trans hop')
    rfl
  · next hop' =>
    rw [hop] at hop'
    cases hop'

theorem readSigned_plain (hop : c.peek?.bind sign? = none) : readSigned c = readPrimary c := by
  rw [readSigned]
  split <;> simp_all

theorem readPrimary_group (hpeek : c.peek? = some .openParen) (ha : c.advance.size < c.size) :
    readPrimary c = (readExpr c.advance).andThen (Nat.le_of_lt ha) fun inner d hd =>
      (expectCloseParen .group d).andThen (Nat.le_of_lt (Nat.lt_trans hd ha)) fun close e he =>
        readSuffixes (inner.withSpan (c.here.upTo close)) c e
          (Nat.lt_trans he (Nat.lt_trans hd ha)) := by
  rw [readPrimary]
  split <;> simp_all

theorem readPrimary_list (hpeek : c.peek? = some .openBracket) (ha : c.advance.size < c.size) :
    readPrimary c =
      (readItems TokenKind.isCloseBracket .element c c.advance ha).andThen (Nat.le_refl _)
        fun items d hd => (expectCloseBracket .items d).andThen (Nat.le_of_lt hd) fun close e he =>
          readSuffixes (.list items (c.here.upTo close)) c e (Nat.lt_trans he hd) := by
  rw [readPrimary]
  split <;> simp_all

theorem readPrimary_atom {kind : TokenKind} {atom : Expr} (hpeek : c.peek? = some kind)
    (hatom : atom? kind c.here = some atom) (ha : c.advance.size < c.size) :
    readPrimary c = readSuffixes atom c c.advance ha := by
  rw [readPrimary]
  split
  · next hpeek' =>
    rw [hpeek] at hpeek'
    cases hpeek'
    cases hatom
  · next hpeek' =>
    rw [hpeek] at hpeek'
    cases hpeek'
    cases hatom
  · next kind' _ _ hpeek' =>
    obtain rfl : kind = kind' := Option.some.inj (hpeek.symm.trans hpeek')
    rw [hatom]
  · simp_all

theorem readPrimary_noAtom {kind : TokenKind} (hparen : kind ≠ .openParen)
    (hbracket : kind ≠ .openBracket) (hpeek : c.peek? = some kind)
    (hatom : atom? kind c.here = none) :
    readPrimary c = .fail .noExpression c (Nat.le_refl _) := by
  rw [readPrimary]
  split
  · simp_all
  · simp_all
  · next kind' _ _ hpeek' =>
    obtain rfl : kind = kind' := Option.some.inj (hpeek.symm.trans hpeek')
    rw [hatom]
  · simp_all

theorem readPrimary_atEnd (hpeek : c.peek? = none) :
    readPrimary c = .fail .noExpression c (Nat.le_refl _) := by
  rw [readPrimary]
  split <;> simp_all

theorem readSuffixes_call {hd : d.size < c.size} {base : Expr} (hpeek : d.peek? = some .openParen)
    (ha : d.advance.size < d.size) :
    readSuffixes base c d hd =
      (readItems TokenKind.isCloseParen .argument d d.advance ha).andThen (Nat.le_of_lt hd)
        fun args e he => (expectCloseParen .args e).andThen (Nat.le_of_lt (Nat.lt_trans he hd))
          fun close f hf => readSuffixes (.call base args (base.span.upTo close)) c f
            (Nat.lt_trans hf (Nat.lt_trans he hd)) := by
  rw [readSuffixes]
  split <;> simp_all

theorem readSuffixes_index {hd : d.size < c.size} {base : Expr}
    (hpeek : d.peek? = some .openBracket) (ha : d.advance.size < d.size) :
    readSuffixes base c d hd =
      (readExpr d.advance).andThen (Nat.le_of_lt (Nat.lt_trans ha hd)) fun index e he =>
        (expectCloseBracket .index e).andThen
          (Nat.le_of_lt (Nat.lt_trans he (Nat.lt_trans ha hd))) fun close f hf =>
            readSuffixes (.index base index (base.span.upTo close)) c f
              (Nat.lt_trans hf (Nat.lt_trans he (Nat.lt_trans ha hd))) := by
  rw [readSuffixes]
  split <;> simp_all

theorem readSuffixes_property {hd : d.size < c.size} {base : Expr} (hpeek : d.peek? = some .dot)
    (ha : d.advance.size < d.size) :
    readSuffixes base c d hd =
      (expectName .property d.advance).andThen (Nat.le_of_lt (Nat.lt_trans ha hd)) fun name e he =>
        readSuffixes (.property base name.1 (base.span.upTo name.2)) c e
          (Nat.lt_trans he (Nat.lt_trans ha hd)) := by
  rw [readSuffixes]
  split <;> simp_all

theorem readSuffixes_of_ne {hd : d.size < c.size} {base : Expr}
    (hparen : d.peek? ≠ some .openParen) (hbracket : d.peek? ≠ some .openBracket)
    (hdot : d.peek? ≠ some .dot) : readSuffixes base c d hd = .ok base d hd := by
  rw [readSuffixes]
  split <;> first | contradiction | rfl

end ScriptMachine
