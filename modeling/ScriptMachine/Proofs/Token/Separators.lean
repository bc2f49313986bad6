import ScriptMachine.Proofs.Token.Scanning

/-!
# Separators put into a text

A separator is a lexeme wherever it stands, and no lexeme goes on with one
(`EndsLexeme.not_mem_drop`). So the lexemes in front of a separator that is put into a text end
where they ended before (`IsLexeme.Longest.cut`), and the text splits as before, with one segment
more: behind a token (`Splits.insert_behind`), in front of one (`Splits.insert_ahead`) and at the
end (`Splits.insert_last`), unless a comment is open there (`Splits.append_comment`).
-/

namespace ScriptMachine

/-! ## Separators -/

/-- The marks that end what stands in front of them. -/
inductive IsSeparator : Char → TokenKind → Prop
  | comma : IsSeparator ',' .comma
  | semicolon : IsSeparator ';' .semicolon
  | closeParen : IsSeparator ')' .closeParen
  | closeBracket : IsSeparator ']' .closeBracket

/-- What starts with a quote is a string literal. -/
theorem IsLexeme.exists_body {cs : List Char} {kind : TokenKind} (h : IsLexeme ('"' :: cs) kind) :
    ∃ body value, cs = body ++ ['"'] ∧ IsStringBody body value := by
  generalize htext : '"' :: cs = text at h
  cases h with
  | word hword _ =>
    subst htext
    exact absurd (isWord_cons.1 hword).1 (by decide)
  | whole hdigits _ =>
    subst htext
    exact absurd (hdigits.isDigit '"' List.mem_cons_self) (by decide)
  | @decimal whole fraction _ hwhole _ _ =>
    obtain ⟨d, ds, rfl⟩ := List.exists_cons_of_ne_nil hwhole.ne_nil
    obtain ⟨rfl, -⟩ := List.cons.inj htext
    exact absurd (hwhole.isDigit '"' List.mem_cons_self) (by decide)
  | @string body value hbody => exact ⟨body, value, (List.cons.inj htext).2, hbody⟩
  | operator hmem =>
    subst htext
    simp [operatorTable] at hmem

/-- String literals do not start with one another. -/
theorem IsLexeme.eq_of_quote {text text' : List Char} {kind kind' : TokenKind}
    (h : IsLexeme ('"' :: text) kind) (h' : IsLexeme ('"' :: text') kind')
    (hfront : text <+: text') :
    text = text' := by
  obtain ⟨body, value, rfl, hbody⟩ := h.exists_body
  obtain ⟨body', value', rfl, hbody'⟩ := h'.exists_body
  obtain ⟨rest, hrest⟩ := hfront
  have hread := lexString_append hbody [] [] rest
  have hread' := lexString_append hbody' [] [] []
  rw [List.append_assoc, List.singleton_append] at hrest
  rw [hrest, hread'] at hread
  exact (Lexeme.token.inj hread).2.1.symm

/-- A character that no lexeme goes on with, unless it stands in a string literal. -/
def EndsLexeme (c : Char) : Prop := isNamePart c = false ∧ c ∉ ['.', '/', '=']

instance (c : Char) : Decidable (EndsLexeme c) := inferInstanceAs (Decidable (_ ∧ _))

namespace EndsLexeme

variable {s : Char}

theorem isDigit_eq_false (hs : EndsLexeme s) : s.isDigit = false := by
  have hpart := hs.1
  simp only [isNamePart, Bool.or_eq_false_iff] at hpart
  exact hpart.2

/-- No operator goes on with it. -/
theorem not_mem_operator (hs : EndsLexeme s) {text : List Char} {kind : TokenKind}
    (h : (text, kind) ∈ operatorTable) : s ∉ text.tail := by
  have hall : operatorTable.all (fun p => p.1.tail.all (['.', '/', '='].contains ·)) = true := by
    decide
  have htext := List.all_eq_true.1 hall _ h
  exact fun hmem => hs.2 (List.contains_iff_mem.1 (List.all_eq_true.1 htext s hmem))

/-- No lexeme goes on with it behind another lexeme. -/
theorem not_mem_drop (hs : EndsLexeme s) {text text' : List Char} {k k' : TokenKind}
    (h : IsLexeme text k) (h' : IsLexeme text' k') (hfront : text <+: text') :
    s ∉ text'.drop text.length := by
  intro hmem
  have hmem' : s ∈ text' := List.mem_of_mem_drop hmem
  cases h' with
  | word hword _ =>
    have hpart : isNamePart s = true := isNamePart_iff.2 (hword.parts s hmem')
    rw [hs.1] at hpart
    cases hpart
  | whole hdigits _ =>
    have hdigit := hdigits.isDigit s hmem'
    rw [hs.isDigit_eq_false] at hdigit
    cases hdigit
  | decimal hwhole hfraction _ =>
    have hdigit : s.isDigit = true := by
      rcases List.mem_append.1 hmem' with hmem' | hmem'
      · exact hwhole.isDigit s hmem'
      · rcases List.mem_cons.1 hmem' with rfl | hmem'
        · exact absurd hs (by decide)
        · exact hfraction.isDigit s hmem'
    rw [hs.isDigit_eq_false] at hdigit
    cases hdigit
  | string hbody =>
    obtain ⟨c, cs, rfl⟩ := List.exists_cons_of_ne_nil h.ne_nil
    obtain ⟨rfl, htail⟩ := List.cons_prefix_cons.1 hfront
    rw [h.eq_of_quote (.string hbody) htail, List.drop_length] at hmem
    cases hmem
  | operator hoperator =>
    have hlength := List.length_pos_iff.2 h.ne_nil
    refine hs.not_mem_operator hoperator ?_
    rw [← List.drop_one]
    exact (List.drop_subset_drop_left text' hlength) hmem

end EndsLexeme

/-- A lexeme ends in front of a character that none goes on with. -/
theorem IsLexeme.longest {text rest : List Char} {kind : TokenKind} (h : IsLexeme text kind)
    (hends : ∀ c ∈ rest.head?, EndsLexeme c) : Longest text kind rest := by
  refine ⟨h, fun {text' kind'} h' hfront' => Nat.le_of_not_lt fun hlt => ?_⟩
  have hfront : text <+: text' :=
    List.prefix_of_prefix_length_le (List.prefix_append _ _) hfront' (Nat.le_of_lt hlt)
  obtain ⟨more, rfl⟩ := hfront
  -- What the longer lexeme has more starts with the character that follows.
  cases more with
  | nil => simp at hlt
  | cons c more =>
    obtain ⟨rest, rfl⟩ := (List.prefix_append_right_inj text).1 hfront'
    refine (hends c rfl).not_mem_drop h h' (List.prefix_append _ _) ?_
    rw [List.drop_left]
    exact List.mem_cons_self

namespace IsSeparator

variable {s : Char} {kind : TokenKind}

theorem endsLexeme (hs : IsSeparator s kind) : EndsLexeme s := by
  cases hs <;> decide

theorem ne_newline (hs : IsSeparator s kind) : s ≠ '\n' := by
  cases hs <;> decide

/-- A separator is a lexeme, whatever follows. -/
theorem longest (hs : IsSeparator s kind) (rest : List Char) :
    IsLexeme.Longest [s] kind rest := by
  have hread : lexeme s rest = .token kind [s] rest := by
    cases hs <;> rfl
  exact (lexeme_eq_token_iff.1 hread).2

end IsSeparator

/-- A separator ends a lexeme where it ended before. -/
theorem IsLexeme.Longest.cut {text front back : List Char} {k kind : TokenKind} {s : Char}
    (h : Longest text k (front ++ back)) (hs : IsSeparator s kind) (back' : List Char) :
    Longest text k (front ++ s :: back') := by
  refine ⟨h.isLexeme, fun {text' kind'} h' hfront' => Nat.le_of_not_lt fun hlt => ?_⟩
  have hfront : text <+: text' :=
    List.prefix_of_prefix_length_le (List.prefix_append _ _) hfront' (Nat.le_of_lt hlt)
  by_cases hlength : text'.length ≤ (text ++ front).length
  · -- A lexeme up to the separator stood there before.
    have hbefore : text' <+: text ++ front := by
      refine List.prefix_of_prefix_length_le hfront' ?_ hlength
      rw [← List.append_assoc]
      exact List.prefix_append _ _
    have hle := h.length_le h' (hbefore.trans ⟨back, List.append_assoc _ _ _⟩)
    omega
  · -- A longer one would hold the separator.
    have hholds : text ++ front ++ [s] <+: text' := by
      refine List.prefix_of_prefix_length_le ⟨back', by simp⟩ hfront' ?_
      rw [List.length_append, List.length_singleton]
      omega
    obtain ⟨rest, rfl⟩ := hholds
    refine hs.endsLexeme.not_mem_drop h.isLexeme h' hfront ?_
    simp [List.append_assoc]

/-! ## Gaps -/

/-- A gap in front of a text is one in front of any other that starts alike. -/
theorem IsGap.congr {gap rest rest' : List Char} (h : IsGap gap rest)
    (hhead : rest'.head? = rest.head?) : IsGap gap rest' := by
  induction h with
  | nil => exact .nil
  | blank hc _ ih => exact .blank hc (ih hhead)
  | comment hbody hend _ ih =>
    refine .comment hbody (fun c hc => hend c ?_) (ih hhead)
    rwa [List.head?_append, hhead, ← List.head?_append] at hc

/-- The last line of the text has a `#` on it. -/
def EndsInComment (gap : List Char) : Prop := ∃ front body, gap = front ++ '#' :: body ∧ '\n' ∉ body

theorem not_endsInComment_nil : ¬EndsInComment [] := by
  rintro ⟨front, body, heq, -⟩
  simp at heq

theorem EndsInComment.append {gap : List Char} (h : EndsInComment gap) (front : List Char) :
    EndsInComment (front ++ gap) := by
  obtain ⟨middle, body, rfl, hbody⟩ := h
  exact ⟨front ++ middle, body, (List.append_assoc _ _ _).symm, hbody⟩

theorem EndsInComment.of_cons {c : Char} {gap : List Char} (h : EndsInComment (c :: gap))
    (hc : c ≠ '#') : EndsInComment gap := by
  obtain ⟨front, body, heq, hbody⟩ := h
  cases front with
  | nil => exact absurd (List.cons.inj heq).1 hc
  | cons d front => exact ⟨front, body, (List.cons.inj heq).2, hbody⟩

/-- What stands on earlier lines does not matter. -/
theorem EndsInComment.of_line {gap : List Char} (front : List Char)
    (h : EndsInComment (front ++ '\n' :: gap)) : EndsInComment ('\n' :: gap) := by
  obtain ⟨before, body, heq, hbody⟩ := h
  rcases List.append_eq_append_iff.1 heq with ⟨middle, -, hline⟩ | ⟨middle, -, hcomment⟩
  · exact ⟨middle, body, hline, hbody⟩
  · cases middle with
    | nil => cases hcomment
    | cons c middle =>
      rw [(List.cons.inj hcomment).2] at hbody
      simp at hbody

theorem ne_of_mem_blankCharacters {c : Char} (hc : c ∈ blankCharacters) : c ≠ '#' := by
  rintro rfl
  simp [blankCharacters] at hc

/-- Where no comment is open at the end of a gap, anything may follow. -/
theorem IsGap.of_closed {gap rest : List Char} (h : IsGap gap rest) (hclosed : ¬EndsInComment gap)
    (rest' : List Char) : IsGap gap rest' := by
  induction h with
  | nil => exact .nil
  | @blank c gap rest hc _ ih => exact .blank hc (ih fun hopen => hclosed (hopen.append [c]))
  | @comment body gap rest hbody hend _ ih =>
    have hgap := ih fun hopen => hclosed (hopen.append ('#' :: body))
    cases gap with
    | nil => exact absurd ⟨[], body, by simp, hbody⟩ hclosed
    | cons c gap => exact .comment hbody hend hgap

/-- No comment is open in front of what stands on the same line. -/
theorem IsGap.closed {gap rest : List Char} {c : Char} (h : IsGap gap (c :: rest)) (hc : c ≠ '\n') :
    ¬EndsInComment gap := by
  generalize hrest : c :: rest = text at h
  induction h with
  | nil => exact not_endsInComment_nil
  | blank hblank _ ih =>
    exact fun hopen => ih hrest (hopen.of_cons (ne_of_mem_blankCharacters hblank))
  | @comment body gap text hbody hend _ ih =>
    subst hrest
    intro hopen
    cases gap with
    | nil => exact hc (hend c rfl)
    | cons d gap =>
      obtain rfl := hend d rfl
      exact ih rfl (.of_line ('#' :: body) hopen)

/-- A comment that is open at the end of a text goes on. -/
theorem IsGap.concat {gap : List Char} (h : IsGap gap []) (hopen : EndsInComment gap) {c : Char}
    (hc : c ≠ '\n') : IsGap (gap ++ [c]) [] := by
  generalize hrest : [] = text at h
  induction h with
  | nil => exact absurd hopen not_endsInComment_nil
  | blank hblank _ ih =>
    exact .blank hblank (ih (hopen.of_cons (ne_of_mem_blankCharacters hblank)) hrest)
  | @comment body gap text hbody hend _ ih =>
    subst hrest
    cases gap with
    | nil =>
      have hbody' : '\n' ∉ body ++ [c] := by
        simpa [hbody] using hc.symm
      rw [List.append_nil, List.cons_append, ← List.append_nil (body ++ [c])]
      exact .comment hbody' nofun .nil
    | cons d gap =>
      obtain rfl := hend d rfl
      rw [List.cons_append, List.append_assoc]
      exact .comment hbody hend (ih (.of_line ('#' :: body) hopen) rfl)

/-! ## Splitting with one more segment -/

/-- The text of segments. -/
def written : List Segment → List Char
  | [] => []
  | p :: segments => p.gap ++ (p.lexeme ++ written segments)

namespace Splits

variable {text tail front back : List Char} {l l' m : List Segment} {s : Char} {kind : TokenKind}

/-- Behind the first segments of a text the others follow. -/
theorem exists_tail (h : Splits text (l ++ m)) : ∃ tail, text = written l ++ tail ∧
    Splits tail m := by
  induction l generalizing text with
  | nil => exact ⟨text, rfl, h⟩
  | cons p l ih =>
    rw [List.cons_append] at h
    cases h with
    | segment hgap hlexeme hrest =>
      obtain ⟨tail, rfl, htail⟩ := ih hrest
      exact ⟨tail, by simp [written], htail⟩

/-- The segments in front of a separator that is put into a text are those that were there. -/
theorem splice (h : Splits (written l ++ (front ++ back)) (l ++ m)) (hs : IsSeparator s kind)
    (h' : Splits (front ++ s :: tail) l') :
    Splits (written l ++ (front ++ s :: tail)) (l ++ l') := by
  induction l with
  | nil => exact h'
  | cons p l ih =>
    generalize htext : written (p :: l) ++ (front ++ back) = text at h
    rw [List.cons_append] at h
    cases h with
    | @segment _ rest _ hgap hlexeme hrest =>
      rw [written, List.append_assoc, List.append_assoc] at htext
      obtain rfl := List.append_cancel_left (List.append_cancel_left htext)
      rw [written, List.append_assoc, List.append_assoc, List.cons_append]
      refine .segment (hgap.congr ?_) ?_ (ih hrest)
      · obtain ⟨c, cs, hcons⟩ := List.exists_cons_of_ne_nil hlexeme.isLexeme.ne_nil
        rw [hcons, List.cons_append, List.cons_append, List.head?_cons, List.head?_cons]
      · rw [← List.append_assoc] at hlexeme ⊢
        exact hlexeme.cut hs _

/-- A separator right behind some of the tokens. -/
theorem insert_behind (h : Splits (written l ++ tail) (l ++ m)) (htail : Splits tail m)
    (hs : IsSeparator s kind) :
    Splits (written l ++ s :: tail) (l ++ ⟨[], [s], kind⟩ :: m) := by
  have hmore : Splits ([] ++ s :: tail) (⟨[], [s], kind⟩ :: m) :=
    .segment (p := ⟨[], [s], kind⟩) .nil (hs.longest tail) htail
  exact splice h hs hmore

theorem isGap_blanks {blanks : List Char} (h : ∀ c ∈ blanks, c ∈ blankCharacters)
    (rest : List Char) : IsGap blanks rest := by
  induction blanks with
  | nil => exact .nil
  | cons c blanks ih =>
    obtain ⟨hc, hblanks⟩ := List.forall_mem_cons.1 h
    exact .blank hc (ih hblanks)

/-- A separator right in front of a token, perhaps with blanks between them. -/
theorem insert_ahead {p : Segment} {rest blanks : List Char}
    (h : Splits (written l ++ (p.gap ++ (p.lexeme ++ rest))) (l ++ p :: m))
    (hgap : IsGap p.gap (p.lexeme ++ rest)) (hlexeme : IsLexeme.Longest p.lexeme p.kind rest)
    (hrest : Splits rest m) (hs : IsSeparator s kind)
    (hblanks : ∀ c ∈ blanks, c ∈ blankCharacters) :
    Splits (written l ++ (p.gap ++ s :: (blanks ++ (p.lexeme ++ rest))))
      (l ++ ⟨p.gap, [s], kind⟩ :: ⟨blanks, p.lexeme, p.kind⟩ :: m) := by
  have hfollows : Splits (blanks ++ (p.lexeme ++ rest)) (⟨blanks, p.lexeme, p.kind⟩ :: m) :=
    .segment (p := ⟨blanks, p.lexeme, p.kind⟩) (isGap_blanks hblanks _) hlexeme hrest
  refine splice h hs (.segment (p := ⟨p.gap, [s], kind⟩) (hgap.of_closed ?_ _)
    (hs.longest _) hfollows)
  -- The lexeme stands on the line where the gap ends.
  obtain ⟨c, cs, hcons⟩ := List.exists_cons_of_ne_nil hlexeme.isLexeme.ne_nil
  have hhead := hlexeme.isLexeme
  rw [hcons] at hhead hgap
  refine hgap.closed ?_
  rintro rfl
  cases hhead.head_ne.1

variable {gap : List Char}

/-- A separator at the end of a text that does not end in a comment. -/
theorem insert_last (h : Splits (written l ++ gap) (l ++ [])) (hgap : IsGap gap [])
    (hclosed : ¬EndsInComment gap) (hs : IsSeparator s kind) :
    Splits (written l ++ (gap ++ [s])) (l ++ [⟨gap, [s], kind⟩]) := by
  rw [← List.append_nil gap] at h
  exact splice h hs
    (.segment (p := ⟨gap, [s], kind⟩) (hgap.of_closed hclosed _) (hs.longest []) (.last .nil))

/-- A separator at the end of a comment that ends with the text. -/
theorem append_comment (h : Splits (written l ++ gap) (l ++ [])) (hgap : IsGap gap [])
    (hopen : EndsInComment gap) (hs : IsSeparator s kind) :
    Splits (written l ++ (gap ++ [s])) (l ++ []) := by
  rw [← List.append_nil gap] at h
  exact splice h hs (.last (hgap.concat hopen hs.ne_newline))

end Splits

/-! ## Places in a text -/

theorem length_tokensBehind (before : List Char) (segments : List Segment) :
    (tokensBehind before segments).length = segments.length := by
  rw [← List.length_map Token.kind, map_kind_tokensBehind, List.length_map]

/-- Where segments end, where they stand behind a first part of a text. -/
theorem getElem?_stops_tokensBehind (before : List Char) (l m : List Segment) :
    (positionBehind before :: (tokensBehind before (l ++ m)).map (·.span.stop))[l.length]? =
      some (positionBehind (before ++ written l)) := by
  induction l generalizing before with
  | nil => simp [written]
  | cons p l ih =>
    rw [List.length_cons, List.getElem?_cons_succ, List.cons_append, tokensBehind, List.map_cons,
      ih]
    simp [written]

/-- Where the lexeme of a segment starts. -/
theorem getElem?_tokensBehind (before : List Char) (l m : List Segment) (p : Segment) :
    (tokensBehind before (l ++ p :: m))[l.length]?.map (·.span.start) =
      some (positionBehind (before ++ (written l ++ p.gap))) := by
  induction l generalizing before with
  | nil => simp [written, tokensBehind]
  | cons q l ih =>
    rw [List.length_cons, List.cons_append, tokensBehind, List.getElem?_cons_succ, ih]
    simp [written]

end ScriptMachine
