import ScriptMachine.Proofs.Token.Separators

/-!
# Tokens written out

A `Word` is a token that can be written: its text (`Word.text`) is a lexeme of its kind, and
nothing that may stand in a gap goes on with a lexeme (`IsLexeme.longest`). So words with a gap
between any two neighbours are a text that splits into them again (`Word.splits_spread`), and
scanning it gives back their kinds (`scan_spread`). A string is written with its quotes,
backslashes, newlines and tabs escaped, and the escapes stand for it (`isStringBody_escape`).
-/

namespace ScriptMachine

/-! ## Words -/

/-- The text of the kinds that are always written alike. -/
def TokenKind.fixedText? : TokenKind → Option String
  | .fnKw => some "fn"
  | .varKw => some "var"
  | .ifKw => some "if"
  | .elseKw => some "else"
  | .returnKw => some "return"
  | .printKw => some "print"
  | .andKw => some "and"
  | .orKw => some "or"
  | .trueKw => some "true"
  | .falseKw => some "false"
  | .nullKw => some "null"
  | .classKw => some "class"
  | .importKw => some "import"
  | .openParen => some "("
  | .closeParen => some ")"
  | .openBrace => some "\x7b"
  | .closeBrace => some "\x7d"
  | .openBracket => some "["
  | .closeBracket => some "]"
  | .comma => some ","
  | .dot => some "."
  | .semicolon => some ";"
  | .plus => some "+"
  | .minus => some "-"
  | .star => some "*"
  | .slash => some "/"
  | .slashSlash => some "//"
  | .percent => some "%"
  | .plusAssign => some "+="
  | .minusAssign => some "-="
  | .starAssign => some "*="
  | .slashAssign => some "/="
  | .slashSlashAssign => some "//="
  | .percentAssign => some "%="
  | .assign => some "="
  | .equal => some "=="
  | .bang => some "!"
  | .notEqual => some "!="
  | .less => some "<"
  | .lessEqual => some "<="
  | .greater => some ">"
  | .greaterEqual => some ">="
  | .number _ | .string _ | .name _ => none

/-- A text that is read as a name: a word, and no keyword. -/
structure IsName (text : List Char) : Prop extends IsWord text where
  free : ∀ kind : TokenKind, kind.fixedText? ≠ some (String.ofList text)

/-- A token that can be written. Numbers are given by their digits, and have the value of the
double nearest to these. -/
inductive Word where
  | fixed (kind : TokenKind) (text : String) (h : kind.fixedText? = some text)
  | name (text : List Char) (h : IsName text)
  | whole (digits : List Char) (value : Float) (h : IsDigits digits)
    (hvalue : IsDouble (decimalNumber digits []) value)
  | decimal (whole fraction : List Char) (value : Float) (hwhole : IsDigits whole)
    (hfraction : IsDigits fraction) (hvalue : IsDouble (decimalNumber whole fraction) value)
  | string (value : String)

/-- How a character is written in a string literal. -/
def escape (c : Char) : List Char :=
  if c = '"' then ['\\', '"']
  else if c = '\\' then ['\\', '\\']
  else if c = '\n' then ['\\', 'n']
  else if c = '\t' then ['\\', 't']
  else [c]

namespace Word

/-- What the word is read as. -/
def kind : Word → TokenKind
  | fixed kind _ _ => kind
  | name text _ => .name (String.ofList text)
  | whole _ value _ _ => .number value
  | decimal _ _ value _ _ _ => .number value
  | string value => .string value

/-- How the word is written. -/
def text : Word → List Char
  | fixed _ text _ => text.toList
  | name text _ => text
  | whole digits _ _ _ => digits
  | decimal digits fraction _ _ _ _ => digits ++ '.' :: fraction
  | string value => '"' :: (value.toList.flatMap escape ++ ['"'])

end Word

/-! ## The text of a word is a lexeme -/

theorem fixedText?_of_mem_keywordTable {word : String} {kind : TokenKind}
    (h : (word, kind) ∈ keywordTable) : kind.fixedText? = some word := by
  simp only [keywordTable, List.mem_cons, Prod.mk.injEq, List.not_mem_nil, or_false] at h
  repeat' (refine Or.elim h ?_ ?_ <;> clear h <;> intro h)
  all_goals
    obtain ⟨rfl, rfl⟩ := h
    rfl

/-- What is written for a string stands for it. -/
theorem isStringBody_escape (value : List Char) : IsStringBody (value.flatMap escape) value := by
  induction value with
  | nil => exact .nil
  | cons c value ih =>
    rw [List.flatMap_cons]
    by_cases hquote : c = '"'
    · subst hquote
      exact .escape (by decide) ih
    by_cases hescape : c = '\\'
    · subst hescape
      exact .escape (by decide) ih
    by_cases hnewline : c = '\n'
    · subst hnewline
      exact .escape (by decide) ih
    by_cases htab : c = '\t'
    · subst htab
      exact .escape (by decide) ih
    have hplain : escape c = [c] := by simp [escape, hquote, hescape, hnewline, htab]
    rw [hplain]
    exact .char hquote hescape hnewline ih

theorem isLexeme_of_fixedText? {kind : TokenKind} {text : String}
    (h : kind.fixedText? = some text) : IsLexeme text.toList kind := by
  cases kind
  case number | string | name => cases h
  case fnKw | varKw | ifKw | elseKw | returnKw | printKw | andKw | orKw | trueKw |
    falseKw | nullKw |
      classKw | importKw =>
    obtain rfl := Option.some.inj h
    exact .word (isWord_cons.2 ⟨by decide, List.all_eq_true.1 (by decide)⟩)
      (.keyword (by simp [keywordTable]))
  all_goals
    obtain rfl := Option.some.inj h
    exact .operator (by simp [operatorTable])

theorem Word.isLexeme (w : Word) : IsLexeme w.text w.kind := by
  cases w with
  | fixed kind text h => exact isLexeme_of_fixedText? h
  | name text h =>
    have hname : ∀ kind, (String.ofList text, kind) ∉ keywordTable := fun kind hkeyword =>
      h.free kind (fixedText?_of_mem_keywordTable hkeyword)
    exact .word h.toIsWord (.name hname)
  | whole digits value h hvalue => exact .whole h hvalue
  | decimal whole fraction value hwhole hfraction hvalue => exact .decimal hwhole hfraction hvalue
  | string value =>
    have hkind : (Word.string value).kind = .string (String.ofList value.toList) := by
      rw [String.ofList_toList, Word.kind]
    rw [hkind]
    exact .string (isStringBody_escape _)

/-! ## Gaps between words -/

/-- Blanks and comments, each of which ends with its line. -/
inductive IsSpacing : List Char → Prop
  | nil : IsSpacing []
  | blank {c : Char} {gap : List Char} (hc : c ∈ blankCharacters) (h : IsSpacing gap) :
      IsSpacing (c :: gap)
  | comment {body gap : List Char} (hbody : '\n' ∉ body) (h : IsSpacing gap) :
      IsSpacing ('#' :: (body ++ '\n' :: gap))

/-- What may stand around words. -/
structure Spacing where
  text : List Char
  isSpacing : IsSpacing text

/-- What may stand between two words. -/
structure Gap extends Spacing where
  ne_nil : text ≠ []

namespace IsSpacing

variable {gap gap' : List Char}

theorem append (h : IsSpacing gap) (h' : IsSpacing gap') : IsSpacing (gap ++ gap') := by
  induction h with
  | nil => exact h'
  | blank hc _ ih => exact .blank hc ih
  | comment hbody _ ih =>
    rw [List.cons_append, List.append_assoc, List.cons_append]
    exact .comment hbody ih

/-- Spacing is a gap in front of anything. -/
theorem isGap (h : IsSpacing gap) (rest : List Char) : IsGap gap rest := by
  induction h with
  | nil => exact .nil
  | blank hc _ ih => exact .blank hc ih
  | comment hbody _ ih => exact .comment hbody (by simp) (.blank (by decide) ih)

/-- What stands in front of spacing ends there. -/
theorem endsLexeme_head? (h : IsSpacing gap) (hne : gap ≠ []) (rest : List Char) :
    ∀ c ∈ (gap ++ rest).head?, EndsLexeme c := by
  cases h with
  | nil => exact absurd rfl hne
  | @blank c gap hc _ =>
    intro d hd
    obtain rfl := Option.some.inj hd
    simp only [blankCharacters, List.mem_cons, List.not_mem_nil, or_false] at hc
    rcases hc with rfl | rfl | rfl | rfl <;> decide
  | comment _ _ =>
    intro d hd
    obtain rfl := Option.some.inj hd
    decide

end IsSpacing

/-! ## Words with gaps between them -/

namespace Word

/-- The text of words with a gap between any two neighbours. -/
def spread (between : Nat → Gap) : List Word → List Char
  | [] => []
  | [w] => w.text
  | w :: w' :: words =>
    w.text ++ ((between 0).text ++ spread (fun n => between (n + 1)) (w' :: words))

/-- Words with gaps between them split into these words. -/
theorem splits_spread {lead trail : List Char} (hlead : IsSpacing lead) (htrail : IsSpacing trail)
    (between : Nat → Gap) (words : List Word) :
    ∃ segments, Splits (lead ++ (spread between words ++ trail)) segments ∧
      segments.map Segment.kind = words.map kind := by
  induction words generalizing lead between with
  | nil => exact ⟨[], .last ((hlead.append htrail).isGap []), rfl⟩
  | cons w words ih =>
    cases words with
    | nil =>
      have hends : ∀ c ∈ trail.head?, EndsLexeme c := by
        intro c hc
        obtain ⟨cs, rfl⟩ := List.head?_eq_some_iff.1 hc
        simpa using htrail.endsLexeme_head? (List.cons_ne_nil _ _) [] c
      exact ⟨[⟨lead, w.text, w.kind⟩],
        .segment (p := ⟨lead, w.text, w.kind⟩) (hlead.isGap _) (w.isLexeme.longest hends)
          (.last (htrail.isGap [])), rfl⟩
    | cons w' words =>
      obtain ⟨segments, hsplits, hkinds⟩ := ih (between 0).isSpacing fun n => between (n + 1)
      have hends := (between 0).isSpacing.endsLexeme_head? (between 0).ne_nil
        (spread (fun n => between (n + 1)) (w' :: words) ++ trail)
      refine ⟨⟨lead, w.text, w.kind⟩ :: segments, ?_, congrArg (w.kind :: ·) hkinds⟩
      rw [spread, List.append_assoc, List.append_assoc]
      exact .segment (p := ⟨lead, w.text, w.kind⟩) (hlead.isGap _)
        (w.isLexeme.longest hends) hsplits

end Word

/-- Scanning undoes writing: words with any gaps between them are scanned, and the tokens have the
kinds of the words, up to the end of the text. -/
theorem scan_spread (lead trail : Spacing) (between : Nat → Gap) (words : List Word) :
    ∃ tokens, scan (lead.text ++ (Word.spread between words ++ trail.text)) =
        .ok ⟨tokens, positionBehind (lead.text ++ (Word.spread between words ++ trail.text))⟩ ∧
      tokens.map Token.kind = words.map Word.kind := by
  obtain ⟨segments, hsplits, hkinds⟩ :=
    Word.splits_spread lead.isSpacing trail.isSpacing between words
  exact ⟨tokensBehind [] segments, hsplits.scanFrom_eq [] [],
    by rw [map_kind_tokensBehind, hkinds]⟩

end ScriptMachine
