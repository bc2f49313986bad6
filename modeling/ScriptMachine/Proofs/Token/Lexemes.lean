import Mathlib.Data.List.TakeWhile
import Mathlib.Data.Nat.Find
import ScriptMachine.Proofs.Number.Double
import ScriptMachine.Token.Lexeme

/-!
# What a lexeme is

`IsLexeme text kind` says which texts are lexemes and what they mean, apart from
how they are read. `lexeme` reads the longest lexeme at the head of a text, if
there is one (`lexeme_eq_token_iff`): a lexeme that nothing longer continues is
read as a whole (`IsLexeme.Longest.lexeme_eq`), and what is read is a lexeme
(`isLexeme_of_lexeme`).
-/

namespace ScriptMachine

/-! ## Lexemes -/

/-- Operators and punctuation. -/
def operatorTable : List (List Char × TokenKind) :=
  [(['('], .openParen), ([')'], .closeParen), (['\x7b'], .openBrace), (['\x7d'], .closeBrace),
    (['['], .openBracket), ([']'], .closeBracket), ([','], .comma), (['.'], .dot),
      ([';'], .semicolon),
    (['+'], .plus), (['+', '='], .plusAssign), (['-'], .minus), (['-', '='], .minusAssign),
    (['*'], .star), (['*', '='], .starAssign), (['%'], .percent), (['%', '='], .percentAssign),
    (['/'], .slash), (['/', '='], .slashAssign),
    (['/', '/'], .slashSlash), (['/', '/', '='], .slashSlashAssign),
    (['='], .assign), (['=', '='], .equal), (['!'], .bang), (['!', '='], .notEqual),
    (['<'], .less), (['<', '='], .lessEqual), (['>'], .greater), (['>', '='], .greaterEqual)]

/-- Keywords. -/
def keywordTable : List (String × TokenKind) :=
  [("fn", .fnKw), ("var", .varKw), ("if", .ifKw), ("else", .elseKw), ("return", .returnKw),
    ("print", .printKw), ("and", .andKw), ("or", .orKw), ("true", .trueKw), ("false", .falseKw),
    ("null", .nullKw), ("class", .classKw), ("import", .importKw)]

/-- The characters that may stand behind a backslash, and what they stand for there. -/
def escapeTable : List (Char × Char) := [('"', '"'), ('\\', '\\'), ('n', '\n'), ('t', '\t')]

/-- A word: letters, digits and underscores, of which the first is no digit. -/
structure IsWord (text : List Char) : Prop where
  start : ∃ c ∈ text.head?, c.isAlpha = true ∨ c = '_'
  parts : ∀ c ∈ text, c.isAlphanum = true ∨ c = '_'

/-- What a word means. -/
inductive WordMeans (word : String) : TokenKind → Prop
  | keyword {kind : TokenKind} (h : (word, kind) ∈ keywordTable) : WordMeans word kind
  | name (h : ∀ kind, (word, kind) ∉ keywordTable) : WordMeans word (.name word)

/-- One digit or more. -/
structure IsDigits (text : List Char) : Prop where
  ne_nil : text ≠ []
  isDigit : ∀ c ∈ text, c.isDigit = true

/-- The number that digits stand for. -/
def digitsNumber (digits : List Char) : Nat := Nat.ofDigitChars 10 digits 0

/-- The number that digits before and behind a point stand for. -/
def decimalNumber (whole fraction : List Char) : ℚ :=
  digitsNumber (whole ++ fraction) / 10 ^ fraction.length

/-- What stands between the quotes of a string literal, and the characters it
stands for. -/
inductive IsStringBody : List Char → List Char → Prop
  | nil : IsStringBody [] []
  | char {c : Char} {body value : List Char} (hquote : c ≠ '"') (hescape : c ≠ '\\')
      (hnewline : c ≠ '\n') (h : IsStringBody body value) : IsStringBody (c :: body) (c :: value)
  | escape {e c : Char} {body value : List Char} (he : (e, c) ∈ escapeTable)
      (h : IsStringBody body value) : IsStringBody ('\\' :: e :: body) (c :: value)

/-- The texts that are lexemes, and the tokens they stand for. The value of a number is the double
nearest to what its digits say. -/
inductive IsLexeme : List Char → TokenKind → Prop
  | word {text : List Char} {kind : TokenKind} (h : IsWord text)
      (hkind : WordMeans (String.ofList text) kind) : IsLexeme text kind
  | whole {digits : List Char} {value : Float} (h : IsDigits digits)
      (hvalue : IsDouble (decimalNumber digits []) value) : IsLexeme digits (.number value)
  | decimal {whole fraction : List Char} {value : Float} (hwhole : IsDigits whole)
      (hfraction : IsDigits fraction) (hvalue : IsDouble (decimalNumber whole fraction) value) :
      IsLexeme (whole ++ '.' :: fraction) (.number value)
  | string {body value : List Char} (h : IsStringBody body value) :
      IsLexeme ('"' :: (body ++ ['"'])) (.string (String.ofList value))
  | operator {text : List Char} {kind : TokenKind} (h : (text, kind) ∈ operatorTable) :
      IsLexeme text kind

/-- A lexeme in front of `rest` that no longer one starts with. -/
structure IsLexeme.Longest (text : List Char) (kind : TokenKind) (rest : List Char) : Prop where
  isLexeme : IsLexeme text kind
  length_le : ∀ {text' kind'}, IsLexeme text' kind' → text' <+: text ++ rest →
    text'.length ≤ text.length

theorem IsWord.ne_nil {text : List Char} (h : IsWord text) : text ≠ [] := by
  rintro rfl
  obtain ⟨c, hc, -⟩ := h.start
  cases hc

theorem IsLexeme.ne_nil {text : List Char} {kind : TokenKind} (h : IsLexeme text kind) :
    text ≠ [] := by
  cases h with
  | word h => exact h.ne_nil
  | whole h => exact h.ne_nil
  | operator h =>
    rintro rfl
    simp [operatorTable] at h
  | _ => simp

/-! ## Words and escapes -/

theorem isNameStart_iff {c : Char} : isNameStart c = true ↔ c.isAlpha = true ∨ c = '_' := by
  rw [isNameStart, Bool.or_eq_true, beq_iff_eq]

theorem isNamePart_iff {c : Char} : isNamePart c = true ↔ c.isAlphanum = true ∨ c = '_' := by
  rw [isNamePart, Bool.or_eq_true, isNameStart_iff, Char.isAlphanum, Bool.or_eq_true]
  exact or_right_comm

theorem isWord_cons {c : Char} {cs : List Char} :
    IsWord (c :: cs) ↔ isNameStart c = true ∧ ∀ d ∈ cs, isNamePart d = true := by
  refine ⟨fun h => ⟨?_, fun d hd => isNamePart_iff.2 (h.parts d (List.mem_cons_of_mem c hd))⟩,
    fun ⟨hstart, hparts⟩ => ⟨⟨c, rfl, isNameStart_iff.1 hstart⟩, fun d hd => ?_⟩⟩
  · obtain ⟨d, hd, hstart⟩ := h.start
    cases hd
    exact isNameStart_iff.2 hstart
  · refine isNamePart_iff.1 ((List.mem_cons.1 hd).elim ?_ (hparts d))
    rintro rfl
    rw [isNamePart, hstart, Bool.true_or]

theorem wordMeans_wordKind (word : String) : WordMeans word (wordKind word) := by
  unfold wordKind
  split
  case h_14 => exact .name (by simp_all [keywordTable])
  all_goals exact .keyword (by simp [keywordTable])

theorem WordMeans.eq_wordKind {word : String} {kind : TokenKind} (h : WordMeans word kind) :
    kind = wordKind word := by
  cases h with
  | keyword h =>
    simp only [keywordTable, List.mem_cons, Prod.mk.injEq, List.not_mem_nil, or_false] at h
    repeat' (refine Or.elim h ?_ ?_ <;> clear h <;> intro h)
    all_goals
      obtain ⟨rfl, rfl⟩ := h
      rfl
  | name h =>
    have hmeans := wordMeans_wordKind word
    generalize wordKind word = kind at hmeans ⊢
    cases hmeans with
    | keyword h' => exact absurd h' (h kind)
    | name => rfl

theorem unescape?_eq_some_iff {e c : Char} : unescape? e = some c ↔ (e, c) ∈ escapeTable := by
  constructor
  · intro h
    unfold unescape? at h
    split at h <;> cases h <;> simp [escapeTable]
  · intro h
    simp only [escapeTable, List.mem_cons, Prod.mk.injEq, List.not_mem_nil, or_false] at h
    rcases h with ⟨rfl, rfl⟩ | ⟨rfl, rfl⟩ | ⟨rfl, rfl⟩ | ⟨rfl, rfl⟩ <;> rfl

/-! ## Numbers -/

/-- Any digits have a nearest double. -/
theorem isDouble_decimalValue (whole fraction : List Char) :
    IsDouble (decimalNumber whole fraction) (decimalValue whole fraction) := by
  have hdouble := isDouble_ofRatio (digitsValue (whole ++ fraction))
    (Nat.pow_pos (show 0 < 10 by decide) : 0 < 10 ^ fraction.length).ne'
  rw [Nat.cast_pow, Nat.cast_ofNat] at hdouble
  exact hdouble

theorem isDouble_iff_eq_decimalValue {whole fraction : List Char} {value : Float} :
    IsDouble (decimalNumber whole fraction) value ↔ value = decimalValue whole fraction :=
  ⟨fun h => h.unique (isDouble_decimalValue whole fraction), fun h => h ▸ isDouble_decimalValue _ _⟩

/-! ## Which reader takes over -/

theorem lexeme_eq_lexWord {c : Char} (h : isNameStart c = true) (cs : List Char) :
    lexeme c cs = lexWord (c :: cs) := by
  unfold lexeme
  split
  case h_20 => rw [if_pos h]
  all_goals exact absurd h (by decide)

theorem isNameStart_eq_false_of_isDigit {c : Char} (h : c.isDigit = true) :
    isNameStart c = false := by
  have hne : c ≠ '_' := by
    rintro rfl
    exact absurd h (by decide)
  have halpha : c.isAlpha = false := by
    delta Char.isAlpha Char.isUpper Char.isLower
    simp only [Char.isDigit, Bool.and_eq_true, decide_eq_true_eq, Bool.or_eq_false_iff,
      Bool.and_eq_false_iff, decide_eq_false_iff_not, UInt32.le_iff_toNat_le] at h ⊢
    simp at h ⊢
    omega
  simp [isNameStart, halpha, hne]

theorem lexeme_eq_lexNumber {c : Char} (h : c.isDigit = true) (cs : List Char) :
    lexeme c cs = lexNumber (c :: cs) := by
  unfold lexeme
  split
  case h_20 =>
    have hstart := isNameStart_eq_false_of_isDigit h
    rw [if_neg (by simp [hstart]), if_pos h]
  all_goals exact absurd h (by decide)

/-! ## Reading what is a lexeme -/

section Reading

variable {α : Type} {p : α → Bool} {xs ys : List α}

/-- The longest first part whose members all satisfy `p`. -/
theorem takeWhile_append_eq (h : ∀ x ∈ xs, p x = true) (hstop : ∀ y ∈ ys.head?, p y = false) :
    (xs ++ ys).takeWhile p = xs := by
  rw [List.takeWhile_append_of_pos h]
  cases ys with
  | nil => simp
  | cons y ys => simp [hstop y rfl]

theorem dropWhile_append_eq (h : ∀ x ∈ xs, p x = true) (hstop : ∀ y ∈ ys.head?, p y = false) :
    (xs ++ ys).dropWhile p = ys := by
  rw [List.dropWhile_append_of_pos h]
  cases ys with
  | nil => rfl
  | cons y ys => simp [hstop y rfl]

end Reading

theorem lexWord_append {word rest : List Char} (h : ∀ c ∈ word, isNamePart c = true)
    (hstop : ∀ c ∈ rest.head?, isNamePart c = false) :
    lexWord (word ++ rest) = .token (wordKind (String.ofList word)) word rest := by
  rw [lexWord, takeWhile_append_eq h hstop, dropWhile_append_eq h hstop]

theorem lexNumber_whole {digits rest : List Char} (h : IsDigits digits)
    (hstop : ∀ c ∈ rest.head?, c.isDigit = false)
    (hpoint : ∀ {d ds}, rest = '.' :: d :: ds → d.isDigit = false) :
    lexNumber (digits ++ rest) = .token (.number (decimalValue digits [])) digits rest := by
  rw [lexNumber, takeWhile_append_eq h.isDigit hstop, dropWhile_append_eq h.isDigit hstop]
  dsimp only
  split
  · next d ds => rw [if_neg (by simp [hpoint rfl])]
  · rfl

theorem lexNumber_decimal {whole fraction rest : List Char} (hwhole : IsDigits whole)
    (hfraction : IsDigits fraction) (hstop : ∀ c ∈ rest.head?, c.isDigit = false) :
    lexNumber (whole ++ '.' :: (fraction ++ rest)) =
      .token (.number (decimalValue whole fraction)) (whole ++ '.' :: fraction) rest := by
  have hpoint : ∀ c ∈ ('.' :: (fraction ++ rest)).head?, c.isDigit = false := by
    simp only [List.head?_cons, Option.mem_some_iff, forall_eq']
    rfl
  rw [lexNumber, takeWhile_append_eq hwhole.isDigit hpoint,
    dropWhile_append_eq hwhole.isDigit hpoint]
  obtain ⟨d, ds, rfl⟩ := List.exists_cons_of_ne_nil hfraction.ne_nil
  have hd : d.isDigit = true := hfraction.isDigit d List.mem_cons_self
  have htake := takeWhile_append_eq hfraction.isDigit hstop
  have hdrop := dropWhile_append_eq hfraction.isDigit hstop
  rw [List.cons_append] at htake hdrop ⊢
  simp only [hd, if_true, List.drop_succ_cons, List.drop_zero, htake, hdrop]

/-- A string literal is read up to its closing quote. -/
theorem lexString_append {body value : List Char} (h : IsStringBody body value)
    (value' taken rest : List Char) :
    lexString value' taken (body ++ '"' :: rest) =
      .token (.string (String.ofList (value'.reverse ++ value)))
        (taken.reverse ++ (body ++ ['"'])) rest := by
  induction h generalizing value' taken with
  | nil => simp [lexString]
  | @char c body value hquote hescape hnewline _ ih =>
    have hread : lexString value' taken (c :: (body ++ '"' :: rest)) =
        lexString (c :: value') (c :: taken) (body ++ '"' :: rest) := by
      rw [lexString] <;> simp_all
    rw [List.cons_append, hread, ih]
    simp
  | @escape e c body value he _ ih =>
    have hread : lexString value' taken ('\\' :: e :: (body ++ '"' :: rest)) =
        lexString (c :: value') (e :: '\\' :: taken) (body ++ '"' :: rest) := by
      rw [lexString, unescape?_eq_some_iff.2 he]
    rw [List.cons_append, List.cons_append, hread, ih]
    simp

theorem lexAssignable_of_ne {rest : List Char} (h : ∀ cs, rest ≠ '=' :: cs) (c : Char)
    (plain assigning : TokenKind) :
    lexAssignable c plain assigning rest = .token plain [c] rest := by
  unfold lexAssignable
  split
  · next cs => exact absurd rfl (h cs)
  · rfl

theorem lexSlash_of_ne {rest : List Char} (hslash : ∀ cs, rest ≠ '/' :: cs)
    (hequals : ∀ cs, rest ≠ '=' :: cs) : lexSlash rest = .token .slash ['/'] rest := by
  unfold lexSlash
  split
  · next cs => exact absurd rfl (hslash _)
  · next cs _ => exact absurd rfl (hslash _)
  · next cs => exact absurd rfl (hequals _)
  · rfl

theorem lexSlash_slash_of_ne {rest : List Char} (h : ∀ cs, rest ≠ '=' :: cs) :
    lexSlash ('/' :: rest) = .token .slashSlash ['/', '/'] rest := by
  unfold lexSlash
  split
  · next cs heq => exact absurd (List.cons.inj heq).2 (h cs)
  · next cs _ heq => rw [(List.cons.inj heq).2]
  · next cs heq => cases heq
  · next hslash _ => exact absurd rfl (hslash rest)

/-- An operator is read where no longer one stands. -/
theorem lexeme_operator {c : Char} {cs rest : List Char} {kind : TokenKind}
    (h : (c :: cs, kind) ∈ operatorTable)
    (hnext : ∀ d kind', (c :: cs ++ [d], kind') ∈ operatorTable → ∀ ds, rest ≠ d :: ds) :
    lexeme c (cs ++ rest) = .token kind (c :: cs) rest := by
  have hequals : ∀ {kind'}, (c :: cs ++ ['='], kind') ∈ operatorTable → ∀ ds, rest ≠ '=' :: ds :=
    hnext '=' _
  have hslash : ∀ {kind'}, (c :: cs ++ ['/'], kind') ∈ operatorTable → ∀ ds, rest ≠ '/' :: ds :=
    hnext '/' _
  simp only [operatorTable, List.mem_cons, Prod.mk.injEq, List.cons.injEq, List.not_mem_nil,
    or_false] at h
  repeat' (refine Or.elim h ?_ ?_ <;> clear h <;> intro h)
  all_goals
    obtain ⟨⟨rfl, rfl⟩, rfl⟩ := h
    first
    | rfl
    | exact lexAssignable_of_ne (hequals (by simp [operatorTable]; rfl)) _ _ _
    | exact lexSlash_of_ne (hslash (by simp [operatorTable]; rfl))
        (hequals (by simp [operatorTable]; rfl))
    | exact lexSlash_slash_of_ne (hequals (by simp [operatorTable]; rfl))

namespace IsLexeme.Longest

variable {text rest : List Char} {kind : TokenKind}

/-- No lexeme goes on by one more character. -/
theorem ne_cons (h : Longest text kind rest) {c : Char} {kind' : TokenKind}
    (h' : IsLexeme (text ++ [c]) kind') (cs : List Char) : rest ≠ c :: cs := by
  rintro rfl
  have hle := h.length_le h' ⟨cs, by simp⟩
  rw [List.length_append, List.length_singleton] at hle
  omega

/-- A class of characters that would go on with the lexeme stops at its end. -/
theorem head?_eq_false (h : Longest text kind rest) {p : Char → Bool}
    (hp : ∀ c, p c = true → ∃ kind', IsLexeme (text ++ [c]) kind') :
    ∀ c ∈ rest.head?, p c = false := by
  intro c hc
  obtain ⟨cs, rfl⟩ := List.head?_eq_some_iff.1 hc
  refine Bool.eq_false_iff.2 fun htrue => ?_
  obtain ⟨kind', h'⟩ := hp c htrue
  exact h.ne_cons h' cs rfl

end IsLexeme.Longest

theorem IsDigits.concat {digits : List Char} {c : Char} (h : IsDigits digits)
    (hc : c.isDigit = true) : IsDigits (digits ++ [c]) :=
  ⟨by simp, List.forall_mem_append.2 ⟨h.isDigit, by simpa using hc⟩⟩

/-- The longest lexeme is the one that is read. -/
theorem IsLexeme.Longest.lexeme_eq {c : Char} {cs rest : List Char} {kind : TokenKind}
    (h : Longest (c :: cs) kind rest) : lexeme c (cs ++ rest) = .token kind (c :: cs) rest := by
  obtain ⟨hlexeme, hlongest⟩ := h
  generalize htext : c :: cs = text at hlexeme
  have hlongest' : Longest text kind rest := ⟨hlexeme, htext ▸ hlongest⟩
  cases hlexeme with
  | word hword hkind =>
    subst htext
    obtain ⟨hstart, hparts⟩ := isWord_cons.1 hword
    have hall : ∀ d ∈ c :: cs, isNamePart d = true :=
      List.forall_mem_cons.2 ⟨by simp [isNamePart, hstart], hparts⟩
    rw [lexeme_eq_lexWord hstart, ← List.cons_append, hkind.eq_wordKind]
    refine lexWord_append hall (hlongest'.head?_eq_false fun d hd => ?_)
    have hlonger : IsWord (c :: (cs ++ [d])) :=
      isWord_cons.2 ⟨hstart, List.forall_mem_append.2 ⟨hparts, by simpa using hd⟩⟩
    exact ⟨_, .word hlonger (wordMeans_wordKind _)⟩
  | whole hdigits hvalue =>
    subst htext
    obtain rfl := isDouble_iff_eq_decimalValue.1 hvalue
    have hstop := hlongest'.head?_eq_false fun d hd =>
      ⟨_, .whole (hdigits.concat hd) (isDouble_decimalValue _ _)⟩
    rw [lexeme_eq_lexNumber (hdigits.isDigit c List.mem_cons_self), ← List.cons_append]
    refine lexNumber_whole hdigits hstop fun {d ds} hrest => Bool.eq_false_iff.2 fun hd => ?_
    -- A digit behind the point would make a longer lexeme.
    have hfraction : IsDigits [d] := ⟨by simp, by simpa using hd⟩
    have hle := hlongest'.length_le
      (.decimal hdigits hfraction (isDouble_decimalValue _ _)) ⟨ds, by simp [hrest]⟩
    simp only [List.length_append, List.length_cons] at hle
    omega
  | @decimal whole fraction value hwhole hfraction hvalue =>
    obtain ⟨d, ds, rfl⟩ := List.exists_cons_of_ne_nil hwhole.ne_nil
    obtain ⟨rfl, rfl⟩ := List.cons.inj htext
    obtain rfl := isDouble_iff_eq_decimalValue.1 hvalue
    have hstop := hlongest'.head?_eq_false fun e he =>
      ⟨_, by simpa using
        IsLexeme.decimal hwhole (hfraction.concat he) (isDouble_decimalValue _ _)⟩
    rw [lexeme_eq_lexNumber (hwhole.isDigit c List.mem_cons_self)]
    simpa using lexNumber_decimal hwhole hfraction hstop
  | @string body value hbody =>
    obtain ⟨rfl, rfl⟩ := List.cons.inj htext
    simpa [lexeme] using lexString_append hbody [] ['"'] rest
  | operator hmem =>
    subst htext
    exact lexeme_operator hmem fun d kind' h' ds => hlongest'.ne_cons (.operator h') ds

/-! ## What is read is a lexeme -/

/-- A token that is read stands for its text. -/
def Lexeme.Proper : Lexeme → Prop
  | .token kind taken _ => IsLexeme taken kind
  | .fault _ _ => True

theorem lexWord_proper {c : Char} (h : isNameStart c = true) (cs : List Char) :
    (lexWord (c :: cs)).Proper := by
  have hc : isNamePart c = true := by simp [isNamePart, h]
  have htake : (c :: cs).takeWhile isNamePart = c :: cs.takeWhile isNamePart := by simp [hc]
  rw [lexWord, htake]
  exact .word (isWord_cons.2 ⟨h, fun d hd => List.mem_takeWhile_imp hd⟩) (wordMeans_wordKind _)

theorem isDigits_takeWhile {c : Char} (h : c.isDigit = true) (cs : List Char) :
    IsDigits ((c :: cs).takeWhile Char.isDigit) :=
  ⟨by simp [h], fun _ hd => List.mem_takeWhile_imp hd⟩

theorem lexNumber_proper {c : Char} (h : c.isDigit = true) (cs : List Char) :
    (lexNumber (c :: cs)).Proper := by
  have hwhole := isDigits_takeWhile h cs
  unfold lexNumber
  dsimp only
  split
  · next d ds hrest =>
    split
    · next hd =>
      rw [hrest]
      exact .decimal hwhole (isDigits_takeWhile hd ds) (isDouble_decimalValue _ _)
    · exact .whole hwhole (isDouble_decimalValue _ _)
  · exact .whole hwhole (isDouble_decimalValue _ _)

/-- What has been read of a string literal: `taken`, in reverse, which stands for
`value`, in reverse. -/
def StringBegun (value taken : List Char) : Prop :=
  ∃ body, taken.reverse = '"' :: body ∧ ∀ {body' value'}, IsStringBody body' value' →
    IsStringBody (body ++ body') (value.reverse ++ value')

theorem StringBegun.append {value taken : List Char} {c : Char} (h : StringBegun value taken)
    (step : List Char) (hstep : ∀ {body value}, IsStringBody body value →
      IsStringBody (step.reverse ++ body) (c :: value)) :
    StringBegun (c :: value) (step ++ taken) := by
  obtain ⟨body, htaken, hbody⟩ := h
  refine ⟨body ++ step.reverse, by simp [htaken], fun h' => ?_⟩
  simpa using hbody (hstep h')

theorem lexString_proper {value taken text : List Char} (h : StringBegun value taken) :
    (lexString value taken text).Proper := by
  fun_induction lexString value taken text with
  | case1 value taken rest =>
    obtain ⟨body, htaken, hbody⟩ := h
    have hwhole := hbody .nil
    rw [List.append_nil, List.append_nil] at hwhole
    rw [List.reverse_cons, htaken]
    exact .string hwhole
  | case2 value taken e cs c he ih =>
    exact ih (h.append [e, '\\'] fun h' => .escape (unescape?_eq_some_iff.1 he) h')
  | case6 value taken c cs hquote hescape hend hnewline ih =>
    refine ih (h.append [c] fun h' => .char ?_ ?_ ?_ h')
    · rintro rfl
      exact hquote rfl
    · rintro rfl
      cases cs with
      | nil => exact hend rfl rfl
      | cons e cs => exact hescape e cs rfl rfl
    · rintro rfl
      exact hnewline rfl
  | _ => trivial

/-- What is read as a lexeme is one. -/
theorem isLexeme_of_lexeme {c : Char} {cs taken rest : List Char} {kind : TokenKind}
    (h : lexeme c cs = .token kind taken rest) : IsLexeme taken kind := by
  suffices hproper : (lexeme c cs).Proper by rwa [h] at hproper
  unfold lexeme
  split
  case h_19 => exact lexString_proper ⟨[], rfl, fun h => h⟩
  case h_20 =>
    split
    · exact lexWord_proper ‹_› cs
    · split
      · exact lexNumber_proper ‹_› cs
      · trivial
  case h_18 => unfold lexSlash; split <;> exact .operator (by simp [operatorTable])
  case h_10 | h_11 | h_12 | h_13 | h_14 | h_15 | h_16 | h_17 =>
    unfold lexAssignable
    split <;> exact .operator (by simp [operatorTable])
  all_goals exact .operator (by simp [operatorTable])

/-! ## The longest lexeme -/

theorem IsLexeme.exists_longest {text taken : List Char} {kind : TokenKind}
    (h : IsLexeme taken kind) (hfront : taken <+: text) :
    ∃ taken' kind' rest, taken' ++ rest = text ∧ Longest taken' kind' rest := by
  classical
  let P : Nat → Prop := fun n => ∃ kind', IsLexeme (text.take n) kind'
  have hlexeme : ∀ {text' kind'}, IsLexeme text' kind' → text' <+: text →
      text'.length ≤ Nat.findGreatest P text.length := by
    intro text' kind' h' hfront'
    refine Nat.le_findGreatest hfront'.length_le ⟨kind', ?_⟩
    rwa [← List.prefix_iff_eq_take.1 hfront']
  have htaken : P taken.length := ⟨kind, by rwa [← List.prefix_iff_eq_take.1 hfront]⟩
  obtain ⟨kind', hgreatest⟩ := Nat.findGreatest_spec hfront.length_le htaken
  refine ⟨_, kind', text.drop (Nat.findGreatest P text.length), List.take_append_drop _ _,
    hgreatest, fun h' hfront' => ?_⟩
  rw [List.take_append_drop] at hfront'
  rw [List.length_take_of_le (Nat.findGreatest_le _)]
  exact hlexeme h' hfront'

/-- A token is read exactly if it is the longest lexeme at the head of the text. -/
theorem lexeme_eq_token_iff {c : Char} {cs taken rest : List Char} {kind : TokenKind} :
    lexeme c cs = .token kind taken rest ↔
      taken ++ rest = c :: cs ∧ IsLexeme.Longest taken kind rest := by
  have hread : ∀ {taken rest kind}, taken ++ rest = c :: cs → IsLexeme.Longest taken kind rest →
      lexeme c cs = .token kind taken rest := by
    intro taken rest kind hsplit hlongest
    obtain ⟨d, ds, rfl⟩ := List.exists_cons_of_ne_nil hlongest.isLexeme.ne_nil
    obtain ⟨rfl, rfl⟩ := List.cons.inj hsplit
    exact hlongest.lexeme_eq
  refine ⟨fun h => ?_, fun ⟨hsplit, hlongest⟩ => hread hsplit hlongest⟩
  have hcovers := lexeme_covers c cs
  rw [h] at hcovers
  obtain ⟨-, hsplit⟩ := hcovers
  -- There is a longest lexeme, and it is the one that is read.
  obtain ⟨taken', kind', rest', hsplit', hlongest⟩ :=
    (isLexeme_of_lexeme h).exists_longest ⟨rest, hsplit⟩
  have hread' := hread hsplit' hlongest
  rw [h] at hread'
  obtain ⟨rfl, rfl, rfl⟩ := Lexeme.token.inj hread'
  exact ⟨hsplit, hlongest⟩

end ScriptMachine
