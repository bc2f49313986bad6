import ScriptMachine.Number.Binary64
import ScriptMachine.Token

/-! # Lexemes

A lexeme is the text of one token. `lexeme c cs` reads the longest one at the
head of the text `c :: cs` and hands back what it took and what is left. Where
no lexeme starts, or a string literal is broken off, it says why and how far it
came. Nothing is lost on the way and something is always taken
(`lexeme_covers`). -/

namespace ScriptMachine

/-- Letters that a name may start with. -/
def isNameStart (c : Char) : Bool := c.isAlpha || c == '_'

/-- Characters that a name may hold after its first. -/
def isNamePart (c : Char) : Bool := isNameStart c || c.isDigit

/-- Why no lexeme can be read. -/
inductive LexFault where
  | unexpectedCharacter (c : Char)
  | unterminatedString
  | invalidEscape (c : Char)
  deriving DecidableEq, Repr, Inhabited

namespace LexFault

def code : LexFault → String
  | .unexpectedCharacter _ => "E0100"
  | .unterminatedString => "E0103"
  | .invalidEscape _ => "E0104"

def message : LexFault → String
  | .unexpectedCharacter c => "Unexpected character '" ++ c.toString ++ "'."
  | .unterminatedString => "Unterminated string literal."
  | .invalidEscape c => "Invalid escape '\\" ++ c.toString ++ "'."

end LexFault

/-- One lexeme read off a text: its kind, its characters and what follows; or a
fault, with the characters up to it. -/
inductive Lexeme where
  | token (kind : TokenKind) (taken rest : List Char)
  | fault (fault : LexFault) (taken : List Char)

/-- The keyword or name that a word is. -/
def wordKind : String → TokenKind
  | "fn" => .fnKw
  | "var" => .varKw
  | "if" => .ifKw
  | "else" => .elseKw
  | "return" => .returnKw
  | "print" => .printKw
  | "and" => .andKw
  | "or" => .orKw
  | "true" => .trueKw
  | "false" => .falseKw
  | "null" => .nullKw
  | "class" => .classKw
  | "import" => .importKw
  | word => .name word

/-- A word: as many name characters as there are. -/
def lexWord (text : List Char) : Lexeme :=
  let word := text.takeWhile isNamePart
  .token (wordKind (String.ofList word)) word (text.dropWhile isNamePart)

/-- The value of a string of decimal digits. -/
def digitsValue (digits : List Char) : Nat :=
  digits.foldl (fun n d => 10 * n + (d.toNat - '0'.toNat)) 0

/-- The double nearest to the decimal with these digits before and after the
point. -/
def decimalValue (whole fraction : List Char) : Float :=
  (Binary64.ofRatio (digitsValue (whole ++ fraction)) (Nat.pow 10 fraction.length)).toFloat

/-- A number: digits, and a point with digits after it if a digit follows the
point. -/
def lexNumber (text : List Char) : Lexeme :=
  let whole := text.takeWhile Char.isDigit
  let rest := text.dropWhile Char.isDigit
  match rest with
  | '.' :: d :: _ =>
    if d.isDigit then
      let fraction := (rest.drop 1).takeWhile Char.isDigit
      .token (.number (decimalValue whole fraction)) (whole ++ '.' :: fraction)
        ((rest.drop 1).dropWhile Char.isDigit)
    else .token (.number (decimalValue whole [])) whole rest
  | _ => .token (.number (decimalValue whole [])) whole rest

/-- What an escape in a string literal stands for. -/
def unescape? : Char → Option Char
  | '"' => some '"'
  | '\\' => some '\\'
  | 'n' => some '\n'
  | 't' => some '\t'
  | _ => none

/-- A string literal behind its opening quote. `value` and `taken` hold in
reverse what the literal stands for and what has been read so far. -/
def lexString (value taken : List Char) : List Char → Lexeme
  | '"' :: cs => .token (.string (String.ofList value.reverse)) ('"' :: taken).reverse cs
  | '\\' :: e :: cs =>
    match unescape? e with
    | some c => lexString (c :: value) (e :: '\\' :: taken) cs
    | none => .fault (.invalidEscape e) (e :: '\\' :: taken).reverse
  | ['\\'] => .fault .unterminatedString ('\\' :: taken).reverse
  | '\n' :: _ => .fault .unterminatedString taken.reverse
  | c :: cs => lexString (c :: value) (c :: taken) cs
  | [] => .fault .unterminatedString taken.reverse

/-- An operator that becomes another one when an equals sign follows. -/
def lexAssignable (c : Char) (plain assigning : TokenKind) : List Char → Lexeme
  | '=' :: cs => .token assigning [c, '='] cs
  | cs => .token plain [c] cs

/-- A slash may be doubled, and either way an equals sign may follow. -/
def lexSlash : List Char → Lexeme
  | '/' :: '=' :: cs => .token .slashSlashAssign ['/', '/', '='] cs
  | '/' :: cs => .token .slashSlash ['/', '/'] cs
  | '=' :: cs => .token .slashAssign ['/', '='] cs
  | cs => .token .slash ['/'] cs

/-- The longest lexeme at the head of `c :: cs`. -/
def lexeme (c : Char) (cs : List Char) : Lexeme :=
  match c with
  | '(' => .token .openParen [c] cs
  | ')' => .token .closeParen [c] cs
  | '\x7b' => .token .openBrace [c] cs
  | '\x7d' => .token .closeBrace [c] cs
  | '[' => .token .openBracket [c] cs
  | ']' => .token .closeBracket [c] cs
  | ',' => .token .comma [c] cs
  | '.' => .token .dot [c] cs
  | ';' => .token .semicolon [c] cs
  | '+' => lexAssignable c .plus .plusAssign cs
  | '-' => lexAssignable c .minus .minusAssign cs
  | '*' => lexAssignable c .star .starAssign cs
  | '%' => lexAssignable c .percent .percentAssign cs
  | '=' => lexAssignable c .assign .equal cs
  | '!' => lexAssignable c .bang .notEqual cs
  | '<' => lexAssignable c .less .lessEqual cs
  | '>' => lexAssignable c .greater .greaterEqual cs
  | '/' => lexSlash cs
  | '"' => lexString [] ['"'] cs
  | _ =>
    if isNameStart c then lexWord (c :: cs)
    else if c.isDigit then lexNumber (c :: cs)
    else .fault (.unexpectedCharacter c) [c]

/-! ## Nothing is lost -/

/-- What was taken is a first part of the text, not empty, and for a token the
rest of the text is what is left. -/
def Lexeme.Covers (text : List Char) : Lexeme → Prop
  | .token _ taken rest => taken ≠ [] ∧ taken ++ rest = text
  | .fault _ taken => taken ≠ [] ∧ taken <+: text

theorem lexWord_covers {c : Char} {cs : List Char} (h : isNameStart c = Bool.true) :
    (lexWord (c :: cs)).Covers (c :: cs) := by
  have hc : isNamePart c = Bool.true := by simp [isNamePart, h]
  exact ⟨by simp [hc], List.takeWhile_append_dropWhile⟩

theorem lexNumber_covers {c : Char} {cs : List Char} (h : c.isDigit = Bool.true) :
    (lexNumber (c :: cs)).Covers (c :: cs) := by
  have split : (c :: cs).takeWhile Char.isDigit ++ (c :: cs).dropWhile Char.isDigit = c :: cs :=
    List.takeWhile_append_dropWhile
  have some : (c :: cs).takeWhile Char.isDigit ≠ [] := by simp [h]
  unfold lexNumber
  dsimp only
  split
  · rename_i d tail hrest
    split
    · refine ⟨by simp, ?_⟩
      rw [List.append_assoc, List.cons_append, List.takeWhile_append_dropWhile, hrest]
      simpa [hrest] using split
    · exact ⟨some, split⟩
  · exact ⟨some, split⟩

theorem lexString_covers (value taken text : List Char) (h : taken ≠ []) :
    (lexString value taken text).Covers (taken.reverse ++ text) := by
  fun_induction lexString value taken text <;> simp_all [Lexeme.Covers]

theorem lexAssignable_covers (c : Char) (plain assigning : TokenKind) (cs : List Char) :
    (lexAssignable c plain assigning cs).Covers (c :: cs) := by
  fun_cases lexAssignable c plain assigning cs <;> simp [Lexeme.Covers]

theorem lexSlash_covers (cs : List Char) : (lexSlash cs).Covers ('/' :: cs) := by
  fun_cases lexSlash cs <;> simp [Lexeme.Covers]

theorem lexeme_covers (c : Char) (cs : List Char) : (lexeme c cs).Covers (c :: cs) := by
  unfold lexeme
  split
  case h_10 | h_11 | h_12 | h_13 | h_14 | h_15 | h_16 | h_17 =>
    exact lexAssignable_covers _ _ _ cs
  case h_18 => exact lexSlash_covers cs
  case h_19 => exact lexString_covers [] ['"'] cs (by simp)
  case h_20 =>
    split
    · exact lexWord_covers ‹_›
    · split
      · exact lexNumber_covers ‹_›
      · exact ⟨by simp, by simp⟩
  all_goals exact ⟨by simp, by simp⟩

/-- Reading a token shortens the text. -/
theorem length_lt_of_lexeme {c : Char} {cs taken rest : List Char} {kind : TokenKind}
    (h : lexeme c cs = .token kind taken rest) : rest.length < (c :: cs).length := by
  have covers := lexeme_covers c cs
  rw [h] at covers
  obtain ⟨some, split⟩ := covers
  rw [← split, List.length_append]
  have := List.length_pos_iff.2 some
  omega

end ScriptMachine
