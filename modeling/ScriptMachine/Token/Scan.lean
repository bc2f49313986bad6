import ScriptMachine.Token.Lexeme

/-! # From text to tokens

The scanner walks over a text from lexeme to lexeme. Blanks and comments, which
run from `#` to the end of the line, separate tokens and mean nothing. The
first fault ends the walk. -/

namespace ScriptMachine

/-- Characters that only separate tokens. -/
def isBlank (c : Char) : Bool := c == ' ' || c == '\t' || c == '\n' || c == '\r'

/-- A fault with the span from where its lexeme starts to where reading
stopped. -/
structure LexError where
  fault : LexFault
  span : Span
  deriving DecidableEq, Repr, Inhabited

/-- The tokens of the text that starts at `pos`, behind the tokens in `seen`,
which holds them in reverse. -/
def scanFrom (pos : Position) (text : List Char) (seen : List Token) :
    Except LexError TokenStream :=
  match text with
  | [] => .ok ⟨seen.reverse, pos⟩
  | c :: cs =>
    if isBlank c then scanFrom (pos.step c) cs seen
    else if c = '#' then
      scanFrom (pos.after (c :: cs.takeWhile (· ≠ '\n'))) (cs.dropWhile (· ≠ '\n')) seen
    else
      match h : lexeme c cs with
      | .token kind taken rest =>
        have := length_lt_of_lexeme h
        scanFrom (pos.after taken) rest (⟨kind, ⟨pos, pos.after taken⟩⟩ :: seen)
      | .fault fault taken => .error ⟨fault, ⟨pos, pos.after taken⟩⟩
termination_by text.length
decreasing_by
  · simp
  · have := (List.dropWhile_suffix (l := cs) fun c => c ≠ '\n').length_le
    simp only [List.length_cons]
    omega
  · exact this

/-- The tokens of a text. -/
def scan (text : List Char) : Except LexError TokenStream := scanFrom .origin text []

end ScriptMachine
