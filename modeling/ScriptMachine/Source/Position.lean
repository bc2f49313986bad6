/-! # Positions and spans

A position counts lines and columns from one, columns in characters. Reading
text moves it (`Position.after`): a newline starts the next line, any other
character moves one column on. Counts have no fixed width; 32 bits hold those of
any text with less than 2^32 - 1 characters. A span is the stretch from one
position to another. -/

namespace ScriptMachine

/-- A place in a source text: line and column, both counted from one. -/
structure Position where
  line : Nat
  col : Nat
  deriving DecidableEq, Repr, Inhabited

namespace Position

/-- Where every source text begins. -/
def origin : Position := ⟨1, 1⟩

/-- The position behind one more character. -/
def step (p : Position) (c : Char) : Position :=
  if c = '\n' then ⟨p.line + 1, 1⟩ else ⟨p.line, p.col + 1⟩

/-- The position behind the text `cs` that starts at `p`. -/
def after (p : Position) (cs : List Char) : Position := cs.foldl step p

@[simp] theorem after_nil (p : Position) : p.after [] = p := rfl

@[simp] theorem after_cons (p : Position) (c : Char) (cs : List Char) :
    p.after (c :: cs) = (p.step c).after cs := rfl

theorem after_append (p : Position) (xs ys : List Char) :
    p.after (xs ++ ys) = (p.after xs).after ys := List.foldl_append

end Position

/-- The stretch of a source text from `start` up to `stop`, which is not part
of it. -/
structure Span where
  start : Position
  stop : Position
  deriving DecidableEq, Repr, Inhabited

namespace Span

/-- The empty span at a position. -/
def point (p : Position) : Span := ⟨p, p⟩

/-- The empty span at the beginning of a line. -/
def ofLine (line : Nat) : Span := .point ⟨line, 1⟩

/-- The empty span at the beginning of a text, which stands for "nowhere in
the text": names that the host declares carry it. -/
def nowhere : Span := .point .origin

/-- From the start of one span to the end of another. -/
def upTo (a b : Span) : Span := ⟨a.start, b.stop⟩

end Span

end ScriptMachine
