/-! # Lines of a text

A line runs up to a newline; one carriage return just before that newline does
not belong to it. A last piece without a newline is a line unless it is empty,
and a carriage return at its end stays. -/

namespace ScriptMachine

/-- Removes one carriage return at the end of a reversed line. -/
def chopReturn : List Char → List Char
  | '\r' :: cs => cs
  | cs => cs

/-- The lines of `cs`, where `seen` holds the characters of the current line in
reverse. -/
def linesFrom (seen : List Char) : List Char → List (List Char)
  | [] => if seen.isEmpty then [] else [seen.reverse]
  | c :: cs =>
    if c = '\n' then (chopReturn seen).reverse :: linesFrom [] cs else linesFrom (c :: seen) cs

/-- The lines of a text, without their line ends. -/
def lines (text : List Char) : List (List Char) := linesFrom [] text

/-- The line with the given number, counted from one. -/
def line? (text : List Char) (number : Nat) : Option (List Char) :=
  if number = 0 then none else (lines text)[number - 1]?

end ScriptMachine
