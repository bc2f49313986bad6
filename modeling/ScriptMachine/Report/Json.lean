/-! # Data as indented text

Values made of strings, counts, truth values, lists and records with fields in a
fixed order, written in JSON with two blanks of indentation for each level. An
empty list is written on one line. -/

namespace ScriptMachine

inductive Json where
  | null
  | bool (value : Bool)
  | nat (value : Nat)
  | string (value : String)
  | array (items : List Json)
  | object (fields : List (String × Json))
  deriving Repr, Inhabited

namespace Json

/-- A hexadecimal digit. -/
def hexDigit (n : Nat) : Char := Nat.digitChar n

/-- A character between quotes: quotes, backslashes and control characters are
escaped. -/
def escape (c : Char) : List Char :=
  match c with
  | '"' => ['\\', '"']
  | '\\' => ['\\', '\\']
  | '\n' => ['\\', 'n']
  | '\r' => ['\\', 'r']
  | '\t' => ['\\', 't']
  | '\x08' => ['\\', 'b']
  | '\x0c' => ['\\', 'f']
  | _ =>
    if c.toNat < 0x20 then
      ['\\', 'u', '0', '0', hexDigit (c.toNat / 16), hexDigit (c.toNat % 16)]
    else [c]

/-- A text between quotes. -/
def quote (text : String) : String :=
  "\"" ++ String.ofList (text.toList.flatMap escape) ++ "\""

/-- The start of a line at a depth. -/
def indent (depth : Nat) : String := String.ofList (List.replicate (2 * depth) ' ')

mutual

/-- The text of a value that starts somewhere on a line at the given depth. -/
def write (depth : Nat) : Json → String
  | .null => "null"
  | .bool value => if value then "true" else "false"
  | .nat value => toString value
  | .string value => quote value
  | .array [] => "[]"
  | .array (item :: items) =>
    "[\n" ++ indent (depth + 1) ++ item.write (depth + 1) ++ writeItems (depth + 1) items ++ "\n" ++
      indent depth ++ "]"
  | .object [] => "\x7b\x7d"
  | .object ((key, value) :: fields) =>
    "\x7b\n" ++ indent (depth + 1) ++ quote key ++ ": " ++ value.write (depth + 1) ++
      writeFields (depth + 1) fields ++ "\n" ++ indent depth ++ "\x7d"
termination_by structural json => json

/-- The items of a list behind the first. -/
def writeItems (depth : Nat) : List Json → String
  | [] => ""
  | item :: items => ",\n" ++ indent depth ++ item.write depth ++ writeItems depth items
termination_by structural items => items

/-- The fields of a record behind the first. -/
def writeFields (depth : Nat) : List (String × Json) → String
  | [] => ""
  | (key, value) :: fields =>
    ",\n" ++ indent depth ++ quote key ++ ": " ++ value.write depth ++ writeFields depth fields
termination_by structural fields => fields

end

/-- The text of a value on lines of its own. -/
def pretty (json : Json) : String := json.write 0

end Json

end ScriptMachine
