import ScriptMachine.Source.Position

/-! # Tokens

The words of the language: keywords, literals, names, operators and
punctuation, each with the span of the source text it was read from. -/

namespace ScriptMachine

/-- What a token is, with its value where it has one. -/
inductive TokenKind where
  | fnKw | varKw | ifKw | elseKw | returnKw | printKw | andKw | orKw
  | trueKw | falseKw | nullKw | classKw | importKw
  | number (value : Float)
  | string (value : String)
  | name (value : String)
  | openParen | closeParen | openBrace | closeBrace | openBracket | closeBracket
  | comma | dot | semicolon
  | plus | minus | star | slash | slashSlash | percent
  | plusAssign | minusAssign | starAssign | slashAssign | slashSlashAssign | percentAssign
  | assign | equal | bang | notEqual | less | lessEqual | greater | greaterEqual
  deriving Repr, Inhabited

/-- A token in its place. -/
structure Token where
  kind : TokenKind
  span : Span
  deriving Repr, Inhabited

/-- The tokens of a text, and the position where the text ends. -/
structure TokenStream where
  tokens : List Token
  stop : Position
  deriving Repr, Inhabited

end ScriptMachine
