import ScriptMachine.Source.Position

/-! # Syntax errors

Why reading a program stops at a token, with the code and the wording of each
cause. Where a single token is missing, the error also knows the correction
that inserts it. -/

namespace ScriptMachine

/-- A token that has to stand at a certain place and cannot be guessed. -/
inductive Landmark where
  | openParams | closeParams | initializer | openBlock | closeBlock | openTest
  deriving DecidableEq, Repr, Inhabited

def Landmark.message : Landmark → String
  | .openParams => "Expected '(' after function name."
  | .closeParams => "Expected ')' after parameters."
  | .initializer => "Expected '=' after variable name."
  | .openBlock => "Expected '\x7b' to open block."
  | .closeBlock => "Expected '\x7d' to close block."
  | .openTest => "Expected '(' after 'if'."

/-- What a missing name was to be the name of. -/
inductive NameRole where
  | function | parameter | variable | property
  deriving DecidableEq, Repr, Inhabited

def NameRole.message : NameRole → String
  | .function => "Expected function name."
  | .parameter => "Expected parameter name."
  | .variable => "Expected variable name."
  | .property => "Expected property name after '.'."

/-- What a missing closing parenthesis closes. -/
inductive ParenRole where
  | test | group | args
  deriving DecidableEq, Repr, Inhabited

def ParenRole.noun : ParenRole → String
  | .test => "condition"
  | .group => "expression"
  | .args => "arguments"

/-- What stands between brackets that are not closed. -/
inductive BracketRole where
  | items | index
  deriving DecidableEq, Repr, Inhabited

def BracketRole.noun : BracketRole → String
  | .items => "list elements"
  | .index => "index expression"

/-- What the members of a comma list are. -/
inductive ItemRole where
  | element | argument
  deriving DecidableEq, Repr, Inhabited

def ItemRole.noun : ItemRole → String
  | .element => "list element"
  | .argument => "call argument"

/-- A token whose absence a correction can mend. -/
inductive Insertion where
  | paramComma
  | semicolon
  | closeParen (role : ParenRole)
  | closeBracket (role : BracketRole)
  | itemComma (role : ItemRole)
  deriving DecidableEq, Repr, Inhabited

namespace Insertion

def message : Insertion → String
  | .paramComma => "Expected ',' between parameters."
  | .semicolon => "Expected ';' after statement."
  | .closeParen role => "Expected ')' after " ++ role.noun ++ "."
  | .closeBracket role => "Expected ']' after " ++ role.noun ++ "."
  | .itemComma role => "Expected ',' after " ++ role.noun ++ "."

def title : Insertion → String
  | .paramComma => "Insert ',' between parameters"
  | .semicolon => "Insert ';' statement terminator"
  | .closeParen _ => "Insert ')' to close"
  | .closeBracket _ => "Insert ']' to close"
  | .itemComma _ => "Insert ','"

/-- The text that the correction inserts. -/
def text : Insertion → String
  | .paramComma | .itemComma _ => ", "
  | .semicolon => ";"
  | .closeParen _ => ")"
  | .closeBracket _ => "]"

end Insertion

/-- Why a program cannot be read on. A missing token that can be inserted comes
with the position where it belongs. -/
inductive SyntaxFault where
  | landmark (mark : Landmark)
  | name (role : NameRole)
  | insertion (missing : Insertion) (position : Position)
  | noExpression
  | trailingTokens
  | classes
  | imports
  | topLevel
  | nestedFunction
  deriving DecidableEq, Repr, Inhabited

namespace SyntaxFault

def code : SyntaxFault → String
  | .landmark _ | .insertion _ _ => "E0200"
  | .topLevel => "E0201"
  | .noExpression | .trailingTokens => "E0203"
  | .name _ => "E0205"
  | .classes | .imports => "E0206"
  | .nestedFunction => "E0207"

def message : SyntaxFault → String
  | .landmark mark => mark.message
  | .name role => role.message
  | .insertion missing _ => missing.message
  | .noExpression => "Expected expression."
  | .trailingTokens => "Unexpected tokens after expression."
  | .classes => "Classes are not supported."
  | .imports => "Imports are not supported."
  | .topLevel => "Expected 'fn' or 'var' at top level."
  | .nestedFunction => "Functions can only be declared at the top level."

end SyntaxFault

/-- A fault with the span of the token at which it shows. -/
structure SyntaxError where
  fault : SyntaxFault
  span : Span
  deriving DecidableEq, Repr, Inhabited

/-- A text to insert at a position. -/
structure Fix where
  title : String
  position : Position
  text : String
  deriving DecidableEq, Repr, Inhabited

/-- The correction of a fault that has one. -/
def SyntaxFault.fix? : SyntaxFault → Option Fix
  | .insertion missing position => some ⟨missing.title, position, missing.text⟩
  | _ => none

end ScriptMachine
