/-!
# Path tokens

The words of a path expression. Labels stand outside brackets and names inside them; numbers,
strings, operators and parentheses occur inside brackets only.
-/

namespace LabelTree

inductive Token where
  | slash
  /-- A step's label, or a name inside brackets. -/
  | label (text : String)
  /-- `*`, any child. -/
  | star
  /-- `.`, the node itself, or its value inside brackets. -/
  | dot
  /-- `..`, the parent. -/
  | dotDot
  | number (n : Nat)
  | string (text : String)
  | equal
  | notEqual
  | plus
  | minus
  | openBracket
  | closeBracket
  | openParen
  | closeParen
  | endOfPath
  deriving DecidableEq, Repr

/-- How messages name a token. -/
def Token.text : Token → String
  | slash => "'/'"
  | label l => "label '" ++ l ++ "'"
  | star => "'*'"
  | dot => "'.'"
  | dotDot => "'..'"
  | number n => "number " ++ toString n
  | string s => "string '" ++ s ++ "'"
  | equal => "'='"
  | notEqual => "'!='"
  | plus => "'+'"
  | minus => "'-'"
  | openBracket => "'['"
  | closeBracket => "']'"
  | openParen => "'('"
  | closeParen => "')'"
  | endOfPath => "end of path"

/-- A token and the byte offset where it begins. -/
structure Lexeme where
  token : Token
  offset : Nat
  deriving DecidableEq, Repr

end LabelTree
