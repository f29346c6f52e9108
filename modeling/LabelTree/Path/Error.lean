import LabelTree.Path.Token

/-!
# Path errors

Why a path expression is refused, and the byte offset in its text where the fault was met.
-/

namespace LabelTree

inductive PathFault where
  | empty
  | emptyStep
  | trailingSlash
  | unterminatedString
  | danglingEscape
  | unexpectedChar (c : Char)
  | numberTooLarge
  | expectedStep (found : Token)
  | unknownPredicate
  | unclosedPredicate (found : Token)
  | expectedLiteral (found : Token)
  | misplacedAppend
  /-- An append step in a path that has to name existing nodes; raised by operations, not on
  compiling. -/
  | appendNotAllowed
  | trailingInput (found : Token)
  deriving DecidableEq, Repr

namespace PathFault

def message : PathFault → String
  | empty => "empty path expression"
  | emptyStep => "empty step between slashes"
  | trailingSlash => "path ends with a slash"
  | unterminatedString => "unterminated string literal"
  | danglingEscape => "dangling escape at end of path"
  | unexpectedChar c => "unexpected character '" ++ c.toString ++ "'"
  | numberTooLarge => "number too large"
  | expectedStep found => "expected a step, found " ++ found.text
  | unknownPredicate => "unsupported predicate"
  | unclosedPredicate found => "expected ']', found " ++ found.text
  | expectedLiteral found => "expected a string literal after comparison, found " ++ found.text
  | misplacedAppend => "last()+1 is only allowed alone on the final step"
  | appendNotAllowed => "last()+1 cannot be used with this operation"
  | trailingInput found => "unexpected " ++ found.text ++ " after step"

end PathFault

structure PathError where
  fault : PathFault
  /-- Byte offset in the text of the path. -/
  offset : Nat
  deriving DecidableEq, Repr

def PathError.message (e : PathError) : String :=
  e.fault.message ++ " at offset " ++ toString e.offset

end LabelTree
