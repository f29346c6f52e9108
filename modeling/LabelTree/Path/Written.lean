import LabelTree.Path.Cursor
import LabelTree.Path.Grammar

/-!
# Paths in writing

How tokens are written, with any blanks before, between and after them. Outside brackets labels are
escaped, inside them names stand as they are; a string stands between either kind of quotes. A path
has many writings; `Path.print` gives the one without blanks.
-/

namespace LabelTree

/-- The characters of a token, outside or inside brackets. -/
def Token.word (inside : Bool) (quote : Char) : Token → List Char
  | slash => ['/']
  | label text => if inside then text.toList else (escapeLabel text).toList
  | star => ['*']
  | dot => ['.']
  | dotDot => ['.', '.']
  | number n => Nat.toDigits 10 n
  | string text => Text.enquote quote text.toList
  | equal => ['=']
  | notEqual => ['!', '=']
  | plus => ['+']
  | minus => ['-']
  | openBracket => ['[']
  | closeBracket => [']']
  | openParen => ['(']
  | closeParen => [')']
  | endOfPath => []

/-- The number of open brackets after a token. -/
def Token.depthAfter (depth : Nat) : Token → Nat
  | openBracket => depth + 1
  | closeBracket => depth - 1
  | _ => depth

/-- Tokens in writing, the first of which stands in `depth` brackets. -/
inductive Token.Written : Nat → List Token → List Char → Prop
  | nil {depth : Nat} {blanks : List Char} : blanks.all Text.isBlank = true →
      Written depth [] blanks
  | cons {depth : Nat} {token : Token} {tokens : List Token} {quote : Char}
      {blanks text : List Char} :
    blanks.all Text.isBlank = true → Text.isQuote quote = true →
      Written (token.depthAfter depth) tokens text →
      Written depth (token :: tokens) (blanks ++ token.word (depth != 0) quote ++ text)

namespace Predicate

/-- A predicate that can be written: its names are names, and its numbers are not too large. -/
def isWritable : Predicate → Bool
  | position n => n ≤ largestNumber
  | last back => back ≤ largestNumber
  | compare (.child name) _ _ => isName name.toList
  | compare .self _ _ => true
  | hasChild name => isName name.toList

end Predicate

namespace Step

/-- A step that can be written: its label is not empty, and its predicates can be written. -/
def isWritable : Step → Bool
  | select (.child (.exact label)) ps => !label.isEmpty && ps.all Predicate.isWritable
  | select _ ps => ps.all Predicate.isWritable
  | append label _ => !label.isEmpty

/-- A step without the offset of its append marker. -/
def withoutOffset : Step → Step
  | append label _ => append label 0
  | step => step

end Step

/-- A path in writing. -/
def Path.Written (absolute : Bool) (steps : List Step) (text : String) : Prop :=
  ∃ lexemes, Spelled absolute steps lexemes ∧ Token.Written 0 (lexemes.map Lexeme.token) text.toList

/-! ## Without blanks -/

/-- Tokens one right after the other, strings between double quotes. The first token stands in
`depth` brackets. -/
def Token.print : Nat → List Token → List Char
  | _, [] => []
  | depth, t :: ts => t.word (depth != 0) '"' ++ print (t.depthAfter depth) ts

/-- The tokens between the brackets of a predicate. The last candidate is `last()`. -/
def Predicate.tokens : Predicate → List Token
  | position n => [.number n]
  | last 0 => lastTokens
  | last back => lastTokens ++ [.minus, .number back]
  | hasChild name => [.label name]
  | compare operand literal negated => [operand.token, comparisonToken negated, .string literal]

/-- The tokens of a step, brackets included. -/
def Step.tokens : Step → List Token
  | select axis ps =>
    axis.token :: ps.flatMap fun p => .openBracket :: (p.tokens ++ [.closeBracket])
  | append label _ => .label label :: appendTokens

namespace Path

/-- The tokens of steps between slashes. -/
def stepTokens : List Step → List Token
  | [] => []
  | [step] => step.tokens
  | step :: steps => step.tokens ++ .slash :: stepTokens steps

/-- The path without blanks, given by its absolute flag and its steps. -/
def print (absolute : Bool) (steps : List Step) : String :=
  String.ofList (Token.print 0 ((if absolute then [.slash] else []) ++ stepTokens steps))

example : print true [.select (.child (.exact "a/b")) [.last 2], .append "c" 0] =
    "/a\\/b[last()-2]/c[last()+1]" := by decide

end Path

end LabelTree
