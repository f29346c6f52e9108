import LabelTree.Path.Basic
import LabelTree.Path.Token

/-!
# The grammar of paths

Which lexemes make a path, and which steps they stand for, said without reading them in any order:

    path      = '/' | ['/'] step ('/' step)*
    step      = (label | '*' | '.' | '..') predicate*
              | label '[' last '(' ')' '+' 1 ']'            only as the final step
    predicate = '[' (number | last '(' ')' ['-' number]
                    | name [('=' | '!=') string] | '.' ('=' | '!=') string) ']'

The offsets of the lexemes do not matter, except that an append step keeps that of its bracket.
-/

namespace LabelTree

/-- The token that names an axis. -/
def Axis.token : Axis → Token
  | child (.exact label) => .label label
  | child .any => .star
  | self => .dot
  | parent => .dotDot

/-- The token that names an operand. -/
def Operand.token : Operand → Token
  | self => .dot
  | child name => .label name

/-- The token that compares. -/
def comparisonToken (negated : Bool) : Token :=
  if negated then .notEqual else .equal

/-- The function that counts from the end. -/
def lastTokens : List Token :=
  [.label "last", .openParen, .closeParen]

/-- The tokens of an append marker, brackets included. -/
def appendTokens : List Token :=
  .openBracket :: (lastTokens ++ [.plus, .number 1, .closeBracket])

/-- The tokens between the brackets of a predicate. Only the last candidate can be named in two
ways. -/
inductive Predicate.Spelled : Predicate → List Token → Prop
  | position (n : Nat) : Spelled (position n) [.number n]
  | last : Spelled (last 0) lastTokens
  | lastBut (back : Nat) : Spelled (last back) (lastTokens ++ [.minus, .number back])
  | hasChild (name : String) : Spelled (hasChild name) [.label name]
  | compare (operand : Operand) (literal : String) (negated : Bool) :
    Spelled (compare operand literal negated)
      [operand.token, comparisonToken negated, .string literal]

/-- The tokens of predicates in a row, brackets included. -/
inductive Predicate.AllSpelled : List Predicate → List Token → Prop
  | nil : AllSpelled [] []
  | cons {p : Predicate} {ps : List Predicate} {inner rest : List Token} :
    p.Spelled inner → AllSpelled ps rest →
      AllSpelled (p :: ps) (.openBracket :: (inner ++ .closeBracket :: rest))

namespace Step

/-- The lexemes of a step. -/
inductive Spelled : Step → List Lexeme → Prop
  | select {axis : Axis} {ps : List Predicate} {head : Lexeme} {brackets : List Lexeme} :
    head.token = axis.token → Predicate.AllSpelled ps (brackets.map Lexeme.token) →
      Spelled (select axis ps) (head :: brackets)
  | append {label : String} {head opening : Lexeme} {marker : List Lexeme} :
    head.token = .label label → (opening :: marker).map Lexeme.token = appendTokens →
      Spelled (append label opening.offset) (head :: opening :: marker)

/-- The lexemes of steps between slashes, at least one. Only the final step may append. -/
inductive AllSpelled : List Step → List Lexeme → Prop
  | final {step : Step} {lexemes : List Lexeme} :
    step.Spelled lexemes → AllSpelled [step] lexemes
  | cons {step : Step} {steps : List Step} {lexemes rest : List Lexeme} {slash : Lexeme} :
    step.isAppend = false → step.Spelled lexemes → slash.token = .slash → AllSpelled steps rest →
      AllSpelled (step :: steps) (lexemes ++ slash :: rest)

end Step

namespace Path

/-- The lexemes of a path, given by its absolute flag and its steps. -/
inductive Spelled : Bool → List Step → List Lexeme → Prop
  | root {slash : Lexeme} : slash.token = .slash → Spelled true [] [slash]
  | absolute {steps : List Step} {slash : Lexeme} {lexemes : List Lexeme} :
    slash.token = .slash → Step.AllSpelled steps lexemes → Spelled true steps (slash :: lexemes)
  | relative {steps : List Step} {lexemes : List Lexeme} :
    Step.AllSpelled steps lexemes → Spelled false steps lexemes

end Path

end LabelTree
