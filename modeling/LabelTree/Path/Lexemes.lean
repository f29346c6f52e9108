import LabelTree.Path.Cursor

/-!
# Lexemes of a text

Which token is read where does not depend on what is done with the tokens, so a text has one
sequence of lexemes. It goes on to the end of the path or to the first fault.
-/

namespace LabelTree

/-- A sequence of lexemes and how it ends. -/
inductive Lexemes where
  /-- The text ends here. -/
  | finish (offset : Nat)
  | fault (error : PathError)
  | next (token : Token) (offset : Nat) (rest : Lexemes)
  deriving DecidableEq, Repr

namespace Lexemes

/-- The lexemes that remain at a cursor. -/
def ofCursor (c : Cursor) : Lexemes :=
  match h : c.next with
  | .error e => fault e
  | .ok (l, c') =>
    if hl : l.token = .endOfPath then finish l.offset
    else
      have : c'.rest.length < c.rest.length := (Cursor.length_next h).resolve_left hl
      next l.token l.offset (ofCursor c')
  termination_by c.rest.length

def ofText (text : String) : Lexemes :=
  ofCursor (.ofText text)

/-- Number of lexemes before the end or the fault. -/
def length : Lexemes → Nat
  | finish _ => 0
  | fault _ => 0
  | next _ _ rest => rest.length + 1

/-- The lexemes before the end or the fault. -/
def toList : Lexemes → List Lexeme
  | finish _ => []
  | fault _ => []
  | next token offset rest => ⟨token, offset⟩ :: rest.toList

/-- The offset of the end, or the fault that comes before it. -/
def ending : Lexemes → Except PathError Nat
  | finish offset => .ok offset
  | fault e => .error e
  | next _ _ rest => rest.ending

/-- All lexemes of a text, the end of the path last, unless a fault comes before it. -/
def toExcept (s : Lexemes) : Except PathError (List Lexeme) :=
  s.ending.map fun offset => s.toList ++ [⟨.endOfPath, offset⟩]

end Lexemes

end LabelTree
