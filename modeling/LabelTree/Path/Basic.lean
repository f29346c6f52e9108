/-!
# Paths

A path is a sequence of steps from the root or from a context node. A step selects existing nodes
along an axis and narrows them by predicates, or it stands for a node yet to be appended.
-/

namespace LabelTree

/-- What the label of a child must be. -/
inductive Matcher where
  | exact (label : String)
  /-- `*` -/
  | any
  deriving DecidableEq, Repr

def Matcher.accepts : Matcher → String → Bool
  | exact l, label => l = label
  | any, _ => true

/-- The direction in which a step moves. -/
inductive Axis where
  | child (matcher : Matcher)
  /-- `.` -/
  | self
  /-- `..` -/
  | parent
  deriving DecidableEq, Repr

/-- Whose value a comparison looks at. -/
inductive Operand where
  /-- `.`, the candidate itself. -/
  | self
  /-- Any child of the candidate with this label. -/
  | child (name : String)
  deriving DecidableEq, Repr

/-- A bracketed condition on the candidates of a step. -/
inductive Predicate where
  /-- `[n]`, counted from one. `[0]` selects nothing. -/
  | position (n : Nat)
  /-- `[last()]`, or `[last()-back]`. -/
  | last (back : Nat)
  /-- `[name='literal']`, `[.='literal']`, or with `!=` when negated. -/
  | compare (operand : Operand) (literal : String) (negated : Bool)
  /-- `[name]`, at least one child with this label. -/
  | hasChild (name : String)
  deriving DecidableEq, Repr

inductive Step where
  | select (axis : Axis) (predicates : List Predicate)
  /-- `label[last()+1]`, a new sibling after the last one with this label. The offset is that of the
  opening bracket in the text that was compiled. -/
  | append (label : String) (offset : Nat)
  deriving DecidableEq, Repr

def Step.isAppend : Step → Bool
  | append .. => true
  | select .. => false

structure Path where
  /-- The text that messages show for the path. -/
  text : String
  /-- Whether the path starts at the root. -/
  absolute : Bool
  steps : List Step
  deriving DecidableEq, Repr

namespace Path

/-- The offset of the bracket of a final append step. -/
def appendOffset? (p : Path) : Option Nat :=
  match p.steps.getLast? with
  | some (.append _ offset) => some offset
  | _ => none

/-- Whether the path ends in an append step. -/
def isAppend (p : Path) : Bool :=
  p.steps.getLast?.any Step.isAppend

/-- Text without the slashes it ends with. -/
def trimSlashes (text : String) : String :=
  String.ofList (text.toList.reverse.dropWhile (· = '/')).reverse

/-- Anchors a relative path below `base`. An absolute path stays as it is. -/
def rebase (p base : Path) : Path :=
  if p.absolute then p
  else
    { text := trimSlashes base.text ++ "/" ++ p.text
      absolute := base.absolute
      steps := base.steps ++ p.steps }

theorem rebase_of_absolute {p : Path} (h : p.absolute = true) (base : Path) :
    p.rebase base = p := by
  simp [rebase, h]

end Path

end LabelTree
