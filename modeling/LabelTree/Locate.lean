import LabelTree.Resolve

/-!
# Locating one node

An operation that writes needs a path to lead to one node, or to a place where the missing steps can
be made: below the one node that the steps before them lead to.
-/

namespace LabelTree

/-- Where a path points. -/
inductive Location where
  | found (id : NodeId)
  /-- The steps from number `step` on, counted from zero, are missing below `anchor`. -/
  | missing (anchor : NodeId) (step : Nat)
  deriving DecidableEq, Repr

/-- Why a node for a step cannot be made. -/
inductive StepFault where
  | wildcard
  | dots
  | position (n existing : Nat) (label : String)
  | predicate
  deriving DecidableEq, Repr

def StepFault.message : StepFault → String
  | wildcard => "a wildcard step does not name a label"
  | dots => "'.' and '..' steps cannot be created"
  | position n existing label =>
    "position " ++ toString n ++ " is not one past the " ++ toString existing ++ " existing '" ++
      label ++ "' nodes"
  | predicate => "only plain, positional or last()+1 steps can be created"

/-- Why a path points to no one place. -/
inductive LocateError where
  | multipleMatches (count : Nat)
  | cannotCreate (step : Nat) (fault : StepFault)
  deriving DecidableEq, Repr

/-- Why no node can be made for a step at a place where `existing` counts the children with a label.
A position has to be the next one. -/
def Step.creationFault? (existing : String → Nat) : Step → Option StepFault
  | .append .. => none
  | .select (.child (.exact label)) predicates =>
    match predicates with
    | [] => none
    | [.position n] =>
      if n = existing label + 1 then none else some (.position n (existing label) label)
    | _ => some .predicate
  | .select (.child .any) _ => some .wildcard
  | .select _ _ => some .dots

/-- The label of the node that a step makes. -/
def Step.newLabel? : Step → Option String
  | .append label _ => some label
  | .select (.child (.exact label)) _ => some label
  | .select _ _ => none

namespace Store

/-- The first step that cannot be made among steps missing below `anchor`, the first of which has
number `i`. Only that one can have siblings already. -/
def firstFault? (s : Store) (anchor : NodeId) (i : Nat) (steps : List Step) :
    Option (Nat × StepFault) :=
  (steps.zipIdx i).findSome? fun (step, j) =>
    (step.creationFault? fun label => if j = i then s.countLabelled anchor label else 0).map (j, ·)

/-- Follows the steps from number `i` on from a set of nodes. -/
def locateFrom (s : Store) (nodes : List NodeId) (i : Nat) :
    List Step → Except LocateError Location
  | [] =>
    match nodes with
    | [id] => .ok (.found id)
    | _ => .error (.multipleMatches nodes.length)
  | step :: rest =>
    match s.advance nodes step with
    | [] =>
      match nodes with
      | [anchor] =>
        match s.firstFault? anchor i (step :: rest) with
        | none => .ok (.missing anchor i)
        | some (j, fault) => .error (.cannotCreate j fault)
      | _ => .error (.multipleMatches nodes.length)
    | next => s.locateFrom next (i + 1) rest

/-- The one node that a path leads to, or where its missing steps would be made. -/
def locate (s : Store) (path : Path) (context : NodeId) : Except LocateError Location :=
  s.locateFrom [start path context] 0 path.steps

end Store

end LabelTree
