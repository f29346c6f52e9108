import LabelTree.Checked.Basic
import LabelTree.Locate

/-!
# Partial steps — resolving paths

Candidates are indexed from the end, and where a path leads nowhere further the anchor is taken from
the nodes reached before. Both indices are computed without asking again whether they are in range.
-/

namespace LabelTree.Checked

/-- The candidates that a predicate leaves. -/
def narrow (s : Store) (candidates : List NodeId) : Predicate → Option (List NodeId)
  | .position n =>
    if n = 0 then some []
    else do return candidates[← sub n 1]?.toList
  | .last back =>
    if candidates.length ≤ back then some []
    else do
      let id ← candidates[← sub (← sub candidates.length 1) back]?
      return [id]
  | predicate => some (s.narrow candidates predicate)

/-- The nodes that a step leads to from one node. -/
def candidates (s : Store) (step : Step) (node : NodeId) : Option (List NodeId) :=
  match step with
  | .append .. => some []
  | .select axis predicates => predicates.foldlM (narrow s) (s.axisNodes axis node)

/-- The nodes that a step leads to from a set of nodes. -/
def advance (s : Store) (nodes : List NodeId) (step : Step) : Option (List NodeId) := do
  let reached ← nodes.mapM (candidates s step)
  match step with
  | .select .parent _ => return reached.flatten.eraseDups
  | _ => return reached.flatten

/-- The nodes that steps lead to, with an early end where there are none. -/
def follow (s : Store) (nodes : List NodeId) : List Step → Option (List NodeId)
  | [] => some nodes
  | step :: rest => do
    let reached ← advance s nodes step
    if reached.isEmpty then return []
    follow s reached rest

/-- The nodes that a path leads to from a context. -/
def resolve (s : Store) (path : Path) (context : NodeId) : Option (List NodeId) :=
  follow s [Store.start path context] path.steps

/-- Follows the steps from number `i` on from a set of nodes. -/
def locateFrom (s : Store) (nodes : List NodeId) (i : Nat) :
    List Step → Option (Except LocateError Location)
  | [] => some (s.locateFrom nodes i [])
  | step :: rest => do
    let reached ← advance s nodes step
    if reached.isEmpty then
      if 1 < nodes.length then return .error (.multipleMatches nodes.length)
      let anchor ← nodes[0]?
      match s.firstFault? anchor i (step :: rest) with
      | none => return .ok (.missing anchor i)
      | some (j, fault) => return .error (.cannotCreate j fault)
    else locateFrom s reached (i + 1) rest

/-- The one node that a path leads to, or where its missing steps would be made. -/
def locate (s : Store) (path : Path) (context : NodeId) :
    Option (Except LocateError Location) :=
  locateFrom s [Store.start path context] 0 path.steps

end LabelTree.Checked
