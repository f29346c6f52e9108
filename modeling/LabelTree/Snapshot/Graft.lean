import LabelTree.Snapshot.Basic
import LabelTree.Store.Edit

/-!
# Grafting snapshots

A graft copies what is below the top of a snapshot to below a node, after the children that the node
has. All children of a node are made before anything below them, and what is below a later sibling
is made before what is below an earlier one; the order shows in the ids only.
-/

namespace LabelTree.Store

/-- Makes copies of the tops of `children` below `parent`. Answers the ids of the copies. -/
def appendTops (s : Store) (parent : NodeId) : List Snapshot → List (Option NodeId) × Store
  | [] => ([], s)
  | child :: rest =>
    match s.appendChild parent child.label with
    | none =>
      let (ids, s) := s.appendTops parent rest
      (none :: ids, s)
    | some (id, s) =>
      let s := (s.setValue id child.value).getD s
      let (ids, s) := s.appendTops parent rest
      (some id :: ids, s)

mutual

/-- Copies everything below the top of a snapshot to below `parent`. Answers the number of nodes
made. -/
def graft (s : Store) (parent : NodeId) : Snapshot → Nat × Store
  | ⟨_, _, children⟩ =>
    let (ids, s) := s.appendTops parent children
    s.graftBelow ids children

/-- Copies what is below each of `children` to below the copy of its top, the last child first.
Answers the number of nodes made, the copied tops included. -/
def graftBelow (s : Store) : List (Option NodeId) → List Snapshot → Nat × Store
  | some id :: ids, child :: rest =>
    let (later, s) := s.graftBelow ids rest
    let (below, s) := s.graft id child
    (later + below + 1, s)
  | none :: ids, _ :: rest => s.graftBelow ids rest
  | _, _ => (0, s)

end

end LabelTree.Store
