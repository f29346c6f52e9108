import LabelTree.Store.Walk

/-!
# Snapshots

A snapshot is a copy of a subtree that stands by itself. A node without value differs from a node
with an empty value.
-/

namespace LabelTree

structure Snapshot where
  /-- Empty for the root. -/
  label : String := ""
  value : Option String := none
  children : List Snapshot := []
  deriving Repr, BEq, Inhabited

/-- Labels that can be given by name: not empty, and without a slash. -/
def isPlainLabel (label : String) : Bool :=
  !label.isEmpty && !label.toList.contains '/'

namespace Snapshot

/-- The greatest number of levels that a session puts into a snapshot. Each level nests an object
and a list, so that the text of a snapshot stays within what the reader of snapshots takes. -/
def maxDepth : Nat := 60

mutual

/-- Number of nodes. -/
def size : Snapshot → Nat
  | ⟨_, _, children⟩ => sizeAll children + 1

/-- Number of nodes of all of `children`. -/
def sizeAll : List Snapshot → Nat
  | [] => 0
  | child :: rest => child.size + sizeAll rest

end

mutual

/-- Number of levels, one for a node without children. -/
def depth : Snapshot → Nat
  | ⟨_, _, children⟩ => depthAll children + 1

/-- Number of levels of the deepest of `children`. -/
def depthAll : List Snapshot → Nat
  | [] => 0
  | child :: rest => max child.depth (depthAll rest)

end

mutual

/-- The first label below the top, in document order, that is not plain. -/
def firstBadLabel : Snapshot → Option String
  | ⟨_, _, children⟩ => firstBadAmong children

/-- The first label in the subtrees of `children` that is not plain. -/
def firstBadAmong : List Snapshot → Option String
  | [] => none
  | child :: rest =>
    if isPlainLabel child.label then
      match child.firstBadLabel with
      | some label => some label
      | none => firstBadAmong rest
    else some child.label

end

end Snapshot

namespace Store

/-- A copy of the first `n` levels of a subtree. -/
def snapshotUpTo (s : Store) : Nat → NodeId → Snapshot
  | 0, _ => {}
  | n + 1, id =>
    { label := s.shownLabel id
      value := s.value id
      children := (s.children id).map (s.snapshotUpTo n) }

/-- A copy of a subtree. -/
def snapshot (s : Store) (id : NodeId) : Snapshot :=
  s.snapshotUpTo s.walkLimit id

end Store

end LabelTree
