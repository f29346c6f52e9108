import LabelTree.Entry
import LabelTree.Session.Basic

/-!
# Reading a session
-/

namespace LabelTree

/-- What is listed for each node that a path leads to. -/
inductive Scope where
  | nodes
  | children
  | subtree
  deriving DecidableEq, Repr

namespace Session

/-- The value of the one node that a path leads to; none when it leads nowhere. -/
def get (s : Session) (arg : PathArg) : Except EngineError (Option String) := do
  let path ← s.prepareExisting arg
  match s.resolve path with
  | [] => return none
  | [id] => return s.store.value id
  | ids => throw (.multipleMatches path.text ids.length)

/-- Entries for the nodes that a path leads to. -/
def entries (s : Session) (arg : PathArg) (scope : Scope) : Except EngineError (List Entry) := do
  let path ← s.prepareExisting arg
  let ids := s.resolve path
  match scope with
  | .nodes => return ids.map s.store.entry
  | .children => return (ids.flatMap s.store.children).map s.store.entry
  | .subtree => return ids.flatMap s.store.subtreeEntries

/-- A copy of the subtree of the one node that a path leads to. -/
def snapshot (s : Session) (arg : PathArg) : Except EngineError Snapshot := do
  let path ← s.prepareExisting arg
  let id ← s.resolveSingle path
  let depth := s.store.subtreeDepth id
  if depth > Snapshot.maxDepth then throw (.badArgument (.snapshotDepth path.text depth))
  return s.store.snapshot id

end Session

end LabelTree
