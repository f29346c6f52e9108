import LabelTree.Store.Basic

/-!
# Walks over a store

Upwards, a node's lineage is the node and its ancestors. Downwards, a subtree is listed in document
order with an explicit stack of nodes yet to be visited. A walk visits no node twice, so the number
of slots bounds its length.
-/

namespace LabelTree.Store

/-- A bound on the length of a walk from one node. -/
def walkLimit (s : Store) : Nat :=
  s.slots.size + 1

/-! ## Upwards -/

/-- The first `n` of a node and its ancestors, nearest first. -/
def lineageUpTo (s : Store) : Nat → NodeId → List NodeId
  | 0, _ => []
  | n + 1, id =>
    id :: match s.parent id with
      | none => []
      | some p => s.lineageUpTo n p

/-- A node and its ancestors, nearest first. -/
def lineage (s : Store) (id : NodeId) : List NodeId :=
  s.lineageUpTo s.walkLimit id

/-- Whether `id` is `ancestor` or lies below it. -/
def isWithin (s : Store) (id ancestor : NodeId) : Bool :=
  (s.lineage id).contains ancestor

/-! ## Downwards -/

/-- Visits the nodes on the stack and everything below them, at most `n` nodes. Stale ids are passed
over. -/
def visit (s : Store) : Nat → List NodeId → List NodeId
  | 0, _ => []
  | _ + 1, [] => []
  | n + 1, id :: stack =>
    if s.contains id then id :: s.visit n (s.children id ++ stack) else s.visit n stack

/-- A node and everything below it, in document order. -/
def descendants (s : Store) (id : NodeId) : List NodeId :=
  s.visit s.walkLimit [id]

def subtreeSize (s : Store) (id : NodeId) : Nat :=
  (s.descendants id).length

/-- The greatest depth met from a stack of nodes and their depths, or `deepest` if that is more. -/
def deepestFrom (s : Store) : Nat → Nat → List (NodeId × Nat) → Nat
  | 0, deepest, _ => deepest
  | _ + 1, deepest, [] => deepest
  | n + 1, deepest, (id, depth) :: stack =>
    s.deepestFrom n (max deepest depth) ((s.children id).map (·, depth + 1) ++ stack)

/-- Number of levels of a subtree, its top included. -/
def subtreeDepth (s : Store) (id : NodeId) : Nat :=
  s.deepestFrom s.walkLimit 0 [(id, 1)]

/-! ## Subtrees by recursion -/

/-- The first `n` levels of a subtree in document order: the node, then the subtrees of its
children. -/
def preorderUpTo (s : Store) : Nat → NodeId → List NodeId
  | 0, _ => []
  | n + 1, id => if s.contains id then id :: (s.children id).flatMap (s.preorderUpTo n) else []

/-- A subtree in document order. No subtree has more levels than the store has slots. -/
def preorder (s : Store) (id : NodeId) : List NodeId :=
  s.preorderUpTo s.walkLimit id

/-- Number of levels of a subtree as far as `n` levels reach: one more than the highest of the
children. -/
def heightUpTo (s : Store) : Nat → NodeId → Nat
  | 0, _ => 0
  | n + 1, id => ((s.children id).map (s.heightUpTo n)).foldr max 0 + 1

/-- Number of levels of a subtree. -/
def height (s : Store) (id : NodeId) : Nat :=
  s.heightUpTo s.walkLimit id

end LabelTree.Store
