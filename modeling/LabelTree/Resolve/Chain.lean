import LabelTree.Resolve
import LabelTree.Store.Walk

/-!
# Chains of candidates

What a path leads to, said node by node: a path leads from one node to another when a chain of nodes
joins them, each among the candidates of the next step at the node before it. Which candidates a
predicate keeps is said here for one candidate at a time.
-/

namespace LabelTree.Store

/-- Whether a predicate keeps the candidate `id` of `candidates`. -/
def Keeps (s : Store) (candidates : List NodeId) (id : NodeId) : Predicate → Prop
  | .position n => ∃ i, candidates[i]? = some id ∧ n = i + 1
  | .last back => ∃ i, candidates[i]? = some id ∧ i + back + 1 = candidates.length
  | .compare operand literal negated =>
    id ∈ candidates ∧ (s.holds operand literal id = true ↔ negated = false)
  | .hasChild name => id ∈ candidates ∧ ∃ c ∈ s.children id, s.label c = some name

/-- Candidates narrowed by predicates from left to right: each time those that are kept, in the same
order. -/
inductive Narrows (s : Store) : List NodeId → List Predicate → List NodeId → Prop
  | nil (candidates : List NodeId) : Narrows s candidates [] candidates
  | cons {candidates kept result : List NodeId} {p : Predicate} {ps : List Predicate} :
    kept.Sublist candidates → (∀ id, id ∈ kept ↔ s.Keeps candidates id p) →
      Narrows s kept ps result → Narrows s candidates (p :: ps) result

/-- A chain of candidates from one node to another. -/
inductive LeadsTo (s : Store) : List Step → NodeId → NodeId → Prop
  | nil (a : NodeId) : LeadsTo s [] a a
  | cons {axis : Axis} {ps : List Predicate} {steps : List Step} {a b c : NodeId}
      {candidates : List NodeId} :
    s.Narrows (s.axisNodes axis a) ps candidates → b ∈ candidates → LeadsTo s steps b c →
      LeadsTo s (.select axis ps :: steps) a c

/-- The top of the subtree that a node is in: the root, or a detached node. -/
def top (s : Store) (id : NodeId) : NodeId :=
  (s.lineage id).getLastD id

/-- All nodes of the tree that a node is in, in document order. -/
def documentOrder (s : Store) (id : NodeId) : List NodeId :=
  s.preorder (s.top id)

end LabelTree.Store
