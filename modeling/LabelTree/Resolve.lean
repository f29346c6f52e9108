import LabelTree.Path.Basic
import LabelTree.Store.Basic

/-!
# Resolving paths

A path is resolved step by step over a set of nodes. A step maps each node of the set to its
candidates, narrows the candidates of that node by the predicates in turn, and joins what is left.
Positions count within the candidates of one node.
-/

namespace LabelTree.Store

/-- The nodes that an axis leads to from `node`, in document order. -/
def axisNodes (s : Store) (axis : Axis) (node : NodeId) : List NodeId :=
  match axis with
  | .child matcher => (s.children node).filter fun c => (s.label c).any matcher.accepts
  | .self => [node]
  | .parent => (s.parent node).toList

/-- Whether the operand of a comparison has the literal as its value. A node without value never
has. -/
def holds (s : Store) (operand : Operand) (literal : String) (node : NodeId) : Bool :=
  match operand with
  | .self => s.value node = some literal
  | .child name =>
    (s.children node).any fun c => s.label c = some name && s.value c = some literal

/-- The candidates that a predicate leaves. -/
def narrow (s : Store) (candidates : List NodeId) : Predicate → List NodeId
  | .position 0 => []
  | .position (n + 1) => candidates[n]?.toList
  | .last back => candidates.reverse[back]?.toList
  | .compare operand literal negated =>
    candidates.filter fun id => s.holds operand literal id != negated
  | .hasChild name =>
    candidates.filter fun id => (s.children id).any fun c => s.label c = some name

/-- The nodes that a step leads to from one node. An append step leads to none. -/
def candidates (s : Store) (step : Step) (node : NodeId) : List NodeId :=
  match step with
  | .append .. => []
  | .select axis predicates => predicates.foldl s.narrow (s.axisNodes axis node)

/-- The nodes that a step leads to from a set of nodes. Two nodes can share a parent, but no other
axis leads from two nodes to one, so only after a parent step repetitions are dropped. -/
def advance (s : Store) (nodes : List NodeId) (step : Step) : List NodeId :=
  let reached := nodes.flatMap (s.candidates step)
  match step with
  | .select .parent _ => reached.eraseDups
  | _ => reached

/-- The node at which a path starts. -/
def start (path : Path) (context : NodeId) : NodeId :=
  if path.absolute then root else context

/-- The nodes that a path leads to from a context, in document order and none twice. -/
def resolve (s : Store) (path : Path) (context : NodeId) : List NodeId :=
  path.steps.foldl s.advance [start path context]

end LabelTree.Store
