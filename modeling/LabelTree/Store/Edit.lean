import LabelTree.Store.Walk

/-!
# Changing a store

Each operation either changes the store or refuses and answers `none`; a stale id is always refused.
-/

namespace LabelTree.Store

/-- Gives a node another value, or none. -/
def setValue (s : Store) (id : NodeId) (value : Option String) : Option Store :=
  if s.contains id then some (s.modifyNode id fun n => { n with value }) else none

/-- Gives a node another label. The root stays without one. -/
def setLabel (s : Store) (id : NodeId) (label : String) : Option Store :=
  if id ≠ root ∧ s.contains id then
    some (s.modifyNode id fun n => { n with label := some label })
  else none

/-! ## New nodes -/

/-- Puts `id` at `index` into the list of a node's children, at the end when `index` is greater. -/
def linkChild (s : Store) (parent : NodeId) (index : Nat) (id : NodeId) : Store :=
  s.modifyNode parent fun n =>
    { n with children := n.children.insertIdx (min index n.children.length) id }

/-- Makes a child without value at `index` among the children of `parent`, at the end when `index`
is greater. -/
def insertChild (s : Store) (parent : NodeId) (index : Nat) (label : String) :
    Option (NodeId × Store) :=
  if s.contains parent then
    let (id, s) := s.alloc ⟨some label, none, some parent, []⟩
    some (id, s.linkChild parent index id)
  else none

/-- Makes a child without value after the children of `parent`. -/
def appendChild (s : Store) (parent : NodeId) (label : String) : Option (NodeId × Store) :=
  s.insertChild parent (s.children parent).length label

/-- Index after the last child labelled `label`, or after all children when there is none. -/
def indexAfterLabel (s : Store) (parent : NodeId) (label : String) : Nat :=
  let children := s.children parent
  match (children.reverse.dropWhile fun c => s.label c ≠ some label).length with
  | 0 => children.length
  | n => n

/-- Makes a child without value right after the last child with the same label, or at the end. -/
def appendAfterLabel (s : Store) (parent : NodeId) (label : String) : Option (NodeId × Store) :=
  s.insertChild parent (s.indexAfterLabel parent label) label

/-! ## Moving and removing -/

/-- Unlinks a node from its parent and keeps its subtree. Answers the former parent and index. -/
def detach (s : Store) (id : NodeId) : Option ((NodeId × Nat) × Store) :=
  match s.parent id, s.indexInParent id with
  | some parent, some index =>
    let s := s.modifyNode parent fun n => { n with children := n.children.eraseIdx index }
    some ((parent, index), s.modifyNode id fun n => { n with parent := none })
  | _, _ => none

/-- Whether `id` can be linked below `parent`: it is a node without parent other than the root, and
`parent` is a node outside its subtree. -/
def canAttach (s : Store) (id parent : NodeId) : Bool :=
  id ≠ root && (s.parent id).isNone && s.contains id && !s.isWithin parent id && s.contains parent

/-- Links a detached node below `parent` at `index`, at the end when `index` is greater. -/
def attach (s : Store) (id parent : NodeId) (index : Nat) : Option Store :=
  if s.canAttach id parent then
    some ((s.linkChild parent index id).modifyNode id fun n => { n with parent := some parent })
  else none

/-- Deletes a node and its subtree. Answers how many nodes were deleted, none for the root. -/
def remove (s : Store) (id : NodeId) : Nat × Store :=
  if id = root ∨ ¬ s.contains id then (0, s)
  else
    let s := ((s.detach id).map Prod.snd).getD s
    let doomed := s.descendants id
    (doomed.length, doomed.foldl release s)

end LabelTree.Store
