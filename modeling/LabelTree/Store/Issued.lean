import LabelTree.Store.Change

/-!
# Ids given out

Each node that is made gets an id of its own. The ids that a change gives out are those that it
answers, and for a graft those of all copies; the ids of a run are those of its changes, the
earliest first. An id names nothing before and, once its node is deleted, is stale: nothing is known
of it and nothing is changed by it.
-/

namespace LabelTree

/-- The nodes that a change is about. -/
def Change.ids : Change → List NodeId
  | .insertChild parent _ _ => [parent]
  | .appendChild parent _ => [parent]
  | .appendAfterLabel parent _ => [parent]
  | .setValue id _ => [id]
  | .setLabel id _ => [id]
  | .detach id => [id]
  | .attach id parent _ => [id, parent]
  | .remove id => [id]
  | .graft parent _ => [parent]

namespace Store

/-! ## Ids of new nodes -/

mutual

/-- The ids of the nodes that a graft makes below `parent`. -/
def graftedIds (s : Store) (parent : NodeId) : Snapshot → List NodeId
  | ⟨_, _, children⟩ =>
    let (ids, s) := s.appendTops parent children
    (ids.filterMap fun id => id) ++ s.graftedBelow ids children

/-- The ids of the copies of what is below each of `children`, the last child first. -/
def graftedBelow (s : Store) : List (Option NodeId) → List Snapshot → List NodeId
  | some id :: ids, child :: rest =>
    s.graftedBelow ids rest ++ (s.graftBelow ids rest).2.graftedIds id child
  | none :: ids, _ :: rest => s.graftedBelow ids rest
  | _, _ => []

end

/-- The ids of the nodes that a change makes. -/
def issued (s : Store) : Change → List NodeId
  | .insertChild parent index label => ((s.insertChild parent index label).map Prod.fst).toList
  | .appendChild parent label => ((s.appendChild parent label).map Prod.fst).toList
  | .appendAfterLabel parent label => ((s.appendAfterLabel parent label).map Prod.fst).toList
  | .graft parent source => s.graftedIds parent source
  | _ => []

/-- The ids of the nodes that a run of changes makes. -/
def issuedAll (s : Store) : List Change → List NodeId
  | [] => []
  | change :: changes => s.issued change ++ (s.apply change).issuedAll changes

/-! ## Ids of deleted nodes -/

/-- What a store answers for an id that names nothing: each view is empty, each operation
refuses. -/
structure Stale (s : Store) (id : NodeId) : Prop where
  contains : s.contains id = false
  label : s.label id = none
  value : s.value id = none
  parent : s.parent id = none
  children : s.children id = []
  indexInParent : s.indexInParent id = none
  setValue : ∀ value, s.setValue id value = none
  setLabel : ∀ label, s.setLabel id label = none
  insertChild : ∀ index label, s.insertChild id index label = none
  appendChild : ∀ label, s.appendChild id label = none
  appendAfterLabel : ∀ label, s.appendAfterLabel id label = none
  graft : ∀ source, s.graft id source = (0, s)
  detach : s.detach id = none
  attach : ∀ parent index, s.attach id parent index = none
  attach_below : ∀ child index, s.attach child id index = none
  remove : s.remove id = (0, s)
  apply : ∀ change : Change, id ∈ change.ids → s.apply change = s

/-- Whether 32 bits hold each index and each generation of a store. -/
structure FitsWords (s : Store) : Prop where
  index_lt : ∀ i, i < s.slots.size → i < UInt32.size
  generation_lt : ∀ slot ∈ s.slots.toList, slot.generation < UInt32.size

end Store

end LabelTree
