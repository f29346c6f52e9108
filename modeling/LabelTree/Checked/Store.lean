import LabelTree.Checked.Basic
import LabelTree.Store.Change

/-!
# Partial steps — changing a store

A new node goes to the slot that the free list names, whether or not there is such a slot; child
lists are changed at indices found before; and the number of nodes is a difference.
-/

namespace LabelTree.Checked

/-- Number of nodes, the root included. -/
def size (s : Store) : Option Nat :=
  sub s.slots.size s.free.length

/-- Puts a node into the slot emptied last, or into a new slot when none is empty. -/
def alloc (s : Store) (node : Node) : Option (NodeId × Store) :=
  match s.free with
  | index :: free => do
    let slot ← s.slots[index]?
    return (⟨index, slot.generation⟩,
      { slots := s.slots.modify index fun slot => { slot with node := some node }, free })
  | [] => some (s.alloc node)

/-! ## Child lists -/

/-- Puts `id` at `index` into the list of a node's children, at the end when `index` is greater. -/
def linkChild (s : Store) (parent : NodeId) (index : Nat) (id : NodeId) : Option Store := do
  let children ← insertAt (min index (s.children parent).length) id (s.children parent)
  return s.modifyNode parent fun n => { n with children }

/-- Makes a child without value at `index` among the children of `parent`. -/
def insertChild (s : Store) (parent : NodeId) (index : Nat) (label : String) :
    Option (Option (NodeId × Store)) :=
  if s.contains parent then do
    let (id, s) ← alloc s ⟨some label, none, some parent, []⟩
    return some (id, ← linkChild s parent index id)
  else some none

/-- Makes a child without value after the children of `parent`. -/
def appendChild (s : Store) (parent : NodeId) (label : String) :
    Option (Option (NodeId × Store)) :=
  insertChild s parent (s.children parent).length label

/-- Makes a child without value right after the last child with the same label, or at the end. -/
def appendAfterLabel (s : Store) (parent : NodeId) (label : String) :
    Option (Option (NodeId × Store)) :=
  insertChild s parent (s.indexAfterLabel parent label) label

/-- Unlinks a node from its parent and keeps its subtree. -/
def detach (s : Store) (id : NodeId) : Option (Option ((NodeId × Nat) × Store)) :=
  match s.parent id, s.indexInParent id with
  | some parent, some index => do
    let children ← removeAt index (s.children parent)
    let s := s.modifyNode parent fun n => { n with children }
    return some ((parent, index), s.modifyNode id fun n => { n with parent := none })
  | _, _ => some none

/-- Links a detached node below `parent` at `index`, at the end when `index` is greater. -/
def attach (s : Store) (id parent : NodeId) (index : Nat) : Option (Option Store) :=
  if s.canAttach id parent then do
    let s ← linkChild s parent index id
    return some (s.modifyNode id fun n => { n with parent := some parent })
  else some none

/-- Deletes a node and its subtree. -/
def remove (s : Store) (id : NodeId) : Option (Nat × Store) :=
  if id = Store.root ∨ ¬ s.contains id then some (0, s)
  else do
    let s := ((← detach s id).map Prod.snd).getD s
    let doomed := s.descendants id
    return (doomed.length, doomed.foldl Store.release s)

/-! ## Grafts -/

/-- Makes copies of the tops of `children` below `parent`. -/
def appendTops (s : Store) (parent : NodeId) :
    List Snapshot → Option (List (Option NodeId) × Store)
  | [] => some ([], s)
  | child :: rest => do
    match ← appendChild s parent child.label with
    | none =>
      let (ids, s) ← appendTops s parent rest
      return (none :: ids, s)
    | some (id, s) =>
      let s := (s.setValue id child.value).getD s
      let (ids, s) ← appendTops s parent rest
      return (some id :: ids, s)

mutual

/-- Copies everything below the top of a snapshot to below `parent`. -/
def graft (s : Store) (parent : NodeId) : Snapshot → Option (Nat × Store)
  | ⟨_, _, children⟩ => do
    let (ids, s) ← appendTops s parent children
    graftBelow s ids children

/-- Copies what is below each of `children` to below the copy of its top, the last child first. -/
def graftBelow (s : Store) : List (Option NodeId) → List Snapshot → Option (Nat × Store)
  | some id :: ids, child :: rest => do
    let (later, s) ← graftBelow s ids rest
    let (below, s) ← graft s id child
    return (later + below + 1, s)
  | none :: ids, _ :: rest => graftBelow s ids rest
  | _, _ => some (0, s)

end

/-! ## Changes -/

/-- The store after a change. -/
def apply (s : Store) : Change → Option Store
  | .insertChild parent index label => do
    return ((← insertChild s parent index label).map Prod.snd).getD s
  | .appendChild parent label => do
    return ((← appendChild s parent label).map Prod.snd).getD s
  | .appendAfterLabel parent label => do
    return ((← appendAfterLabel s parent label).map Prod.snd).getD s
  | .detach id => do return ((← detach s id).map Prod.snd).getD s
  | .attach id parent index => do return (← attach s id parent index).getD s
  | .remove id => do return (← remove s id).2
  | .graft parent source => do return (← graft s parent source).2
  | change => some (s.apply change)

end LabelTree.Checked
