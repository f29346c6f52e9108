/-!
# Node store

Nodes live in slots and name each other by ids. An id is a slot's index together with the generation
the slot had when the node was made; the generation grows when the slot is emptied, so an id kept
across a removal names no later node. `Store.node?` is the one view of the slots that everything
else goes through, and each change of a slot has a lemma that says what it does to that view.
-/

namespace LabelTree

structure NodeId where
  index : Nat
  generation : Nat
  deriving DecidableEq, Repr, Inhabited

structure Node where
  /-- Only the root has none. -/
  label : Option String
  value : Option String
  parent : Option NodeId
  children : List NodeId
  deriving DecidableEq, Repr

structure Slot where
  generation : Nat
  node : Option Node
  deriving DecidableEq, Repr

structure Store where
  slots : Array Slot
  /-- Indices of the empty slots, the one emptied last first. -/
  free : List Nat
  deriving DecidableEq, Repr

namespace Store

/-- The root, which is made with the store and never removed. -/
def root : NodeId := ⟨0, 0⟩

/-- A store that holds the root alone. -/
def new : Store where
  slots := #[⟨0, some ⟨none, none, none, []⟩⟩]
  free := []

instance : Inhabited Store := ⟨new⟩

/-! ## Views -/

/-- The node that an id names; `none` for a stale id. -/
def node? (s : Store) (id : NodeId) : Option Node :=
  s.slots[id.index]?.bind fun slot => if slot.generation = id.generation then slot.node else none

def contains (s : Store) (id : NodeId) : Bool :=
  (s.node? id).isSome

def label (s : Store) (id : NodeId) : Option String :=
  (s.node? id).bind Node.label

def value (s : Store) (id : NodeId) : Option String :=
  (s.node? id).bind Node.value

def parent (s : Store) (id : NodeId) : Option NodeId :=
  (s.node? id).bind Node.parent

def children (s : Store) (id : NodeId) : List NodeId :=
  ((s.node? id).map Node.children).getD []

/-- The label as shown where one is needed; empty for the root and for a stale id. -/
def shownLabel (s : Store) (id : NodeId) : String :=
  (s.label id).getD ""

/-- Number of nodes, the root included. -/
def size (s : Store) : Nat :=
  s.slots.size - s.free.length

def isEmpty (s : Store) : Bool :=
  s.size = 0

/-! ## Siblings -/

/-- Index of a node in the list of its parent's children. -/
def indexInParent (s : Store) (id : NodeId) : Option Nat :=
  (s.parent id).bind fun p => (s.children p).findIdx? (· = id)

/-- Number of nodes labelled `label` among the first of `siblings`, up to `id`. -/
def rank (s : Store) (label : String) (id : NodeId) : List NodeId → Nat
  | [] => 0
  | c :: cs =>
    (if s.label c = some label then 1 else 0) + (if c = id then 0 else s.rank label id cs)

def countLabelled (s : Store) (parent : NodeId) (label : String) : Nat :=
  (s.children parent).countP fun c => s.label c = some label

/-- Position, counted from one, of a node among the siblings that share its label. -/
def position (s : Store) (id : NodeId) : Nat :=
  match s.parent id, s.label id with
  | some p, some label => s.rank label id (s.children p)
  | _, _ => 1

/-- Number of siblings that share a node's label, the node itself included. -/
def sameLabelCount (s : Store) (id : NodeId) : Nat :=
  match s.parent id, s.label id with
  | some p, some label => s.countLabelled p label
  | _, _ => 1

/-! ## Slots -/

/-- Changes the node that `id` names; nothing happens for a stale id. -/
def modifyNode (s : Store) (id : NodeId) (f : Node → Node) : Store :=
  { s with
    slots := s.slots.modify id.index fun slot =>
      if slot.generation = id.generation then { slot with node := slot.node.map f } else slot }

/-- Puts a node into the slot emptied last, or into a new slot when none is empty. -/
def alloc (s : Store) (node : Node) : NodeId × Store :=
  match s.free with
  | index :: free =>
    let generation := (s.slots[index]?.map Slot.generation).getD 0
    (⟨index, generation⟩,
      { slots := s.slots.modify index fun slot => { slot with node := some node }, free })
  | [] => (⟨s.slots.size, 0⟩, { s with slots := s.slots.push ⟨0, some node⟩ })

/-- Empties the slot of a node; nothing happens for a stale id. -/
def release (s : Store) (id : NodeId) : Store :=
  if s.contains id then
    { slots := s.slots.modify id.index fun slot => ⟨slot.generation + 1, none⟩
      free := id.index :: s.free }
  else s

theorem node?_modifyNode (s : Store) (id : NodeId) (f : Node → Node) (j : NodeId) :
    (s.modifyNode id f).node? j = if j = id then (s.node? j).map f else s.node? j := by
  obtain ⟨i, g⟩ := id
  obtain ⟨k, h⟩ := j
  simp only [node?, modifyNode, Array.getElem?_modify, NodeId.mk.injEq]
  by_cases hk : i = k
  · subst hk
    cases s.slots[i]? with
    | none => simp
    | some slot =>
      by_cases hg : slot.generation = g
      · by_cases hh : h = g
        · simp [hg, hh]
        · simp [hg, hh, Ne.symm hh]
      · by_cases hh : h = g
        · subst hh
          simp [hg]
        · simp [hg, hh]
  · simp [hk, Ne.symm hk]

theorem node?_release_self (s : Store) (id : NodeId) : (s.release id).node? id = none := by
  by_cases h : s.contains id
  · simp only [release, h, if_true, node?, Array.getElem?_modify]
    cases s.slots[id.index]? with
    | none => rfl
    | some slot =>
      simp only [Option.map_some, Option.bind_some]
      split <;> rfl
  · have hn : s.node? id = none := by simpa [contains] using h
    simp [release, h, hn]

end Store

end LabelTree
