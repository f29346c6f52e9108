import LabelTree.Snapshot.Graft

/-!
# Runs of changes

The ways to change a store as values, so that a store that can be reached is one that a list of
changes leaves. A change that is refused leaves the store as it was.
-/

namespace LabelTree

inductive Change where
  | insertChild (parent : NodeId) (index : Nat) (label : String)
  | appendChild (parent : NodeId) (label : String)
  | appendAfterLabel (parent : NodeId) (label : String)
  | setValue (id : NodeId) (value : Option String)
  | setLabel (id : NodeId) (label : String)
  | detach (id : NodeId)
  | attach (id parent : NodeId) (index : Nat)
  | remove (id : NodeId)
  | graft (parent : NodeId) (source : Snapshot)

namespace Store

/-- The store after a change. -/
def apply (s : Store) : Change → Store
  | .insertChild parent index label => ((s.insertChild parent index label).map Prod.snd).getD s
  | .appendChild parent label => ((s.appendChild parent label).map Prod.snd).getD s
  | .appendAfterLabel parent label => ((s.appendAfterLabel parent label).map Prod.snd).getD s
  | .setValue id value => (s.setValue id value).getD s
  | .setLabel id label => (s.setLabel id label).getD s
  | .detach id => ((s.detach id).map Prod.snd).getD s
  | .attach id parent index => (s.attach id parent index).getD s
  | .remove id => (s.remove id).2
  | .graft parent source => (s.graft parent source).2

/-- The store after changes, the first of them first. -/
def applyAll (s : Store) (changes : List Change) : Store :=
  changes.foldl apply s

/-- Whether a run of changes leads from a new store to this one. -/
def Reachable (s : Store) : Prop :=
  ∃ changes, new.applyAll changes = s

theorem reachable_new : new.Reachable :=
  ⟨[], rfl⟩

theorem Reachable.apply {s : Store} (h : s.Reachable) (change : Change) :
    (s.apply change).Reachable := by
  obtain ⟨changes, rfl⟩ := h
  exact ⟨changes ++ [change], by simp [applyAll]⟩

end Store

end LabelTree
