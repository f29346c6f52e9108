import LabelTree.Proofs.Store.View

/-!
# Store — what changes of slots keep

Every operation on a store is made of three changes of its slots: a node is changed, made or
deleted. What these keep (`SlotKept`) the operations keep, with whatever ids; those that make no
node keep what changing and deleting nodes keeps (`EditKept`). That the free list is exact is kept
so.
-/

namespace LabelTree.Store

/-- What changing a node and deleting one keep. -/
structure EditKept (P : Store → Prop) : Prop where
  modifyNode : ∀ {s : Store} (id : NodeId) (f : Node → Node), P s → P (s.modifyNode id f)
  release : ∀ {s : Store} (id : NodeId), P s → P (s.release id)

/-- What changing a node, making one and deleting one keep. -/
structure SlotKept (P : Store → Prop) : Prop extends EditKept P where
  alloc : ∀ {s : Store} (node : Node), P s → P (s.alloc node).2

theorem FreeExact.slotKept : SlotKept FreeExact where
  modifyNode id f h := h.modifyNode id f
  alloc node h := h.alloc node
  release id h := h.release id

variable {P : Store → Prop} {s s' : Store} {id p : NodeId} {i : Nat} {l : String}

namespace EditKept

theorem setValue {v : Option String} (hP : EditKept P) (hs : P s)
    (h : s.setValue id v = some s') : P s' := by
  rw [Store.setValue] at h
  split at h
  · cases h
    exact hP.modifyNode id _ hs
  · cases h

theorem setLabel (hP : EditKept P) (hs : P s) (h : s.setLabel id l = some s') : P s' := by
  rw [Store.setLabel] at h
  split at h
  · cases h
    exact hP.modifyNode id _ hs
  · cases h

theorem detach {pi : NodeId × Nat} (hP : EditKept P) (hs : P s)
    (h : s.detach id = some (pi, s')) : P s' := by
  rw [Store.detach] at h
  split at h
  · cases h
    exact hP.modifyNode _ _ (hP.modifyNode _ _ hs)
  · cases h

theorem attach (hP : EditKept P) (hs : P s) (h : s.attach id p i = some s') : P s' := by
  rw [Store.attach] at h
  split at h
  · cases h
    exact hP.modifyNode id _ (hP.modifyNode p _ hs)
  · cases h

theorem foldl_release (hP : EditKept P) (hs : P s) (ids : List NodeId) :
    P (ids.foldl Store.release s) := by
  induction ids generalizing s with
  | nil => exact hs
  | cons id ids ih => exact ih (hP.release id hs)

theorem remove (hP : EditKept P) (hs : P s) (id : NodeId) : P (s.remove id).2 := by
  rw [Store.remove]
  split
  · exact hs
  · have hunlinked : P (((s.detach id).map Prod.snd).getD s) := by
      cases hd : s.detach id with
      | none => exact hs
      | some outcome => exact hP.detach hs hd
    exact hP.foldl_release hunlinked _

end EditKept

theorem SlotKept.insertChild (hP : SlotKept P) (hs : P s)
    (h : s.insertChild p i l = some (id, s')) :
    P s' := by
  rw [Store.insertChild] at h
  split at h
  · cases h
    exact hP.modifyNode p _ (hP.alloc _ hs)
  · cases h

end LabelTree.Store
