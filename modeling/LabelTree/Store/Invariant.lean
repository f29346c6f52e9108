import LabelTree.Store.Walk

/-!
# What holds of every store

Child lists and parent links say the same, nothing is its own ancestor, only the root lacks a label,
and the free list names the empty slots. A new store is such a store.
-/

namespace LabelTree.Store

structure WellFormed (s : Store) : Prop where
  /-- The children of a node are those whose parent it is. -/
  mem_children : ∀ p c, c ∈ s.children p ↔ s.parent c = some p
  nodup_children : ∀ p, (s.children p).Nodup
  /-- Nodes can be ranked so that each ranks above its parent. -/
  ranked : ∃ rank : NodeId → Nat, ∀ c p, s.parent c = some p → rank p < rank c
  contains_root : s.contains root = true
  parent_root : s.parent root = none
  label_root : s.label root = none
  label_isSome : ∀ id, id ≠ root → s.contains id = true → (s.label id).isSome = true
  nodup_free : s.free.Nodup
  /-- The free list names the empty slots. -/
  mem_free : ∀ i, i ∈ s.free ↔ ∃ generation, s.slots[i]? = some ⟨generation, none⟩

theorem node?_new (id : NodeId) :
    new.node? id = if id = root then some ⟨none, none, none, []⟩ else none := by
  obtain ⟨i, g⟩ := id
  simp only [node?, new, root, NodeId.mk.injEq]
  cases i with
  | zero => by_cases hg : g = 0 <;> simp [hg, eq_comm]
  | succ i => simp

theorem parent_new (id : NodeId) : new.parent id = none := by
  rw [parent, node?_new]
  split <;> rfl

theorem children_new (id : NodeId) : new.children id = [] := by
  rw [children, node?_new]
  split <;> rfl

theorem wellFormed_new : new.WellFormed where
  mem_children p c := by simp [parent_new, children_new]
  nodup_children p := by simp [children_new]
  ranked := ⟨fun _ => 0, fun c p h => by simp [parent_new] at h⟩
  contains_root := rfl
  parent_root := parent_new root
  label_root := rfl
  label_isSome id hid h := by simp [contains, node?_new, hid] at h
  nodup_free := List.nodup_nil
  mem_free i := by cases i <;> simp [new]

end LabelTree.Store
