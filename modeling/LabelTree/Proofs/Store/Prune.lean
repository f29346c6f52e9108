import LabelTree.Proofs.Store.Grow
import LabelTree.Proofs.Store.Runs
import LabelTree.Proofs.Store.Size
import LabelTree.Proofs.Store.Subtree

/-!
# Store — deleting subtrees

Nodes are deleted one after the other, each with what is below it by then. What is left is what was
below none of them (`WellFormed.contains_pruned`), and shows nothing that was not there before
(`PartOf`). The deletions together answer how much smaller the store has become.
-/

namespace LabelTree.Store

variable {s t u : Store} {id j : NodeId} {ids : List NodeId}

/-- A store after some nodes were deleted with their subtrees, one after the other. -/
def pruned (s : Store) (ids : List NodeId) : Store :=
  ids.foldl (fun s id => (s.remove id).2) s

/-! ## Less than before -/

/-- That `t` shows of each node what `s` shows of it, or less. -/
structure PartOf (t s : Store) : Prop where
  label : ∀ j l, t.label j = some l → s.label j = some l
  value : ∀ j v, t.value j = some v → s.value j = some v
  parent : ∀ j p, t.parent j = some p → s.parent j = some p
  children : ∀ j, t.children j ⊆ s.children j

theorem PartOf.refl (s : Store) : s.PartOf s :=
  ⟨fun _ _ h => h, fun _ _ h => h, fun _ _ h => h, fun _ _ h => h⟩

theorem PartOf.trans (h : u.PartOf t) (h' : t.PartOf s) : u.PartOf s where
  label j l hl := h'.label j l (h.label j l hl)
  value j v hv := h'.value j v (h.value j v hv)
  parent j p hp := h'.parent j p (h.parent j p hp)
  children j _ hc := h'.children j (h.children j hc)

theorem Removes.partOf (h : s.Removes id t) : t.PartOf s := by
  constructor
  case label =>
    intro j l hl
    rw [h.label] at hl
    split at hl
    · cases hl
    · exact hl
  case value =>
    intro j v hv
    rw [h.value] at hv
    split at hv
    · cases hv
    · exact hv
  case parent =>
    intro j p hp
    rw [h.parent] at hp
    split at hp
    · cases hp
    · exact hp
  case children =>
    intro j c hc
    rw [h.children] at hc
    split at hc
    · cases hc
    · exact (List.mem_filter.mp hc).1

/-! ## One deletion -/

namespace WellFormed

/-- A store that has lost some nodes is smaller by their number. -/
theorem size_eq_add (hs : s.WellFormed) (ht : t.WellFormed) (hnodup : ids.Nodup)
    (hgone : ∀ j, j ∈ ids ↔ s.contains j = true ∧ t.contains j = false)
    (hold : ∀ j, t.contains j = true → s.contains j = true) : s.size = t.size + ids.length := by
  have hall : (t.nodes ++ ids).Nodup := by
    refine List.nodup_append.mpr ⟨t.nodup_nodes, hnodup, fun j hj k hk heq => ?_⟩
    subst heq
    have hno := ((hgone j).mp hk).2
    rw [mem_nodes.mp hj] at hno
    cases hno
  rw [ht.freeExact.size_eq, ← List.length_append]
  refine hs.freeExact.size_eq_length hall fun j => ?_
  rw [List.mem_append, mem_nodes, hgone]
  cases hj : t.contains j with
  | true => simp [hold j hj]
  | false => simp

/-- A deletion changes nothing when there is nothing to delete, and never deletes the root. -/
theorem remove_cases (hs : s.WellFormed) (id : NodeId) :
    (s.remove id = (0, s) ∧ (id ≠ root → s.contains id = false)) ∨
      (id ≠ root ∧ s.contains id = true ∧ s.Removes id (s.remove id).2) := by
  by_cases hid : id = root
  · exact .inl ⟨by simp [Store.remove, hid], fun hne => absurd hid hne⟩
  · cases hc : s.contains id with
    | true => exact .inr ⟨hid, rfl, (hs.removes hid hc).1⟩
    | false => exact .inl ⟨by simp [Store.remove, hc], fun _ => rfl⟩

theorem partOf_remove (hs : s.WellFormed) (id : NodeId) : (s.remove id).2.PartOf s := by
  rcases hs.remove_cases id with ⟨hsame, -⟩ | ⟨-, -, hr⟩
  · rw [hsame]
    exact .refl s
  · exact hr.partOf

theorem contains_remove (hs : s.WellFormed) (hid : id ≠ root) (j : NodeId) :
    (s.remove id).2.contains j = true ↔ s.contains j = true ∧ s.isWithin j id = false := by
  rcases hs.remove_cases id with ⟨hsame, hno⟩ | ⟨-, -, hr⟩
  · rw [hsame]
    refine ⟨fun hj => ⟨hj, ?_⟩, And.left⟩
    -- what is below a node is below it only as long as it is there
    rw [← Bool.not_eq_true]
    intro hw
    have hc := hs.contains_of_isWithin hj hw
    rw [hno hid] at hc
    cases hc
  · exact hr.contains j

/-- What is left after a deletion is where it was. -/
theorem isWithin_remove (hs : s.WellFormed) (hj : (s.remove id).2.contains j = true) (a : NodeId) :
    (s.remove id).2.isWithin j a = s.isWithin j a := by
  refine ((hs.remove id).isWithin_congr hs (fun k hk => ?_) a hj).symm
  rcases hs.remove_cases id with ⟨hsame, -⟩ | ⟨-, -, hr⟩
  · rw [hsame]
  · rw [hr.parent, ((hr.contains k).mp hk).2, if_neg Bool.false_ne_true]

/-- A deletion answers how much smaller the store has become. -/
theorem size_remove (hs : s.WellFormed) (id : NodeId) :
    s.size = (s.remove id).2.size + (s.remove id).1 := by
  rcases hs.remove_cases id with ⟨hsame, -⟩ | ⟨hid, hc, -⟩
  · rw [hsame, Nat.add_zero]
  · obtain ⟨hu, hd⟩ := hs.unlinks id
    have hw := hs.remove id
    rw [remove_eq hid hc] at hw ⊢
    generalize ((s.detach id).map Prod.snd).getD s = d at hu hd hw ⊢
    have hr := Store.releases d (d.descendants id)
    generalize (d.descendants id).foldl release d = t at hr hw ⊢
    have hold : ∀ j, t.contains j = true ↔ s.contains j = true ∧ j ∉ d.descendants id := by
      intro j
      rw [hr.contains, hu.contains]
    refine hs.size_eq_add hw (hd.nodup_descendants id) (fun j => ?_) fun j hj => ((hold j).mp hj).1
    rw [← Bool.not_eq_true, hold]
    constructor
    · intro hj
      have hc := (hd.mem_descendants.mp hj).1
      rw [hu.contains] at hc
      exact ⟨hc, fun hleft => hleft.2 hj⟩
    · rintro ⟨hc, hnot⟩
      exact Decidable.not_not.mp fun hno => hnot ⟨hc, hno⟩

/-! ## One after the other -/

theorem pruned (hs : s.WellFormed) (ids : List NodeId) : (s.pruned ids).WellFormed := by
  induction ids generalizing s with
  | nil => exact hs
  | cons id rest ih => exact ih (hs.remove id)

theorem partOf_pruned (hs : s.WellFormed) (ids : List NodeId) : (s.pruned ids).PartOf s := by
  induction ids generalizing s with
  | nil => exact .refl s
  | cons id rest ih => exact (ih (hs.remove id)).trans (hs.partOf_remove id)

theorem contains_pruned (hs : s.WellFormed) (hroot : root ∉ ids) (j : NodeId) :
    (s.pruned ids).contains j = true ↔
      s.contains j = true ∧ ∀ id ∈ ids, s.isWithin j id = false := by
  induction ids generalizing s with
  | nil => simp [Store.pruned]
  | cons id rest ih =>
    obtain ⟨hne, hrest⟩ := List.ne_and_not_mem_of_not_mem_cons hroot
    have hfirst := hs.contains_remove hne.symm j
    show ((s.remove id).2.pruned rest).contains j = true ↔ _
    rw [ih (hs.remove id) hrest, List.forall_mem_cons, ← and_assoc, ← hfirst]
    refine and_congr_right fun hj => forall₂_congr fun a _ => ?_
    rw [hs.isWithin_remove hj]

/-- Subtrees of which none is part of another have no node in common. -/
theorem nodup_flatMap_preorder (hs : s.WellFormed) (hnodup : ids.Nodup)
    (hapart : ∀ a ∈ ids, ∀ b ∈ ids, a ≠ b → s.isWithin a b = false) :
    (ids.flatMap s.preorder).Nodup := by
  refine List.pairwise_flatMap.mpr ⟨fun id _ => hs.nodup_preorder id, ?_⟩
  refine hnodup.imp_of_mem fun ha hb hne x hx y hy heq => ?_
  subst heq
  rw [hs.mem_preorder_iff] at hx hy
  rcases hs.isWithin_or_isWithin hx.2 hy.2 with hab | hba
  · rw [hapart _ ha _ hb hne] at hab
    cases hab
  · rw [hapart _ hb _ ha hne.symm] at hba
    cases hba

/-- What several deletions take away are the subtrees of the nodes. -/
theorem gone_iff (hs : s.WellFormed) (hroot : root ∉ ids) (j : NodeId) :
    s.contains j = true ∧ (s.pruned ids).contains j = false ↔ j ∈ ids.flatMap s.preorder := by
  rw [← Bool.not_eq_true, hs.contains_pruned hroot]
  simp only [List.mem_flatMap, hs.mem_preorder_iff]
  constructor
  · rintro ⟨hj, hnot⟩
    obtain ⟨id, hid, hw⟩ : ∃ id, id ∈ ids ∧ s.isWithin j id = true := by simpa [hj] using hnot
    exact ⟨id, hid, hj, hw⟩
  · rintro ⟨id, hid, hj, hw⟩
    refine ⟨hj, fun hleft => ?_⟩
    rw [hleft.2 id hid] at hw
    cases hw

/-- Where the subtrees have no node in common, the store is as much smaller as they hold nodes. -/
theorem size_pruned (hs : s.WellFormed) (hroot : root ∉ ids)
    (hnodup : (ids.flatMap s.preorder).Nodup) :
    s.size = (s.pruned ids).size + (ids.flatMap s.preorder).length := by
  refine hs.size_eq_add (hs.pruned ids) hnodup (fun j => (hs.gone_iff hroot j).symm) fun j hj => ?_
  exact ((hs.contains_pruned hroot j).mp hj).1

end WellFormed

end LabelTree.Store
