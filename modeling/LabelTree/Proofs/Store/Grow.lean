import LabelTree.Proofs.Store.Preservation

/-!
# Store — chains of new nodes

The missing steps of a path are made one below the other. What such a chain adds to a store leaves
the nodes that were there as they are, and its last node lies below those that its anchor lies
below.
-/

namespace LabelTree.Store

variable {s s' t : Store} {anchor id mid p : NodeId} {i : Nat} {l : String}

/-- A store with more nodes, one of which is `id`, at the end of a chain that hangs below
`anchor`. -/
structure Grows (s : Store) (anchor id : NodeId) (s' : Store) : Prop where
  contains : ∀ j, s.contains j = true → s'.contains j = true
  label : ∀ j, s.contains j = true → s'.label j = s.label j
  value : ∀ j, s.contains j = true → s'.value j = s.value j
  parent : ∀ j, s.contains j = true → s'.parent j = s.parent j
  contains_id : s'.contains id = true
  isWithin : ∀ a, s.contains a = true → s'.isWithin id a = s.isWithin anchor a

/-- What lies below what is settled by the parents of the nodes above. -/
theorem WellFormed.isWithin_congr (hs : s.WellFormed) (hs' : s'.WellFormed)
    (hp : ∀ j, s.contains j = true → s'.parent j = s.parent j) (a : NodeId)
    (hid : s.contains id = true) : s'.isWithin id a = s.isWithin id a := by
  induction id using hs.upward with
  | step id ih =>
    rw [Bool.eq_iff_iff, hs.isWithin_iff, hs'.isWithin_iff, hp id hid]
    cases hq : s.parent id with
    | none => simp
    | some q => simp [ih q hq (hs.contains_of_parent hq)]

namespace Grows

theorem refl (h : s.contains id = true) : s.Grows id id s :=
  ⟨fun _ hj => hj, fun _ _ => rfl, fun _ _ => rfl, fun _ _ => rfl, h, fun _ _ => rfl⟩

theorem trans (h : s.Grows anchor mid t) (h' : t.Grows mid id s') : s.Grows anchor id s' where
  contains j hj := h'.contains j (h.contains j hj)
  label j hj := (h'.label j (h.contains j hj)).trans (h.label j hj)
  value j hj := (h'.value j (h.contains j hj)).trans (h.value j hj)
  parent j hj := (h'.parent j (h.contains j hj)).trans (h.parent j hj)
  contains_id := h'.contains_id
  isWithin a ha := (h'.isWithin a (h.contains a ha)).trans (h.isWithin a ha)

theorem of_inserts (hs : s.WellFormed) (hs' : s'.WellFormed) (h : s.Inserts p i l id s') :
    s.Grows p id s' := by
  have hne : ∀ {j}, s.contains j = true → j ≠ id := fun hj => ne_of_contains hj h.fresh
  have hparent : ∀ j, s.contains j = true → s'.parent j = s.parent j := by
    intro j hj
    rw [h.parent, if_neg (hne hj)]
  constructor
  case contains =>
    intro j hj
    exact (h.contains j).mpr (.inr hj)
  case label =>
    intro j hj
    rw [h.label, if_neg (hne hj)]
  case value =>
    intro j hj
    rw [h.value, if_neg (hne hj)]
  case parent => exact hparent
  case contains_id => exact (h.contains id).mpr (.inl rfl)
  case isWithin =>
    -- the new node lies below its parent, and the parent below the same nodes as before
    intro a ha
    rw [← hs.isWithin_congr hs' hparent a h.contains_parent, Bool.eq_iff_iff, hs'.isWithin_iff,
      h.parent, if_pos rfl]
    simp [Ne.symm (hne ha)]

end Grows

end LabelTree.Store
