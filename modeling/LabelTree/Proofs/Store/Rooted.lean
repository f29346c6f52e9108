import LabelTree.Proofs.Store.Place
import LabelTree.Proofs.Store.Runs

/-!
# Store — every node below the root

Sessions keep more than well-formedness: no subtree is left unlinked, the root has no value, and
every label is good in a sense that callers choose. Moving a node into the place of another unlinks
its subtree for a moment; that it is linked again is the point of `Rooted.takePlace`.
-/

namespace LabelTree.Store

structure Rooted (good : String → Prop) (s : Store) : Prop where
  wellFormed : s.WellFormed
  parent_isSome : ∀ id, id ≠ root → s.contains id = true → (s.parent id).isSome = true
  value_root : s.value root = none
  good_label : ∀ id l, s.label id = some l → good l

variable {good : String → Prop} {s s' : Store} {id p node target : NodeId} {i : Nat} {l : String}

theorem rooted_new (good : String → Prop) : new.Rooted good where
  wellFormed := wellFormed_new
  parent_isSome id hid hc := by simp [contains, node?_new, hid] at hc
  value_root := rfl
  good_label id l h := by
    rw [label, node?_new] at h
    split at h <;> cases h

namespace Rooted

/-! ## What it says -/

theorem isWithin_root (h : s.Rooted good) (hid : s.contains id = true) :
    s.isWithin id root = true :=
  h.wellFormed.isWithin_root hid h.parent_isSome

theorem exists_parent (h : s.Rooted good) (hid : id ≠ root) (hc : s.contains id = true) :
    ∃ p, s.parent id = some p :=
  Option.isSome_iff_exists.mp (h.parent_isSome id hid hc)

theorem exists_label (h : s.Rooted good) (hid : id ≠ root) (hc : s.contains id = true) :
    ∃ l, s.label id = some l ∧ good l := by
  obtain ⟨l, hl⟩ := Option.isSome_iff_exists.mp (h.wellFormed.label_isSome id hid hc)
  exact ⟨l, hl, h.good_label id l hl⟩

/-- The subtree of the root holds all nodes. -/
theorem size_eq_subtreeSize (h : s.Rooted good) : s.size = s.subtreeSize root := by
  refine h.wellFormed.freeExact.size_eq_length (h.wellFormed.nodup_descendants root) fun id => ?_
  rw [h.wellFormed.mem_descendants]
  exact ⟨fun hid => hid.1, fun hid => ⟨hid, h.isWithin_root hid⟩⟩

/-! ## Values and new children -/

theorem setValue {v : Option String} (h : s.Rooted good) (hid : id ≠ root)
    (hv : s.setValue id v = some s') : s'.Rooted good := by
  have he := setsValue hv
  constructor
  case wellFormed => exact h.wellFormed.setValue hv
  case parent_isSome =>
    intro j hj hc
    rw [he.shape.contains] at hc
    rw [he.shape.parent]
    exact h.parent_isSome j hj hc
  case value_root =>
    rw [he.value, if_neg (Ne.symm hid)]
    exact h.value_root
  case good_label =>
    intro j l hl
    rw [he.label] at hl
    exact h.good_label j l hl

theorem inserts (h : s.Rooted good) (hi : s.Inserts p i l id s') (hf : s'.FreeExact)
    (hl : good l) : s'.Rooted good := by
  have hroot : root ≠ id := ne_of_contains h.wellFormed.contains_root hi.fresh
  constructor
  case wellFormed => exact h.wellFormed.inserts hi hf
  case parent_isSome =>
    intro j hj hc
    rw [hi.parent]
    split
    · rfl
    · rename_i hne
      exact h.parent_isSome j hj (((hi.contains j).mp hc).resolve_left hne)
  case value_root =>
    rw [hi.value, if_neg hroot]
    exact h.value_root
  case good_label =>
    intro j k hk
    rw [hi.label] at hk
    split at hk
    · cases hk
      exact hl
    · exact h.good_label j k hk

theorem insertChild (h : s.Rooted good) (hl : good l)
    (hi : s.insertChild p i l = some (id, s')) : s'.Rooted good :=
  h.inserts (h.wellFormed.freeExact.inserts hi)
    (FreeExact.slotKept.insertChild h.wellFormed.freeExact hi) hl

/-- A node that was just made is not the root. -/
theorem insertChild_ne_root (h : s.Rooted good) (hi : s.insertChild p i l = some (id, s')) :
    id ≠ root :=
  (ne_of_contains h.wellFormed.contains_root (h.wellFormed.freeExact.inserts hi).fresh).symm

theorem appendKeeps : AppendKeeps (Rooted good) good := by
  intro s p l v id s' hs hl h
  have hs' : s'.Rooted good := hs.insertChild hl h
  exact getD_keeps hs' fun _ => hs'.setValue (hs.insertChild_ne_root h)

theorem graft {source : Snapshot} (h : s.Rooted good) (p : NodeId)
    (hl : ∀ l ∈ source.labelsBelow, good l) : (s.graft p source).2.Rooted good :=
  graft_keeps appendKeeps h hl

/-! ## Deleting -/

theorem removes (h : s.Rooted good) (hr : s.Removes id s') (hw : s'.WellFormed) :
    s'.Rooted good := by
  constructor
  case wellFormed => exact hw
  case parent_isSome =>
    intro j hj hc
    obtain ⟨hc, hout⟩ := (hr.contains j).mp hc
    rw [hr.parent, if_neg (by simp [hout])]
    exact h.parent_isSome j hj hc
  case value_root => rw [hr.value, h.value_root, ite_self]
  case good_label =>
    intro j l hl
    rw [hr.label] at hl
    split at hl
    · cases hl
    · exact h.good_label j l hl

theorem remove (h : s.Rooted good) (id : NodeId) : (s.remove id).2.Rooted good := by
  by_cases hid : id = root ∨ ¬ s.contains id = true
  · rw [Store.remove, if_pos hid]
    exact h
  · rw [not_or, Decidable.not_not] at hid
    obtain ⟨hr, hw⟩ := h.wellFormed.removes hid.1 hid.2
    exact h.removes hr hw

end Rooted

/-! ## Taking a place -/

theorem Rooted.takePlace (h : s.Rooted good) (hn : node ≠ root) (hcn : s.contains node = true)
    (ht : target ≠ root) (hct : s.contains target = true)
    (hout : s.isWithin target node = false) : (s.takePlace node target).Rooted good := by
  obtain ⟨p, hp⟩ := h.exists_parent ht hct
  obtain ⟨he, hw⟩ := h.wellFormed.takesPlace hn hcn hp hout
  constructor
  case wellFormed => exact hw
  case parent_isSome =>
    intro j hj hc
    obtain ⟨hc, hkept⟩ := (he.contains j).mp hc
    rw [he.parent, hkept, hp]
    split
    · rfl
    · simpa using h.parent_isSome j hj hc
  case value_root => rw [he.value, h.value_root, ite_self]
  case good_label =>
    intro j l hl
    rw [he.label] at hl
    split at hl
    · exact h.good_label target l hl
    · split at hl
      · cases hl
      · exact h.good_label j l hl

end LabelTree.Store
