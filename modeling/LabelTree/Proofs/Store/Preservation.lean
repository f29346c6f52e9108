import LabelTree.Proofs.Store.Effect
import LabelTree.Proofs.Store.Subtree

/-!
# Store — operations keep a store well-formed

One lemma per effect. The part that needs the most is the rank: a new child ranks above its parent,
and linking a subtree lifts every rank in it above the new parent's. Deleting needs a set of nodes
that no link crosses, which the subtree of an unlinked node is.
-/

namespace LabelTree.Store

variable {s s' : Store} {id c p : NodeId} {i : Nat} {l : String}

theorem mem_spliced {cs : List NodeId} : c ∈ spliced cs i id ↔ c = id ∨ c ∈ cs := by
  rw [(perm_spliced cs i id).mem_iff, List.mem_cons]

theorem nodup_spliced {cs : List NodeId} (h : cs.Nodup) (hid : id ∉ cs) :
    (spliced cs i id).Nodup :=
  (perm_spliced cs i id).nodup_iff.mpr (List.nodup_cons.mpr ⟨hid, h⟩)

theorem eraseIdx_eq_filter {cs : List NodeId} (h : cs.Nodup) (hi : cs[i]? = some id) :
    cs.eraseIdx i = cs.filter (· ≠ id) := by
  induction cs generalizing i with
  | nil => rfl
  | cons c cs ih =>
    obtain ⟨hc, hcs⟩ := List.nodup_cons.mp h
    cases i with
    | zero =>
      have hcid : c = id := by simpa using hi
      have hkeep : cs.filter (· ≠ id) = cs := by
        refine List.filter_eq_self.mpr fun x hx => ?_
        have hne : x ≠ id := by
          rintro rfl
          exact hc (hcid ▸ hx)
        simpa using hne
      simp only [List.eraseIdx_cons_zero, List.filter_cons, hcid, hkeep]
      simp
    | succ i =>
      have hget : cs[i]? = some id := by simpa using hi
      have hne : c ≠ id := by
        rintro rfl
        exact hc (List.mem_of_getElem? hget)
      simp [ih hcs hget, hne]

namespace WellFormed

/-! ## Values and labels -/

theorem of_sameShape (hs : s.WellFormed) (h : s.SameShape s') (hf : s'.FreeExact)
    (hroot : s'.label root = none)
    (hl : ∀ id, id ≠ root → s.contains id = true → (s'.label id).isSome = true) :
    s'.WellFormed where
  mem_children q c := by rw [h.children, h.parent, hs.mem_children]
  nodup_children q := by rw [h.children]; exact hs.nodup_children q
  ranked := by
    obtain ⟨rank, hr⟩ := hs.ranked
    exact ⟨rank, fun c q hq => hr c q (by rw [← h.parent]; exact hq)⟩
  contains_root := by rw [h.contains]; exact hs.contains_root
  parent_root := by rw [h.parent]; exact hs.parent_root
  label_root := hroot
  label_isSome id hid hc := hl id hid (by rw [← h.contains]; exact hc)
  nodup_free := hf.nodup
  mem_free := hf.mem

theorem setValue {v : Option String} (hs : s.WellFormed) (h : s.setValue id v = some s') :
    s'.WellFormed := by
  have he := setsValue h
  have hf := FreeExact.slotKept.setValue hs.freeExact h
  refine hs.of_sameShape he.shape hf (by rw [he.label]; exact hs.label_root) ?_
  intro j hj hc
  rw [he.label]
  exact hs.label_isSome j hj hc

theorem setLabel (hs : s.WellFormed) (h : s.setLabel id l = some s') : s'.WellFormed := by
  obtain ⟨hid, he⟩ := setsLabel h
  have hf := FreeExact.slotKept.setLabel hs.freeExact h
  refine hs.of_sameShape he.shape hf ?_ ?_
  · rw [he.label, if_neg (Ne.symm hid)]
    exact hs.label_root
  · intro j hj hc
    rw [he.label]
    split
    · rfl
    · exact hs.label_isSome j hj hc

/-! ## New children -/

theorem inserts (hs : s.WellFormed) (h : s.Inserts p i l id s') (hf : s'.FreeExact) :
    s'.WellFormed := by
  have hfresh : ∀ {j}, s.contains j = true → j ≠ id := fun hj => ne_of_contains hj h.fresh
  have hpid : p ≠ id := hfresh h.contains_parent
  have hroot : root ≠ id := hfresh hs.contains_root
  have hidc : ∀ q, id ∉ s.children q := fun q hq => hfresh (hs.contains_of_child hq) rfl
  constructor
  case mem_children =>
    intro q c
    rw [h.children, h.parent]
    by_cases hq : q = id
    · -- the new node has no children, and no link leads to it
      subst hq
      have hno : s.parent c ≠ some q := fun hc => hfresh (hs.contains_of_parent hc) rfl
      by_cases hc : c = q <;> simp [hc, hpid, hno]
    · by_cases hqp : q = p
      · subst hqp
        by_cases hc : c = id <;> simp [hq, hc, mem_spliced, hs.mem_children]
      · by_cases hc : c = id
        · subst hc
          simp [hq, hqp, hidc, Ne.symm hqp]
        · simp [hq, hqp, hc, hs.mem_children]
  case nodup_children =>
    intro q
    rw [h.children]
    split
    · exact List.nodup_nil
    · split
      · exact nodup_spliced (hs.nodup_children p) (hidc p)
      · exact hs.nodup_children q
  case ranked =>
    obtain ⟨rank, hr⟩ := hs.ranked
    refine ⟨fun x => if x = id then rank p + 1 else rank x, fun c q hq => ?_⟩
    rw [h.parent] at hq
    by_cases hc : c = id
    · rw [if_pos hc] at hq
      cases hq
      simp [hc, hpid]
    · rw [if_neg hc] at hq
      have hqid : q ≠ id := hfresh (hs.contains_of_parent hq)
      simpa [hc, hqid] using hr c q hq
  case contains_root => exact (h.contains root).mpr (.inr hs.contains_root)
  case parent_root =>
    rw [h.parent, if_neg hroot]
    exact hs.parent_root
  case label_root =>
    rw [h.label, if_neg hroot]
    exact hs.label_root
  case label_isSome =>
    intro j hj hc
    rw [h.label]
    split
    · rfl
    · rename_i hne
      exact hs.label_isSome j hj (((h.contains j).mp hc).resolve_left hne)
  case nodup_free => exact hf.nodup
  case mem_free => exact hf.mem

/-! ## Unlinking and linking -/

theorem detaches (hs : s.WellFormed) (h : s.Detaches id p i s') (hf : s'.FreeExact) :
    s'.WellFormed := by
  constructor
  case mem_children =>
    intro q c
    rw [h.children, h.parent]
    by_cases hq : q = p
    · subst hq
      rw [if_pos rfl, eraseIdx_eq_filter (hs.nodup_children q) h.getElem?_eq, List.mem_filter,
        hs.mem_children]
      by_cases hc : c = id <;> simp [hc]
    · rw [if_neg hq, hs.mem_children]
      by_cases hc : c = id
      · subst hc
        simp [h.parent_eq, Ne.symm hq]
      · simp [hc]
  case nodup_children =>
    intro q
    rw [h.children]
    split
    · exact (hs.nodup_children p).eraseIdx i
    · exact hs.nodup_children q
  case ranked =>
    obtain ⟨rank, hr⟩ := hs.ranked
    refine ⟨rank, fun c q hq => ?_⟩
    rw [h.parent] at hq
    split at hq
    · cases hq
    · exact hr c q hq
  case contains_root =>
    rw [h.contains]
    exact hs.contains_root
  case parent_root => rw [h.parent, hs.parent_root, ite_self]
  case label_root =>
    rw [h.label]
    exact hs.label_root
  case label_isSome =>
    intro j hj hc
    rw [h.contains] at hc
    rw [h.label]
    exact hs.label_isSome j hj hc
  case nodup_free => exact hf.nodup
  case mem_free => exact hf.mem

theorem attaches (hs : s.WellFormed) (h : s.Attaches id p i s') (hf : s'.FreeExact) :
    s'.WellFormed := by
  obtain ⟨hroot, htop, -, hout, -⟩ := canAttach_iff.mp h.canAttach
  have hidc : ∀ q, id ∉ s.children q := by
    intro q hq
    rw [hs.mem_children, htop] at hq
    cases hq
  constructor
  case mem_children =>
    intro q c
    rw [h.children, h.parent]
    by_cases hq : q = p
    · subst hq
      by_cases hc : c = id <;> simp [hc, mem_spliced, hs.mem_children]
    · by_cases hc : c = id
      · subst hc
        simp [hq, hidc, Ne.symm hq]
      · simp [hq, hc, hs.mem_children]
  case nodup_children =>
    intro q
    rw [h.children]
    split
    · exact nodup_spliced (hs.nodup_children p) (hidc p)
    · exact hs.nodup_children q
  case ranked =>
    -- lift the ranks of the linked subtree above the rank of its new parent
    obtain ⟨rank, hr⟩ := hs.ranked
    refine ⟨fun x => if s.isWithin x id = true then rank x + rank p + 1 else rank x,
      fun c q hq => ?_⟩
    rw [h.parent] at hq
    by_cases hc : c = id
    · rw [if_pos hc] at hq
      cases hq
      subst hc
      simp only [isWithin_self, hout, if_true]
      simp only [Bool.false_eq_true, if_false]
      omega
    · rw [if_neg hc] at hq
      have hlt := hr c q hq
      have hiff : s.isWithin c id = true ↔ s.isWithin q id = true := by
        rw [hs.isWithin_iff]
        simp [hc, hq]
      by_cases hw : s.isWithin q id = true
      · simp only [hiff.mpr hw, hw, if_true]
        omega
      · have hwc : ¬ s.isWithin c id = true := fun hwc => hw (hiff.mp hwc)
        simpa [hwc, hw] using hlt
  case contains_root =>
    rw [h.contains]
    exact hs.contains_root
  case parent_root =>
    rw [h.parent, if_neg (Ne.symm hroot)]
    exact hs.parent_root
  case label_root =>
    rw [h.label]
    exact hs.label_root
  case label_isSome =>
    intro j hj hc
    rw [h.contains] at hc
    rw [h.label]
    exact hs.label_isSome j hj hc
  case nodup_free => exact hf.nodup
  case mem_free => exact hf.mem

/-! ## Deleting -/

/-- Deleting nodes among which the root is not, and which no link enters or leaves. -/
theorem releases {ids : List NodeId} (hs : s.WellFormed) (h : s.Releases ids s')
    (hf : s'.FreeExact) (hroot : root ∉ ids)
    (hclosed : ∀ c p, s.parent c = some p → (c ∈ ids ↔ p ∈ ids)) : s'.WellFormed := by
  constructor
  case mem_children =>
    intro q c
    rw [h.children, h.parent]
    have hcross := hclosed c q
    by_cases hq : q ∈ ids
    · by_cases hc : c ∈ ids
      · simp [hq, hc]
      · simp only [hq, hc, if_true, if_false, List.not_mem_nil, false_iff]
        intro hp
        exact hc ((hcross hp).mpr hq)
    · by_cases hc : c ∈ ids
      · simp only [hq, hc, if_true, if_false, hs.mem_children]
        constructor
        · intro hp
          exact absurd ((hcross hp).mp hc) hq
        · intro hp
          cases hp
      · simp only [hq, hc, if_false, hs.mem_children]
  case nodup_children =>
    intro q
    rw [h.children]
    split
    · exact List.nodup_nil
    · exact hs.nodup_children q
  case ranked =>
    obtain ⟨rank, hr⟩ := hs.ranked
    refine ⟨rank, fun c q hq => ?_⟩
    rw [h.parent] at hq
    split at hq
    · cases hq
    · exact hr c q hq
  case contains_root => exact (h.contains root).mpr ⟨hs.contains_root, hroot⟩
  case parent_root => rw [h.parent, hs.parent_root, ite_self]
  case label_root =>
    rw [h.label, if_neg hroot]
    exact hs.label_root
  case label_isSome =>
    intro j hj hc
    obtain ⟨hc, hout⟩ := (h.contains j).mp hc
    rw [h.label, if_neg hout]
    exact hs.label_isSome j hj hc
  case nodup_free => exact hf.nodup
  case mem_free => exact hf.mem

theorem indexInParent_isSome (hs : s.WellFormed) (h : s.parent id = some p) :
    ∃ i, s.indexInParent id = some i := by
  have hmem := (hs.mem_children p id).mpr h
  rw [indexInParent, h, Option.bind_some, ← Option.isSome_iff_exists, List.findIdx?_isSome,
    List.any_eq_true]
  exact ⟨id, hmem, by simp⟩

theorem detach_isSome (hs : s.WellFormed) (h : s.parent id = some p) :
    ∃ i s', s.detach id = some ((p, i), s') := by
  obtain ⟨i, hi⟩ := hs.indexInParent_isSome h
  simp [detach, h, hi]

end WellFormed

theorem detach_eq_none (h : s.parent id = none) : s.detach id = none := by
  simp [detach, h]

/-- A store after a node was unlinked from its parent if it has one. -/
structure Unlinks (s : Store) (id : NodeId) (s' : Store) : Prop where
  contains : ∀ j, s'.contains j = s.contains j
  label : ∀ j, s'.label j = s.label j
  value : ∀ j, s'.value j = s.value j
  parent : ∀ j, s'.parent j = if j = id then none else s.parent j
  children : ∀ j, s'.children j = (s.children j).filter (· ≠ id)

namespace WellFormed

theorem filter_children_of_ne (hs : s.WellFormed) (h : s.parent id ≠ some p) :
    (s.children p).filter (· ≠ id) = s.children p := by
  refine List.filter_eq_self.mpr fun c hc => ?_
  have hne : c ≠ id := by
    rintro rfl
    exact h ((hs.mem_children p c).mp hc)
  simpa using hne

theorem unlinks (hs : s.WellFormed) (id : NodeId) :
    s.Unlinks id (((s.detach id).map Prod.snd).getD s) ∧
      (((s.detach id).map Prod.snd).getD s).WellFormed := by
  cases hp : s.parent id with
  | none =>
    rw [detach_eq_none hp]
    refine ⟨⟨fun _ => rfl, fun _ => rfl, fun _ => rfl, fun j => ?_, fun j => ?_⟩, hs⟩
    · by_cases hj : j = id <;> simp [hj, hp]
    · exact (filter_children_of_ne hs (by simp [hp])).symm
  | some p =>
    obtain ⟨i, t, ht⟩ := hs.detach_isSome hp
    have h := Store.detaches ht
    simp only [ht, Option.map_some, Option.getD_some]
    refine ⟨⟨h.contains, h.label, h.value, h.parent, fun j => ?_⟩,
      hs.detaches h (FreeExact.slotKept.detach hs.freeExact ht)⟩
    rw [h.children]
    by_cases hj : j = p
    · subst hj
      rw [if_pos rfl]
      exact eraseIdx_eq_filter (hs.nodup_children j) h.getElem?_eq
    · rw [if_neg hj]
      exact (filter_children_of_ne hs (by simpa [hp] using Ne.symm hj)).symm

/-- Unlinking a node takes nothing out of its subtree. -/
theorem isWithin_unlinks (hs : s.WellFormed) (hs' : s'.WellFormed) (h : s.Unlinks id s') :
    s'.isWithin c id = s.isWithin c id := by
  induction c using hs.upward with
  | step c ih =>
    rw [Bool.eq_iff_iff, hs.isWithin_iff, hs'.isWithin_iff, h.parent]
    by_cases hc : c = id
    · simp [hc]
    · simp only [hc, if_false, false_or]
      constructor
      · rintro ⟨q, hq, hw⟩
        exact ⟨q, hq, (ih q hq) ▸ hw⟩
      · rintro ⟨q, hq, hw⟩
        exact ⟨q, hq, (ih q hq).symm ▸ hw⟩

end WellFormed

/-- What deleting a node and its subtree does. -/
structure Removes (s : Store) (id : NodeId) (s' : Store) : Prop where
  contains : ∀ j, s'.contains j = true ↔ s.contains j = true ∧ s.isWithin j id = false
  label : ∀ j, s'.label j = if s.isWithin j id then none else s.label j
  value : ∀ j, s'.value j = if s.isWithin j id then none else s.value j
  parent : ∀ j, s'.parent j = if s.isWithin j id then none else s.parent j
  children : ∀ j, s'.children j =
    if s.isWithin j id then [] else (s.children j).filter (· ≠ id)

namespace WellFormed

theorem remove_eq (hid : id ≠ root) (hc : s.contains id = true) :
    s.remove id = (((((s.detach id).map Prod.snd).getD s).descendants id).length,
      ((((s.detach id).map Prod.snd).getD s).descendants id).foldl release
        (((s.detach id).map Prod.snd).getD s)) := by
  simp [remove, hid, hc]

theorem removes (hs : s.WellFormed) (hid : id ≠ root) (hc : s.contains id = true) :
    s.Removes id (s.remove id).2 ∧ (s.remove id).2.WellFormed := by
  obtain ⟨hu, hd⟩ := hs.unlinks id
  rw [remove_eq hid hc]
  generalize ((s.detach id).map Prod.snd).getD s = d at hu hd ⊢
  -- what is below the node after it was unlinked is what was below it before
  have hmem : ∀ j, j ∈ d.descendants id ↔ s.contains j = true ∧ s.isWithin j id = true := by
    intro j
    rw [hd.mem_descendants, hu.contains, hs.isWithin_unlinks hd hu]
  have hr := Store.releases d (d.descendants id)
  have hf := FreeExact.slotKept.foldl_release hd.freeExact (d.descendants id)
  generalize (d.descendants id).foldl release d = t at hr hf ⊢
  refine ⟨?_, hd.releases hr hf ?_ ?_⟩
  · constructor
    case contains =>
      intro j
      rw [hr.contains, hmem, hu.contains]
      cases s.contains j <;> simp
    case label =>
      intro j
      simp only [hr.label, hmem, hu.label]
      cases hj : s.contains j with
      | true => simp
      | false => simp [label_of_not_contains hj]
    case value =>
      intro j
      simp only [hr.value, hmem, hu.value]
      cases hj : s.contains j with
      | true => simp
      | false => simp [value_of_not_contains hj]
    case parent =>
      intro j
      simp only [hr.parent, hmem, hu.parent]
      cases hj : s.contains j with
      | true => by_cases hjid : j = id <;> simp [hjid, isWithin_self]
      | false => simp [parent_of_not_contains hj]
    case children =>
      intro j
      simp only [hr.children, hmem, hu.children]
      cases hj : s.contains j with
      | true => simp
      | false => simp [children_of_not_contains hj]
  · rw [hmem, hs.isWithin_iff]
    simp [hs.parent_root, Ne.symm hid]
  · -- a link leads out of the subtree from its top only, and that one is gone
    intro c p hp
    have hcc := Store.contains_of_parent hp
    have hcp := hd.contains_of_parent hp
    rw [hu.contains] at hcc hcp
    rw [hu.parent] at hp
    by_cases hcid : c = id
    · simp [hcid] at hp
    · rw [if_neg hcid] at hp
      have hup :
          s.isWithin c id = true ↔ c = id ∨ ∃ q, s.parent c = some q ∧ s.isWithin q id = true :=
        hs.isWithin_iff
      rw [hmem, hmem, hup]
      simp [hcid, hp, hcc, hcp]

end WellFormed

end LabelTree.Store
