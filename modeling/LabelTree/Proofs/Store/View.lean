import LabelTree.Store.Edit

/-!
# Store — views after a change of slots

What allocating, changing and releasing a slot do to `node?`, and so to `label`, `value`, `parent`
and `children`, which read it. The free list has to be exact for this: an index on it must name an
empty slot, or a new node would take the place of another.
-/

namespace LabelTree.Store

variable {s : Store} {id j : NodeId}

/-! ## Nodes that are there and nodes that are not -/

theorem contains_iff : s.contains id = true ↔ ∃ n, s.node? id = some n := by
  simp [contains, Option.isSome_iff_exists]

theorem node?_of_not_contains (h : s.contains id = false) : s.node? id = none := by
  simpa [contains] using h

theorem label_of_not_contains (h : s.contains id = false) : s.label id = none := by
  simp [label, node?_of_not_contains h]

theorem value_of_not_contains (h : s.contains id = false) : s.value id = none := by
  simp [value, node?_of_not_contains h]

theorem parent_of_not_contains (h : s.contains id = false) : s.parent id = none := by
  simp [parent, node?_of_not_contains h]

theorem children_of_not_contains (h : s.contains id = false) : s.children id = [] := by
  simp [children, node?_of_not_contains h]

/-- A node is none of the ids that name nothing. -/
theorem ne_of_contains {j : NodeId} (hid : s.contains id = true) (hj : s.contains j = false) :
    id ≠ j := by
  rintro rfl
  rw [hid] at hj
  cases hj

theorem contains_of_parent {p : NodeId} (h : s.parent id = some p) : s.contains id = true := by
  obtain ⟨n, hn, -⟩ := Option.bind_eq_some_iff.mp h
  exact contains_iff.mpr ⟨n, hn⟩

theorem contains_of_mem_children {c : NodeId} (h : c ∈ s.children id) : s.contains id = true := by
  cases hid : s.contains id with
  | true => rfl
  | false =>
    rw [children_of_not_contains hid] at h
    cases h

theorem node?_eq_some_iff {n : Node} :
    s.node? id = some n ↔ s.slots[id.index]? = some ⟨id.generation, some n⟩ := by
  rw [node?, Option.bind_eq_some_iff]
  constructor
  · rintro ⟨⟨g, node⟩, hslot, h⟩
    by_cases hg : g = id.generation <;> simp_all
  · intro h
    exact ⟨_, h, by simp⟩

theorem index_lt_of_contains (h : s.contains id = true) : id.index < s.slots.size := by
  obtain ⟨n, hn⟩ := contains_iff.mp h
  exact (Array.getElem?_eq_some_iff.mp (node?_eq_some_iff.mp hn)).1

/-- Two nodes never share a slot. -/
theorem eq_of_index_eq (hid : s.contains id = true) (hj : s.contains j = true)
    (h : id.index = j.index) : id = j := by
  obtain ⟨n, hn⟩ := contains_iff.mp hid
  obtain ⟨m, hm⟩ := contains_iff.mp hj
  rw [node?_eq_some_iff] at hn hm
  rw [h, hm] at hn
  obtain ⟨i, g⟩ := id
  obtain ⟨i', g'⟩ := j
  simp_all

/-- What a change of a node makes of it matters only where the node is. -/
theorem modifyNode_congr {f g : Node → Node}
    (h : ∀ n, s.node? id = some n → f n = g n) : s.modifyNode id f = s.modifyNode id g := by
  refine congrArg (Store.mk · s.free) (Array.ext_getElem? fun i => ?_)
  rw [Array.getElem?_modify, Array.getElem?_modify]
  split
  · rename_i hi
    subst hi
    cases hslot : s.slots[id.index]? with
    | none => rfl
    | some slot =>
      obtain ⟨generation, node⟩ := slot
      by_cases hg : generation = id.generation
      · subst hg
        cases node with
        | none => rfl
        | some n => simp [h n (node?_eq_some_iff.mpr hslot)]
      · simp [hg]
  · rfl

/-! ## The free list -/

/-- The free list names each empty slot once and nothing else. -/
structure FreeExact (s : Store) : Prop where
  nodup : s.free.Nodup
  mem : ∀ i, i ∈ s.free ↔ ∃ generation, s.slots[i]? = some ⟨generation, none⟩

theorem FreeExact.modifyNode (h : s.FreeExact) (id : NodeId) (f : Node → Node) :
    (s.modifyNode id f).FreeExact where
  nodup := h.nodup
  mem i := by
    rw [Store.modifyNode, h.mem, Array.getElem?_modify]
    by_cases hi : id.index = i
    · subst hi
      cases s.slots[id.index]? with
      | none => simp
      | some slot =>
        obtain ⟨g, node⟩ := slot
        by_cases hg : g = id.generation <;> simp [hg]
    · simp [hi]

theorem FreeExact.release (h : s.FreeExact) (id : NodeId) : (s.release id).FreeExact := by
  by_cases hc : s.contains id = true
  · obtain ⟨n, hn⟩ := contains_iff.mp hc
    have hslot := node?_eq_some_iff.mp hn
    have hnot : id.index ∉ s.free := by
      rw [h.mem, hslot]
      simp
    simp only [Store.release, hc, if_true]
    refine ⟨List.nodup_cons.mpr ⟨hnot, h.nodup⟩, fun i => ?_⟩
    rw [List.mem_cons, h.mem, Array.getElem?_modify]
    by_cases hi : id.index = i
    · subst hi
      simp [hslot]
    · simp [hi, Ne.symm hi]
  · simpa [Store.release, hc] using h

/-- The slot that a new node takes is empty or new. -/
theorem FreeExact.alloc_cases (h : s.FreeExact) (node : Node) :
    (∃ i g rest, s.free = i :: rest ∧ s.slots[i]? = some ⟨g, none⟩ ∧
      s.alloc node = (⟨i, g⟩,
        ⟨s.slots.modify i fun slot => { slot with node := some node }, rest⟩)) ∨
    (s.free = [] ∧
      s.alloc node = (⟨s.slots.size, 0⟩, { s with slots := s.slots.push ⟨0, some node⟩ })) := by
  cases hf : s.free with
  | nil => exact .inr ⟨rfl, by simp [Store.alloc, hf]⟩
  | cons i rest =>
    obtain ⟨g, hg⟩ := (h.mem i).mp (by simp [hf])
    exact .inl ⟨i, g, rest, rfl, hg, by simp [Store.alloc, hf, hg]⟩

theorem FreeExact.alloc (h : s.FreeExact) (node : Node) : (s.alloc node).2.FreeExact := by
  obtain ⟨i, g, rest, hf, hslot, ha⟩ | ⟨hf, ha⟩ := h.alloc_cases node
  · obtain ⟨hi, hrest⟩ := List.nodup_cons.mp (hf ▸ h.nodup)
    rw [ha]
    refine ⟨hrest, fun k => ?_⟩
    -- the one index that leaves the list is that of the slot that is filled
    have hk := h.mem k
    rw [hf, List.mem_cons] at hk
    rw [Array.getElem?_modify]
    by_cases hik : i = k
    · subst hik
      simp [hi, hslot]
    · simpa [hik, Ne.symm hik] using hk
  · rw [ha]
    refine ⟨h.nodup, fun k => ?_⟩
    have hk := h.mem k
    rw [hk, Array.getElem?_push]
    by_cases hsize : k = s.slots.size
    · subst hsize
      simp
    · simp [hsize]

/-! ## Views of one slot's change -/

theorem FreeExact.node?_alloc_fresh (h : s.FreeExact) (node : Node) :
    s.node? (s.alloc node).1 = none := by
  obtain ⟨i, g, rest, hf, hslot, ha⟩ | ⟨hf, ha⟩ := h.alloc_cases node
  · simp [ha, node?, hslot]
  · simp [ha, node?]

theorem FreeExact.node?_alloc (h : s.FreeExact) (node : Node) (j : NodeId) :
    (s.alloc node).2.node? j = if j = (s.alloc node).1 then some node else s.node? j := by
  obtain ⟨k, g'⟩ := j
  obtain ⟨i, g, rest, hf, hslot, ha⟩ | ⟨hf, ha⟩ := h.alloc_cases node
  · rw [ha]
    simp only [node?, Array.getElem?_modify, NodeId.mk.injEq]
    by_cases hik : i = k
    · subst hik
      by_cases hg : g' = g <;> simp [hslot, hg, eq_comm]
    · simp [hik, Ne.symm hik]
  · rw [ha]
    simp only [node?, Array.getElem?_push, NodeId.mk.injEq]
    by_cases hk : k = s.slots.size
    · subst hk
      by_cases hg : g' = 0 <;> simp [hg, eq_comm]
    · simp [hk]

theorem node?_release (s : Store) (id j : NodeId) :
    (s.release id).node? j = if j = id then none else s.node? j := by
  by_cases hj : j = id
  · subst hj
    simp [node?_release_self]
  · rw [if_neg hj]
    by_cases hc : s.contains id = true
    · obtain ⟨n, hn⟩ := contains_iff.mp hc
      have hslot := node?_eq_some_iff.mp hn
      simp only [release, hc, if_true, node?, Array.getElem?_modify]
      by_cases hi : id.index = j.index
      · -- the slot had the generation of `id`, so `j` has another one
        have hne : id.generation ≠ j.generation := by
          intro hg
          obtain ⟨k, g⟩ := j
          obtain ⟨i, g'⟩ := id
          simp_all
        rw [← hi, hslot]
        simp [hne]
      · simp [hi]
    · simp [release, hc]

end LabelTree.Store
