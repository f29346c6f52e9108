import LabelTree.Proofs.Store.Lineage

/-!
# Store — the number of nodes

The nodes of a store listed slot by slot. With an exact free list `size` is the length of any list
that holds every node once.
-/

namespace LabelTree.Store

variable {s : Store} {id : NodeId}

/-- The node in a slot. -/
def nodeAt? (s : Store) (i : Nat) : Option NodeId :=
  s.slots[i]?.bind fun slot => if slot.node.isSome then some ⟨i, slot.generation⟩ else none

/-- All nodes, slot by slot. -/
def nodes (s : Store) : List NodeId :=
  (List.range s.slots.size).filterMap s.nodeAt?

theorem nodeAt?_eq_some_iff {i : Nat} :
    s.nodeAt? i = some id ↔ id.index = i ∧ s.contains id = true := by
  rw [nodeAt?, Option.bind_eq_some_iff]
  constructor
  · rintro ⟨⟨g, node⟩, hslot, h⟩
    cases node with
    | none => simp at h
    | some n =>
      cases h
      exact ⟨rfl, contains_iff.mpr ⟨n, node?_eq_some_iff.mpr hslot⟩⟩
  · rintro ⟨rfl, hc⟩
    obtain ⟨n, hn⟩ := contains_iff.mp hc
    exact ⟨_, node?_eq_some_iff.mp hn, rfl⟩

theorem mem_nodes : id ∈ s.nodes ↔ s.contains id = true := by
  rw [nodes, List.mem_filterMap]
  constructor
  · rintro ⟨i, -, h⟩
    exact (nodeAt?_eq_some_iff.mp h).2
  · intro hc
    exact ⟨id.index, List.mem_range.mpr (index_lt_of_contains hc),
      nodeAt?_eq_some_iff.mpr ⟨rfl, hc⟩⟩

theorem nodup_nodes (s : Store) : s.nodes.Nodup := by
  refine List.pairwise_filterMap.mpr (List.Pairwise.imp ?_ List.nodup_range)
  rintro i k hne a ha b hb rfl
  rw [nodeAt?_eq_some_iff] at ha hb
  exact hne (ha.1.symm.trans hb.1)

/-- The nodes and the free list together name each slot once. -/
theorem FreeExact.perm_range (hf : s.FreeExact) :
    (s.nodes.map NodeId.index ++ s.free).Perm (List.range s.slots.size) := by
  have hslot : ∀ i, i ∈ s.nodes.map NodeId.index ↔
      ∃ g n, s.slots[i]? = some ⟨g, some n⟩ := by
    intro i
    rw [List.mem_map]
    constructor
    · rintro ⟨id, hid, rfl⟩
      obtain ⟨n, hn⟩ := contains_iff.mp (mem_nodes.mp hid)
      exact ⟨_, n, node?_eq_some_iff.mp hn⟩
    · rintro ⟨g, n, h⟩
      exact ⟨⟨i, g⟩, mem_nodes.mpr (contains_iff.mpr ⟨n, node?_eq_some_iff.mpr h⟩), rfl⟩
  have hmap : (s.nodes.map NodeId.index).Nodup := by
    refine List.pairwise_map.mpr (List.Pairwise.imp_of_mem ?_ s.nodup_nodes)
    intro x y hx hy hne heq
    exact hne (eq_of_index_eq (mem_nodes.mp hx) (mem_nodes.mp hy) heq)
  -- neither side names an index twice, so they are compared member by member
  rw [List.perm_ext_iff_of_nodup (List.nodup_append.mpr ⟨hmap, hf.nodup, ?_⟩) List.nodup_range]
  · intro i
    rw [List.mem_append, hslot, hf.mem, List.mem_range]
    constructor
    · rintro (⟨g, n, h⟩ | ⟨g, h⟩) <;> exact (Array.getElem?_eq_some_iff.mp h).1
    · intro hi
      obtain ⟨⟨g, node⟩, hget⟩ : ∃ slot, s.slots[i]? = some slot :=
        ⟨s.slots[i], Array.getElem?_eq_getElem hi⟩
      cases node with
      | none => exact .inr ⟨g, hget⟩
      | some n => exact .inl ⟨g, n, hget⟩
  · rintro a ha b hb rfl
    obtain ⟨g, n, h⟩ := (hslot a).mp ha
    obtain ⟨g', h'⟩ := (hf.mem a).mp hb
    rw [h] at h'
    cases h'

theorem FreeExact.size_eq (hf : s.FreeExact) : s.size = s.nodes.length := by
  have hlen := hf.perm_range.length_eq
  rw [List.length_append, List.length_map, List.length_range] at hlen
  rw [size, ← hlen]
  omega

/-- The size of a store is the length of any list that holds each node once. -/
theorem FreeExact.size_eq_length (hf : s.FreeExact) {ids : List NodeId} (hn : ids.Nodup)
    (hm : ∀ id, id ∈ ids ↔ s.contains id = true) : s.size = ids.length := by
  rw [hf.size_eq]
  refine List.Perm.length_eq ((List.perm_ext_iff_of_nodup s.nodup_nodes hn).mpr fun id => ?_)
  rw [mem_nodes, hm]

end LabelTree.Store
