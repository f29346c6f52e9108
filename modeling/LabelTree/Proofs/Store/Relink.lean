import LabelTree.Proofs.Store.Labelled
import LabelTree.Proofs.Store.Runs
import Mathlib.Data.List.InsertIdx

/-!
# Store — unlinking and linking undo each other

Unlinking and linking both change two nodes, the child list of one and the parent link of the other.
Changes of different nodes commute (`modifyNode_comm`), so what one of the two did to each node is
undone by the other, and slots, generations and free list are as before. That the other is not
refused is where acyclicity is needed: an old parent is not below the node that left it.
-/

namespace LabelTree.Store

variable {s t : Store} {id p : NodeId} {i : Nat}

/-! ## Changes of nodes, one after the other -/

theorem modifyNode_id (s : Store) (id : NodeId) : (s.modifyNode id fun n => n) = s := by
  refine congrArg (Store.mk · s.free) (Array.ext_getElem? fun i => ?_)
  rw [Array.getElem?_modify]
  split <;> cases s.slots[i]? <;> simp

theorem modifyNode_modifyNode (s : Store) (id : NodeId) (f g : Node → Node) :
    (s.modifyNode id f).modifyNode id g = s.modifyNode id fun n => g (f n) := by
  refine congrArg (Store.mk · s.free) (Array.ext_getElem? fun i => ?_)
  simp only [modifyNode, Array.getElem?_modify]
  by_cases hi : id.index = i
  · cases s.slots[i]? with
    | none => simp
    | some slot =>
      by_cases hg : slot.generation = id.generation <;> simp [hi, hg, Function.comp_def]
  · simp [hi]

theorem modifyNode_comm (h : id ≠ p) (f g : Node → Node) :
    (s.modifyNode id f).modifyNode p g = (s.modifyNode p g).modifyNode id f := by
  refine congrArg (Store.mk · s.free) (Array.ext_getElem? fun i => ?_)
  obtain ⟨k, a⟩ := id
  obtain ⟨l, b⟩ := p
  simp only [modifyNode, Array.getElem?_modify]
  by_cases hk : k = i
  · by_cases hl : l = i
    · subst hk
      subst hl
      -- two ids of one slot differ in generation, so at most one of them names its node
      have hab : a ≠ b := by simpa using h
      cases s.slots[l]? with
      | none => simp
      | some slot =>
        by_cases ha : slot.generation = a
        · simp [ha, hab]
        · by_cases hb : slot.generation = b <;> simp [ha, hb, hab.symm]
    · simp [hk, hl]
  · simp [hk]

/-- Changes of two nodes followed by changes that undo them. -/
theorem modifyNode_undone (hne : p ≠ id) {f f' g g' : Node → Node}
    (hp : ∀ n, s.node? p = some n → f' (f n) = n)
    (hid : ∀ n, s.node? id = some n → g' (g n) = n) :
    (((s.modifyNode p f).modifyNode id g).modifyNode p f').modifyNode id g' = s := by
  rw [modifyNode_comm hne.symm, modifyNode_modifyNode, modifyNode_modifyNode,
    modifyNode_congr hp, modifyNode_id, modifyNode_congr hid, modifyNode_id]

theorem children_of_node? {n : Node} (h : s.node? id = some n) : s.children id = n.children := by
  simp [children, h]

theorem parent_of_node? {n : Node} (h : s.node? id = some n) : s.parent id = n.parent := by
  simp [parent, h]

/-! ## The two operations as changes of two nodes -/

theorem detach_eq_some_iff : s.detach id = some ((p, i), t) ↔
    s.parent id = some p ∧ s.indexInParent id = some i ∧
      (s.modifyNode p fun n => { n with children := n.children.eraseIdx i }).modifyNode id
        (fun n => { n with parent := none }) = t := by
  rw [detach]
  constructor
  · intro h
    split at h
    · cases h
      exact ⟨‹_›, ‹_›, rfl⟩
    · cases h
  · rintro ⟨hp, hi, rfl⟩
    simp [hp, hi]

theorem attach_eq_some_iff : s.attach id p i = some t ↔
    s.canAttach id p = true ∧
      (s.modifyNode p fun n => { n with children := spliced n.children i id }).modifyNode id
        (fun n => { n with parent := some p }) = t := by
  rw [attach]
  constructor
  · intro h
    split at h
    · cases h
      exact ⟨‹_›, rfl⟩
    · cases h
  · rintro ⟨hc, rfl⟩
    rw [if_pos hc]
    rfl

theorem spliced_eraseIdx {cs : List NodeId} (hi : cs[i]? = some id) :
    spliced (cs.eraseIdx i) i id = cs := by
  obtain ⟨hlt, rfl⟩ := List.getElem?_eq_some_iff.mp hi
  have hlen : (cs.eraseIdx i).length = cs.length - 1 := List.length_eraseIdx_of_lt hlt
  rw [spliced, Nat.min_eq_left (by omega), List.insertIdx_eraseIdx_getElem hlt]

namespace WellFormed

/-! ## Each undoes the other -/

/-- A node that was unlinked can be linked where it was. -/
theorem canAttach_of_detach (hs : s.WellFormed) (h : s.detach id = some ((p, i), t)) :
    t.canAttach id p = true := by
  have hd := Store.detaches h
  have hp := hd.parent_eq
  obtain ⟨hu, ht⟩ := hs.unlinks id
  simp only [h, Option.map_some, Option.getD_some] at hu ht
  refine canAttach_iff.mpr ⟨hs.ne_root_of_parent hp, ?_, ?_, ?_, ?_⟩
  · rw [hd.parent, if_pos rfl]
  · rw [hd.contains, Store.contains_of_parent hp]
  · -- the links above the parent are as before, and they did not lead back
    rw [hs.isWithin_unlinks ht hu, hs.not_isWithin_child hp]
  · rw [hd.contains, hs.contains_of_parent hp]

theorem attach_of_detach (hs : s.WellFormed) (h : s.detach id = some ((p, i), t)) :
    t.attach id p i = some s := by
  have hcan := hs.canAttach_of_detach h
  have hget := (Store.detaches h).getElem?_eq
  obtain ⟨hp, -, rfl⟩ := detach_eq_some_iff.mp h
  have hne : p ≠ id := by
    rintro rfl
    exact hs.parent_ne_self hp
  refine attach_eq_some_iff.mpr ⟨hcan, modifyNode_undone hne (fun n hn => ?_) fun n hn => ?_⟩
  · rw [children_of_node? hn] at hget
    rw [spliced_eraseIdx hget]
  · rw [← hp, parent_of_node? hn]

theorem detach_of_attach (hs : s.WellFormed) (h : s.attach id p i = some t) :
    t.detach id = some ((p, min i (s.children p).length), s) := by
  have ha := Store.attaches h
  obtain ⟨-, htop, -, hout, -⟩ := canAttach_iff.mp ha.canAttach
  have hindex : t.indexInParent id = some (min i (s.children p).length) := by
    have hcs : t.children p = (s.children p).take i ++ id :: (s.children p).drop i := by
      rw [ha.children, if_pos rfl, spliced_eq]
    rw [(hs.attach h).indexInParent_of_children hcs, List.length_take]
  have hne : p ≠ id := ne_of_isWithin_eq_false hout
  obtain ⟨-, rfl⟩ := attach_eq_some_iff.mp h
  refine detach_eq_some_iff.mpr ⟨by rw [ha.parent, if_pos rfl], hindex,
    modifyNode_undone hne (fun n hn => ?_) fun n hn => ?_⟩
  · rw [children_of_node? hn, eraseIdx_spliced]
  · rw [← htop, parent_of_node? hn]

/-! ## When linking is refused -/

theorem attach_eq_none_iff (hs : s.WellFormed) : s.attach id p i = none ↔
    id = root ∨ s.contains id = false ∨ (s.parent id).isSome = true ∨ s.contains p = false ∨
      p ∈ s.preorder id := by
  have hnone : s.attach id p i = none ↔ ¬ s.canAttach id p = true := by simp [Store.attach]
  rw [hnone, canAttach_iff, hs.mem_preorder_iff]
  by_cases hroot : id = root
  · simp [hroot]
  · cases s.parent id with
    | some q => simp
    | none =>
      cases s.contains id with
      | false => simp
      | true => cases s.contains p <;> simp [hroot]

/-- Linking a node where it was unlinked restores the store, unlinking it where it was linked does
so too, and linking is refused, the store unchanged, for the root, a node that is not there or has a
parent, and below a node that is not there or is in the subtree. -/
theorem detach_attach_inverse (hs : s.WellFormed) (id p : NodeId) (i : Nat) :
    (∀ t, s.detach id = some ((p, i), t) → t.attach id p i = some s) ∧
    (∀ t, s.attach id p i = some t →
      t.detach id = some ((p, min i (s.children p).length), s)) ∧
    (s.attach id p i = none ∧ s.apply (.attach id p i) = s ↔
      id = root ∨ s.contains id = false ∨ (s.parent id).isSome = true ∨ s.contains p = false ∨
        p ∈ s.preorder id) := by
  refine ⟨fun t => hs.attach_of_detach, fun t => hs.detach_of_attach, ?_⟩
  rw [← hs.attach_eq_none_iff (p := p) (i := i)]
  constructor
  · exact And.left
  · intro h
    exact ⟨h, by rw [apply, h, Option.getD_none]⟩

end WellFormed

/-- A node is linked past the end of a list, another is unlinked and linked again, and a third
cannot be linked below its own child. -/
theorem detach_attach_inverse_second :
    let s := new.applyAll [.appendChild root "a", .appendChild root "b", .appendChild ⟨2, 0⟩ "c",
      .detach ⟨1, 0⟩, .detach ⟨2, 0⟩]
    s.WellFormed ∧
      (∃ t, s.attach ⟨1, 0⟩ ⟨2, 0⟩ 7 = some t ∧ t.detach ⟨1, 0⟩ = some ((⟨2, 0⟩, 1), s)) ∧
      (∃ t, s.detach ⟨3, 0⟩ = some ((⟨2, 0⟩, 0), t) ∧ t.attach ⟨3, 0⟩ ⟨2, 0⟩ 0 = some s) ∧
      s.attach ⟨2, 0⟩ ⟨3, 0⟩ 0 = none := by
  intro s
  have hs : s.WellFormed := Reachable.wellFormed ⟨_, rfl⟩
  obtain ⟨t, ht⟩ : ∃ t, s.attach ⟨1, 0⟩ ⟨2, 0⟩ 7 = some t := ⟨_, rfl⟩
  obtain ⟨u, hu⟩ : ∃ u, s.detach ⟨3, 0⟩ = some ((⟨2, 0⟩, 0), u) := ⟨_, rfl⟩
  have hbelow : (⟨3, 0⟩ : NodeId) ∈ s.preorder ⟨2, 0⟩ := by decide
  refine ⟨hs, ⟨t, ht, (hs.detach_attach_inverse _ _ _).2.1 t ht⟩,
    ⟨u, hu, (hs.detach_attach_inverse _ _ _).1 u hu⟩, ?_⟩
  exact ((hs.detach_attach_inverse ⟨2, 0⟩ ⟨3, 0⟩ 0).2.2.mpr
    (.inr (.inr (.inr (.inr hbelow))))).1

end LabelTree.Store
