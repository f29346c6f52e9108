import LabelTree.Proofs.Store.Lineage

/-!
# Store — subtrees

The recursive listing of a subtree, `preorder`, satisfies its equation without a bound, holds each
node of the subtree once, and is what the walk with an explicit stack lists. The measure for all of
this is depth: a node has no more ancestors than there are slots.
-/

namespace LabelTree.Store

variable {s : Store} {id c p x : NodeId}

namespace WellFormed

/-! ## Depth -/

theorem length_lineage_le (hs : s.WellFormed) (hid : s.contains id = true) :
    (s.lineage id).length ≤ s.slots.size :=
  length_le_of_nodup (hs.nodup_lineageUpTo _ id) (hs.contains_of_mem_lineageUpTo _ id hid)

theorem length_lineage_child (hs : s.WellFormed) (h : c ∈ s.children p) :
    (s.lineage c).length = (s.lineage p).length + 1 := by
  rw [hs.lineage_of_parent ((hs.mem_children p c).mp h), List.length_cons]

/-- Induction from the children of a node to the node. -/
theorem downward (hs : s.WellFormed) {P : NodeId → Prop}
    (step : ∀ id, (∀ c ∈ s.children id, P c) → P id) (id : NodeId) : P id := by
  have hall : ∀ n id, s.slots.size - (s.lineage id).length = n → P id := by
    intro n
    induction n using Nat.strongRecOn with
    | _ n ih =>
      rintro id rfl
      apply step
      intro c hc
      have hlen := hs.length_lineage_child hc
      have hle := hs.length_lineage_le (hs.contains_of_child hc)
      exact ih (s.slots.size - (s.lineage c).length) (by omega) c rfl
  exact hall _ id rfl

/-! ## The recursive listing -/

/-- Levels beyond the last one add nothing. -/
theorem preorderUpTo_eq (hs : s.WellFormed) {n : Nat} :
    ∀ {id : NodeId} {m : Nat}, s.slots.size < n + (s.lineage id).length → n ≤ m →
      s.preorderUpTo m id = s.preorderUpTo n id := by
  induction n with
  | zero =>
    intro id m h _
    have hid : s.contains id = false := by
      rw [← Bool.not_eq_true]
      intro hid
      have := hs.length_lineage_le hid
      omega
    cases m <;> simp [preorderUpTo, hid]
  | succ n ih =>
    intro id m h hm
    obtain ⟨m, rfl⟩ : ∃ k, m = k + 1 := ⟨m - 1, by omega⟩
    have hcs : (s.children id).map (s.preorderUpTo m) = (s.children id).map (s.preorderUpTo n) := by
      apply List.map_congr_left
      intro c hc
      have := hs.length_lineage_child hc
      exact ih (by omega) (by omega)
    simp only [preorderUpTo, List.flatMap_def, hcs]

theorem preorder_of_contains (hs : s.WellFormed) (hid : s.contains id = true) :
    s.preorder id = id :: (s.children id).flatMap s.preorder := by
  have hcs : (s.children id).map (s.preorderUpTo s.slots.size) =
      (s.children id).map s.preorder := by
    apply List.map_congr_left
    intro c hc
    have hlen := hs.length_lineage_child hc
    exact (hs.preorderUpTo_eq (by omega) (by simp [walkLimit])).symm
  rw [preorder, walkLimit, preorderUpTo, if_pos hid, List.flatMap_def, List.flatMap_def, hcs]

end WellFormed

theorem preorder_of_not_contains (hid : s.contains id = false) : s.preorder id = [] := by
  simp [preorder, walkLimit, preorderUpTo, hid]

namespace WellFormed

theorem mem_preorder_self (hs : s.WellFormed) (hid : s.contains id = true) :
    id ∈ s.preorder id := by
  simp [hs.preorder_of_contains hid]

theorem mem_preorder_of_mem_child (hs : s.WellFormed) (hc : c ∈ s.children id)
    (hx : x ∈ s.preorder c) : x ∈ s.preorder id := by
  rw [hs.preorder_of_contains (contains_of_mem_children hc)]
  exact List.mem_cons_of_mem _ (List.mem_flatMap.mpr ⟨c, hc, hx⟩)

theorem mem_preorder_cases (hs : s.WellFormed) (hx : x ∈ s.preorder id) :
    x = id ∨ ∃ c ∈ s.children id, x ∈ s.preorder c := by
  by_cases hid : s.contains id = true
  · rw [hs.preorder_of_contains hid, List.mem_cons, List.mem_flatMap] at hx
    exact hx
  · rw [preorder_of_not_contains (by simpa using hid)] at hx
    cases hx

/-- A subtree holds the children of each of its nodes. -/
theorem mem_preorder_child (hs : s.WellFormed) (hp : p ∈ s.preorder id) (hc : c ∈ s.children p) :
    c ∈ s.preorder id := by
  induction id using hs.downward with
  | step id ih =>
    rcases hs.mem_preorder_cases hp with rfl | ⟨q, hq, hpq⟩
    · exact hs.mem_preorder_of_mem_child hc (hs.mem_preorder_self (hs.contains_of_child hc))
    · exact hs.mem_preorder_of_mem_child hq (ih q hq hpq)

theorem mem_preorder_iff (hs : s.WellFormed) :
    x ∈ s.preorder id ↔ s.contains x = true ∧ s.isWithin x id = true := by
  constructor
  · intro hx
    induction id using hs.downward with
    | step id ih =>
      rcases hs.mem_preorder_cases hx with rfl | ⟨c, hc, hxc⟩
      · refine ⟨?_, isWithin_self s x⟩
        by_cases hid : s.contains x = true
        · exact hid
        · rw [preorder_of_not_contains (by simpa using hid)] at hx
          cases hx
      · obtain ⟨hcx, hw⟩ := ih c hc hxc
        exact ⟨hcx, hs.isWithin_trans hw (hs.isWithin_parent ((hs.mem_children id c).mp hc))⟩
  · rintro ⟨hcx, hw⟩
    induction x using hs.upward with
    | step x ih =>
      rcases hs.isWithin_iff.mp hw with rfl | ⟨p, hp, hpw⟩
      · exact hs.mem_preorder_self hcx
      · exact hs.mem_preorder_child (ih p hp (hs.contains_of_parent hp) hpw)
          ((hs.mem_children p x).mpr hp)

theorem nodup_preorder (hs : s.WellFormed) (id : NodeId) : (s.preorder id).Nodup := by
  induction id using hs.downward with
  | step id ih =>
    by_cases hid : s.contains id = true
    · rw [hs.preorder_of_contains hid]
      refine List.nodup_cons.mpr ⟨?_, List.pairwise_flatMap.mpr ⟨ih, ?_⟩⟩
      · intro hmem
        obtain ⟨c, hc, hx⟩ := List.mem_flatMap.mp hmem
        have hw := (hs.mem_preorder_iff.mp hx).2
        rw [hs.not_isWithin_child ((hs.mem_children id c).mp hc)] at hw
        cases hw
      · -- a node in two of the subtrees would make their tops equal
        refine List.Pairwise.imp_of_mem ?_ (hs.nodup_children id)
        rintro c d hc hd hne x hx _ hy rfl
        exact hne (hs.eq_of_isWithin_children ((hs.mem_children id c).mp hc)
          ((hs.mem_children id d).mp hd) (hs.mem_preorder_iff.mp hx).2
          (hs.mem_preorder_iff.mp hy).2)
    · rw [preorder_of_not_contains (by simpa using hid)]
      exact List.nodup_nil

theorem length_preorder_le (hs : s.WellFormed) (id : NodeId) :
    (s.preorder id).length ≤ s.slots.size :=
  length_le_of_nodup (hs.nodup_preorder id) fun _ hx => (hs.mem_preorder_iff.mp hx).1

/-! ## The walk with a stack -/

/-- With steps enough the walk lists the subtrees of the nodes on the stack one after another. -/
theorem visit_eq (hs : s.WellFormed) {n : Nat} :
    ∀ {stack : List NodeId}, (∀ id ∈ stack, s.contains id = true) →
      (stack.flatMap s.preorder).length < n → s.visit n stack = stack.flatMap s.preorder := by
  induction n with
  | zero => intro stack _ h; omega
  | succ n ih =>
    intro stack hstack h
    cases stack with
    | nil => rfl
    | cons id stack =>
      have hid := hstack id List.mem_cons_self
      -- the subtree of the first node is the node and the subtrees of its children
      have hflat : (id :: stack).flatMap s.preorder =
          id :: (s.children id ++ stack).flatMap s.preorder := by
        rw [List.flatMap_cons, hs.preorder_of_contains hid, List.flatMap_append, List.cons_append]
      have hstack' : ∀ c ∈ s.children id ++ stack, s.contains c = true := by
        intro c hc
        rcases List.mem_append.mp hc with hc | hc
        · exact hs.contains_of_child hc
        · exact hstack c (List.mem_cons_of_mem _ hc)
      rw [hflat, List.length_cons] at h
      rw [visit, if_pos hid, hflat, ih hstack' (by omega)]

theorem descendants_eq_preorder (hs : s.WellFormed) (id : NodeId) :
    s.descendants id = s.preorder id := by
  by_cases hid : s.contains id = true
  · have hlen := hs.length_preorder_le id
    have hv : s.visit s.walkLimit [id] = [id].flatMap s.preorder :=
      hs.visit_eq (by simpa using hid) (by simp [walkLimit]; omega)
    simpa [descendants] using hv
  · rw [preorder_of_not_contains (by simpa using hid), descendants, walkLimit, visit, if_neg hid]
    cases s.slots.size <;> rfl

theorem mem_descendants (hs : s.WellFormed) :
    x ∈ s.descendants id ↔ s.contains x = true ∧ s.isWithin x id = true := by
  rw [hs.descendants_eq_preorder, hs.mem_preorder_iff]

theorem nodup_descendants (hs : s.WellFormed) (id : NodeId) : (s.descendants id).Nodup := by
  rw [hs.descendants_eq_preorder]
  exact hs.nodup_preorder id

end WellFormed

end LabelTree.Store
