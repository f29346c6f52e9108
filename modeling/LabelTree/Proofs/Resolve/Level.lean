import LabelTree.Proofs.Resolve.Narrow
import LabelTree.Proofs.Store.Subtree

/-!
# Resolve — the nodes met are part of one level

The unstated invariant of resolving: after each step the nodes are part of one level of the tree, in
the order of that level. A child step goes one level down and a parent step one up; dropping
repetitions after a parent step is what keeps it. A level is in document order and has no node
twice, and no node of it lies below another.
-/

namespace LabelTree.Store

variable {s : Store} {id p a b : NodeId} {k : Nat}

/-! ## Lists of lists -/

theorem flatMap_sublist_flatMap {l l' : List NodeId} {f g : NodeId → List NodeId}
    (h : l.Sublist l') (hfg : ∀ x ∈ l, (f x).Sublist (g x)) :
    (l.flatMap f).Sublist (l'.flatMap g) := by
  induction h with
  | slnil => exact List.Sublist.refl _
  | cons a _ ih => exact (ih hfg).trans (List.sublist_append_right _ _)
  | cons_cons a _ ih =>
    refine (hfg a List.mem_cons_self).append (ih fun x hx => ?_)
    exact hfg x (List.mem_cons_of_mem a hx)

/-! ## Levels -/

/-- The nodes `k` levels below a node, in document order. -/
def level (s : Store) : Nat → NodeId → List NodeId
  | 0, id => [id]
  | k + 1, id => (s.children id).flatMap (s.level k)

/-- A level is also reached from the level above it. -/
theorem flatMap_children_level (s : Store) (k : Nat) (id : NodeId) :
    (s.level k id).flatMap s.children = s.level (k + 1) id := by
  induction k generalizing id with
  | zero => simp [level]
  | succ k ih =>
    rw [level, List.flatMap_assoc, level]
    simp only [ih]

namespace WellFormed

theorem contains_of_mem_level (hs : s.WellFormed) (hid : s.contains id = true) :
    ∀ x ∈ s.level k id, s.contains x = true := by
  induction k generalizing id with
  | zero =>
    intro x hx
    rw [List.mem_singleton.mp hx]
    exact hid
  | succ k ih =>
    intro x hx
    obtain ⟨c, hc, hxc⟩ := List.mem_flatMap.mp hx
    exact ih (hs.contains_of_child hc) x hxc

theorem level_sublist_preorder (hs : s.WellFormed) (hid : s.contains id = true) :
    (s.level k id).Sublist (s.preorder id) := by
  induction k generalizing id with
  | zero =>
    rw [hs.preorder_of_contains hid]
    exact (List.nil_sublist _).cons_cons id
  | succ k ih =>
    rw [hs.preorder_of_contains hid, level]
    refine List.Sublist.cons id (flatMap_sublist_flatMap (List.Sublist.refl _) fun c hc => ?_)
    exact ih (hs.contains_of_child hc)

theorem nodup_level (hs : s.WellFormed) (hid : s.contains id = true) : (s.level k id).Nodup :=
  (hs.level_sublist_preorder hid).nodup (hs.nodup_preorder id)

theorem length_lineage_of_mem_level (hs : s.WellFormed) {x : NodeId} (hx : x ∈ s.level k id) :
    (s.lineage x).length = (s.lineage id).length + k := by
  induction k generalizing id with
  | zero =>
    rw [List.mem_singleton.mp hx]
    rfl
  | succ k ih =>
    obtain ⟨c, hc, hxc⟩ := List.mem_flatMap.mp hx
    rw [ih hxc, hs.length_lineage_child hc]
    omega

/-- No node of a level lies below another one of it. -/
theorem eq_of_isWithin_of_mem_level (hs : s.WellFormed) {x y : NodeId} (hx : x ∈ s.level k id)
    (hy : y ∈ s.level k id) (h : s.isWithin x y = true) : x = y := by
  have hrank : ∀ c p, s.parent c = some p → (s.lineage p).length < (s.lineage c).length := by
    intro c p hp
    rw [hs.lineage_of_parent hp]
    exact Nat.lt_succ_self _
  rcases hs.rank_of_isWithin hrank h with heq | hlt
  · exact heq
  · rw [hs.length_lineage_of_mem_level hx, hs.length_lineage_of_mem_level hy] at hlt
    omega

/-! ## One step -/

/-- Parents of part of the children of distinct nodes, without repetitions, are part of those
nodes. -/
theorem eraseDups_flatMap_parent_sublist (hs : s.WellFormed) {l nodes : List NodeId}
    {f : NodeId → List NodeId} (hn : l.Nodup) (h : nodes.Sublist (l.flatMap s.children))
    (hf : ∀ x, (f x).Sublist (s.parent x).toList) : (nodes.flatMap f).eraseDups.Sublist l := by
  induction l generalizing nodes with
  | nil =>
    have hnil : nodes = [] := List.sublist_nil.mp h
    subst hnil
    exact List.Sublist.refl _
  | cons p l ih =>
    obtain ⟨hp, hl⟩ := List.nodup_cons.mp hn
    rw [List.flatMap_cons] at h
    obtain ⟨first, rest, rfl, hfirst, hrest⟩ := List.sublist_append_iff.mp h
    have hbelow : ∀ {q x}, x ∈ s.children q → ∀ y ∈ f x, y = q := by
      intro q x hx y hy
      have hmem := (hf x).subset hy
      rw [(hs.mem_children q x).mp hx] at hmem
      simpa using hmem
    -- the first nodes lead to `p` alone, the others lead into `l`
    have hone : ∀ y ∈ first.flatMap f, y = p := by
      intro y hy
      obtain ⟨x, hx, hyx⟩ := List.mem_flatMap.mp hy
      exact hbelow (hfirst.subset hx) y hyx
    have hothers : ∀ y ∈ rest.flatMap f, y ≠ p := by
      intro y hy heq
      obtain ⟨x, hx, hyx⟩ := List.mem_flatMap.mp hy
      obtain ⟨q, hq, hxq⟩ := List.mem_flatMap.mp (hrest.subset hx)
      have hyq : y = q := hbelow hxq y hyx
      exact hp (heq ▸ hyq ▸ hq)
    rw [List.flatMap_append]
    generalize first.flatMap f = ps at hone
    cases ps with
    | nil => exact List.Sublist.cons p (ih hl hrest)
    | cons q ps =>
      obtain rfl : q = p := hone q List.mem_cons_self
      have hfirst : ps.filter (fun b => !b == q) = [] := by
        rw [List.filter_eq_nil_iff]
        intro y hy
        simp [hone y (List.mem_cons_of_mem q hy)]
      have hrest' : (rest.flatMap f).filter (fun b => !b == q) = rest.flatMap f := by
        rw [List.filter_eq_self]
        intro y hy
        simp [hothers y hy]
      rw [List.cons_append, List.eraseDups_cons, List.filter_append, hfirst, hrest',
        List.nil_append]
      exact (ih hl hrest).cons_cons q

/-- What one step makes of part of a level is again part of a level. -/
theorem advance_sublist_level (hs : s.WellFormed) (hid : s.contains id = true)
    (htop : s.parent id = none) (step : Step) {nodes : List NodeId}
    (h : nodes.Sublist (s.level k id)) : ∃ k', (s.advance nodes step).Sublist (s.level k' id) := by
  cases step with
  | append label offset =>
    have hnone : nodes.flatMap (s.candidates (.append label offset)) = [] := by
      rw [List.flatMap_eq_nil_iff]
      exact fun _ _ => rfl
    refine ⟨k, ?_⟩
    show (nodes.flatMap (s.candidates (.append label offset))).Sublist _
    rw [hnone]
    exact List.nil_sublist _
  | select axis ps =>
    have hcand : ∀ x, (s.candidates (.select axis ps) x).Sublist (s.axisNodes axis x) :=
      fun x => s.candidates_sublist axis ps x
    cases axis with
    | child matcher =>
      refine ⟨k + 1, ?_⟩
      rw [← flatMap_children_level]
      exact flatMap_sublist_flatMap h fun x _ => (hcand x).trans List.filter_sublist
    | self =>
      refine ⟨k, ?_⟩
      have hsub := flatMap_sublist_flatMap (List.Sublist.refl nodes) fun x _ => hcand x
      have hself : nodes.flatMap (s.axisNodes .self) = nodes := List.flatMap_singleton' nodes
      rw [hself] at hsub
      exact hsub.trans h
    | parent =>
      cases k with
      | zero =>
        -- the top has no parent
        have hnone : nodes.flatMap (s.candidates (.select .parent ps)) = [] := by
          rw [List.flatMap_eq_nil_iff]
          intro x hx
          have hxid : x = id := List.mem_singleton.mp (h.subset hx)
          have hsub := hcand x
          rw [axisNodes, hxid, htop] at hsub
          rw [hxid]
          exact List.sublist_nil.mp hsub
        refine ⟨0, ?_⟩
        rw [advance, hnone]
        exact List.nil_sublist _
      | succ k =>
        refine ⟨k, ?_⟩
        -- one level up, where the parents are distinct
        rw [← flatMap_children_level] at h
        exact hs.eraseDups_flatMap_parent_sublist (hs.nodup_level hid) h hcand

end WellFormed

end LabelTree.Store
