import LabelTree.Proofs.Snapshot.Graft
import LabelTree.Proofs.Store.Subtree

/-!
# Snapshot — the copy of a subtree

In a well-formed store the copy of a subtree satisfies its equation without a bound (`snapshot_eq`),
its depth is what the walk over the subtree counts, and its labels are those of nodes below the top.
-/

namespace LabelTree.Store

variable {s : Store} {id : NodeId}

namespace WellFormed

/-! ## The copy -/

/-- Levels beyond the last one add nothing. -/
theorem snapshotUpTo_eq (hs : s.WellFormed) {n : Nat} :
    ∀ {id : NodeId} {m : Nat}, s.contains id = true → s.slots.size < n + (s.lineage id).length →
      n ≤ m → s.snapshotUpTo m id = s.snapshotUpTo n id := by
  induction n with
  | zero =>
    intro id m hid h _
    have := hs.length_lineage_le hid
    omega
  | succ n ih =>
    intro id m hid h hm
    obtain ⟨m, rfl⟩ : ∃ k, m = k + 1 := ⟨m - 1, by omega⟩
    have hcs : (s.children id).map (s.snapshotUpTo m) =
        (s.children id).map (s.snapshotUpTo n) := by
      apply List.map_congr_left
      intro c hc
      have := hs.length_lineage_child hc
      exact ih (hs.contains_of_child hc) (by omega) (by omega)
    simp only [snapshotUpTo, hcs]

/-- The copy of a node and the copies of its children. -/
theorem snapshot_eq (hs : s.WellFormed) (id : NodeId) :
    s.snapshot id = ⟨s.shownLabel id, s.value id, (s.children id).map s.snapshot⟩ := by
  have hcs : (s.children id).map (s.snapshotUpTo s.slots.size) =
      (s.children id).map s.snapshot := by
    apply List.map_congr_left
    intro c hc
    have hlen := hs.length_lineage_child hc
    exact (hs.snapshotUpTo_eq (hs.contains_of_child hc) (by omega) (by simp [walkLimit])).symm
  rw [snapshot, walkLimit, snapshotUpTo, hcs]

/-- A copy depends on the labels, the values and the children of the nodes in the subtree alone. -/
theorem snapshot_congr {t : Store} (hs : s.WellFormed) (ht : t.WellFormed)
    (hid : s.contains id = true) (h : ∀ j, s.contains j = true → s.isWithin j id = true →
      t.label j = s.label j ∧ t.value j = s.value j ∧ t.children j = s.children j) :
    t.snapshot id = s.snapshot id := by
  induction id using hs.downward with
  | step id ih =>
    obtain ⟨hlabel, hvalue, hchildren⟩ := h id hid (isWithin_self s id)
    have hbelow : (s.children id).map t.snapshot = (s.children id).map s.snapshot := by
      apply List.map_congr_left
      intro c hc
      refine ih c hc (hs.contains_of_child hc) fun j hj hjc => h j hj ?_
      exact hs.isWithin_trans hjc (hs.isWithin_parent ((hs.mem_children id c).mp hc))
    rw [ht.snapshot_eq, hs.snapshot_eq, shownLabel, shownLabel, hlabel, hvalue, hchildren, hbelow]

/-- The copies of the children depend on the nodes below alone, not on the node itself. -/
theorem map_snapshot_children_congr {t : Store} (hs : s.WellFormed) (ht : t.WellFormed)
    (h : ∀ j, s.contains j = true → s.isWithin j id = true → j ≠ id →
      t.label j = s.label j ∧ t.value j = s.value j ∧ t.children j = s.children j) :
    (s.children id).map t.snapshot = (s.children id).map s.snapshot := by
  refine List.map_congr_left fun c hc => ?_
  have hp := (hs.mem_children id c).mp hc
  refine hs.snapshot_congr ht (hs.contains_of_child hc) fun j hj hjc => ?_
  have hne : j ≠ id := by
    rintro rfl
    rw [hs.not_isWithin_child hp] at hjc
    cases hjc
  exact h j hj (hs.isWithin_trans hjc (hs.isWithin_parent hp)) hne

/-- What holds of the labels of all nodes but the root holds of those below the top of a copy. -/
theorem forall_labelsBelow_snapshot (hs : s.WellFormed) {good : String → Prop}
    (hgood : ∀ id, id ≠ root → s.contains id = true → good (s.shownLabel id)) (id : NodeId) :
    ∀ l ∈ (s.snapshot id).labelsBelow, good l := by
  induction id using hs.downward with
  | step id ih =>
    have hall : ∀ ids : List NodeId, (∀ c ∈ ids, c ∈ s.children id) →
        ∀ l ∈ Snapshot.labelsAmong (ids.map s.snapshot), good l := by
      intro ids
      induction ids with
      | nil => simp [Snapshot.labelsAmong]
      | cons c ids ih' =>
        intro hsub l hl
        have hc := hsub c List.mem_cons_self
        rw [List.map_cons, Snapshot.labelsAmong, List.mem_cons, List.mem_append] at hl
        rcases hl with rfl | hl | hl
        · have hroot : c ≠ root := hs.ne_root_of_parent ((hs.mem_children id c).mp hc)
          rw [hs.snapshot_eq]
          exact hgood c hroot (hs.contains_of_child hc)
        · exact ih c hc l hl
        · exact ih' (fun d hd => hsub d (List.mem_cons_of_mem _ hd)) l hl
    rw [hs.snapshot_eq, Snapshot.labelsBelow]
    exact hall _ fun _ hc => hc

/-! ## Its depth -/

end WellFormed

/-- The depth of the deepest node below those on a stack of nodes and their depths. -/
def deepestOf (s : Store) : List (NodeId × Nat) → Nat
  | [] => 0
  | (id, depth) :: stack =>
    max (depth + Snapshot.depthAll ((s.children id).map s.snapshot)) (s.deepestOf stack)

namespace WellFormed

theorem depth_snapshot (hs : s.WellFormed) (id : NodeId) :
    (s.snapshot id).depth = Snapshot.depthAll ((s.children id).map s.snapshot) + 1 := by
  rw [hs.snapshot_eq, Snapshot.depth]

/-- A node and its children on the stack reach as deep as the subtree of the node. -/
theorem deepestOf_children (hs : s.WellFormed) (depth : Nat) (ids : List NodeId)
    (stack : List (NodeId × Nat)) :
    max depth (s.deepestOf (ids.map (·, depth + 1) ++ stack)) =
      max (depth + Snapshot.depthAll (ids.map s.snapshot)) (s.deepestOf stack) := by
  induction ids with
  | nil => rfl
  | cons c ids ih =>
    have hc := hs.depth_snapshot c
    simp only [List.map_cons, List.cons_append, deepestOf, Snapshot.depthAll]
    omega

/-- With steps enough the walk finds the deepest node below those on the stack. -/
theorem deepestFrom_eq (hs : s.WellFormed) {n : Nat} :
    ∀ {deepest : Nat} {stack : List (NodeId × Nat)}, (∀ e ∈ stack, s.contains e.1 = true) →
      ((stack.map Prod.fst).flatMap s.preorder).length ≤ n →
      s.deepestFrom n deepest stack = max deepest (s.deepestOf stack) := by
  induction n with
  | zero =>
    intro deepest stack hstack h
    cases stack with
    | nil => simp [deepestFrom, deepestOf]
    | cons e stack =>
      rw [List.map_cons, List.flatMap_cons,
        hs.preorder_of_contains (hstack e List.mem_cons_self)] at h
      simp at h
  | succ n ih =>
    intro deepest stack hstack h
    cases stack with
    | nil => simp [deepestFrom, deepestOf]
    | cons e stack =>
      obtain ⟨id, depth⟩ := e
      have hid : s.contains id = true := hstack (id, depth) List.mem_cons_self
      have hstack' : ∀ e ∈ (s.children id).map (·, depth + 1) ++ stack, s.contains e.1 = true := by
        intro e he
        rcases List.mem_append.mp he with he | he
        · obtain ⟨c, hc, rfl⟩ := List.mem_map.mp he
          exact hs.contains_of_child hc
        · exact hstack e (List.mem_cons_of_mem _ he)
      have hfst : ((s.children id).map (·, depth + 1) ++ stack).map Prod.fst =
          s.children id ++ stack.map Prod.fst := by
        simp [List.map_append, Function.comp_def]
      rw [List.map_cons, List.flatMap_cons, hs.preorder_of_contains hid] at h
      have hlen : ((((s.children id).map (·, depth + 1) ++ stack).map Prod.fst).flatMap
          s.preorder).length ≤ n := by
        rw [hfst, List.flatMap_append]
        simp only [List.length_append, List.length_cons] at h ⊢
        omega
      have hbelow := hs.deepestOf_children depth (s.children id) stack
      rw [deepestFrom, ih hstack' hlen, deepestOf]
      omega

theorem subtreeDepth_eq_depth (hs : s.WellFormed) (hid : s.contains id = true) :
    s.subtreeDepth id = (s.snapshot id).depth := by
  have hlen := hs.length_preorder_le id
  have hwalk : s.deepestFrom s.walkLimit 0 [(id, 1)] = max 0 (s.deepestOf [(id, 1)]) :=
    hs.deepestFrom_eq (by simpa using hid) (by simp [walkLimit]; omega)
  rw [subtreeDepth, hwalk, hs.depth_snapshot]
  simp [deepestOf, Nat.add_comm]

end WellFormed

end LabelTree.Store
