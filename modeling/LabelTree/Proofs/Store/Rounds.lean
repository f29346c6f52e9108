import LabelTree.Proofs.Snapshot.Subtree
import LabelTree.Proofs.Store.Runs

/-!
# Store — walks round by round

A walk down a subtree takes a node off a stack and puts the children of the node on it, round after
round until the stack is empty. Nothing bounds the rounds. They come to an end because the subtree
of the node on top is walked before the nodes below it on the stack are met
(`WellFormed.lists_cons`, `WellFormed.deepens_cons`), and a subtree has no path that leads back.
What the walks find is what the recursion over the subtree says (`walks_follow_recursion`).
-/

namespace LabelTree.Store

variable {s : Store} {id : NodeId}

/-- That the walk that begins with a stack ends, and the nodes that it lists. A stale id is passed
over. -/
inductive Lists (s : Store) : List NodeId → List NodeId → Prop
  | done : Lists s [] []
  | stale {id : NodeId} {stack ids : List NodeId} : s.contains id = false → Lists s stack ids →
      Lists s (id :: stack) ids
  | node {id : NodeId} {stack ids : List NodeId} : s.contains id = true →
      Lists s (s.children id ++ stack) ids → Lists s (id :: stack) (id :: ids)

/-- That the walk over a stack of nodes and their depths ends, and the greatest depth that it meets,
or the depth met before if that is more. Of the children of a node the last one comes onto the stack
last. -/
inductive Deepens (s : Store) : Nat → List (NodeId × Nat) → Nat → Prop
  | done {deepest : Nat} : Deepens s deepest [] deepest
  | node {deepest depth result : Nat} {id : NodeId} {stack : List (NodeId × Nat)} :
      Deepens s (max deepest depth) (((s.children id).map (·, depth + 1)).reverse ++ stack) result →
      Deepens s deepest ((id, depth) :: stack) result

/-! ## One outcome -/

theorem Lists.unique {stack ids ids' : List NodeId} (h : s.Lists stack ids)
    (h' : s.Lists stack ids') : ids' = ids := by
  induction h generalizing ids' with
  | done =>
    cases h'
    rfl
  | stale hstale _ ih =>
    cases h' with
    | stale _ h' => exact ih h'
    | node hid _ =>
      rw [hid] at hstale
      cases hstale
  | node hid _ ih =>
    cases h' with
    | stale hstale _ =>
      rw [hid] at hstale
      cases hstale
    | node _ h' => rw [ih h']

theorem Deepens.unique {deepest d d' : Nat} {stack : List (NodeId × Nat)}
    (h : s.Deepens deepest stack d) (h' : s.Deepens deepest stack d') : d' = d := by
  induction h generalizing d' with
  | done =>
    cases h'
    rfl
  | node _ ih =>
    cases h' with
    | node h' => exact ih h'

/-! ## The listing -/

namespace WellFormed

/-- The subtree of the node on top of the stack is listed first, and then the rest. -/
theorem lists_cons (hs : s.WellFormed) (hid : s.contains id = true) {stack ids : List NodeId}
    (h : s.Lists stack ids) : s.Lists (id :: stack) (s.preorder id ++ ids) := by
  induction id using hs.downward generalizing stack ids with
  | step id ih =>
    have hbelow : ∀ cs : List NodeId, (∀ c ∈ cs, c ∈ s.children id) →
        s.Lists (cs ++ stack) (cs.flatMap s.preorder ++ ids) := by
      intro cs
      induction cs with
      | nil => exact fun _ => h
      | cons c cs ih' =>
        intro hsub
        have hc := hsub c List.mem_cons_self
        have hrest := ih' fun d hd => hsub d (List.mem_cons_of_mem _ hd)
        rw [List.flatMap_cons, List.append_assoc]
        exact ih c hc (hs.contains_of_child hc) hrest
    rw [hs.preorder_of_contains hid]
    exact .node hid (hbelow _ fun _ hc => hc)

theorem lists_iff (hs : s.WellFormed) (hid : s.contains id = true) (ids : List NodeId) :
    s.Lists [id] ids ↔ ids = s.descendants id := by
  have hlists : s.Lists [id] (s.descendants id) := by
    rw [hs.descendants_eq_preorder, ← List.append_nil (s.preorder id)]
    exact hs.lists_cons hid .done
  constructor
  · exact hlists.unique
  · rintro rfl
    exact hlists

/-- Being within a node asks for no more than the links, as only a node has a parent. -/
theorem mem_descendants_iff (hs : s.WellFormed) (hid : s.contains id = true) (x : NodeId) :
    x ∈ s.descendants id ↔ s.isWithin x id = true := by
  rw [hs.mem_descendants, and_iff_right_of_imp]
  intro hx
  rcases hs.isWithin_iff.mp hx with rfl | ⟨p, hp, -⟩
  · exact hid
  · exact Store.contains_of_parent hp

end WellFormed

/-! ## The depth -/

end LabelTree.Store

namespace LabelTree.Snapshot

theorem depthAll_eq_foldr (children : List Snapshot) :
    depthAll children = (children.map depth).foldr max 0 := by
  induction children with
  | nil => rfl
  | cons child rest ih => rw [depthAll, ih, List.map_cons, List.foldr_cons]

theorem depthAll_append (children others : List Snapshot) :
    depthAll (children ++ others) = max (depthAll children) (depthAll others) := by
  induction children with
  | nil => simp [depthAll]
  | cons child rest ih =>
    rw [List.cons_append, depthAll, depthAll, ih]
    omega

theorem depthAll_reverse (children : List Snapshot) :
    depthAll children.reverse = depthAll children := by
  induction children with
  | nil => rfl
  | cons child rest ih =>
    rw [List.reverse_cons, depthAll_append, ih, depthAll, depthAll, depthAll]
    omega

end LabelTree.Snapshot

namespace LabelTree.Store

variable {s : Store} {id : NodeId}

namespace WellFormed

/-- The subtree of the node on top of the stack is walked first, and then the rest. -/
theorem deepens_cons (hs : s.WellFormed) (id : NodeId) {deepest depth result : Nat}
    {stack : List (NodeId × Nat)}
    (h : s.Deepens (max deepest (depth + Snapshot.depthAll ((s.children id).map s.snapshot))) stack
      result) :
    s.Deepens deepest ((id, depth) :: stack) result := by
  induction id using hs.downward generalizing deepest depth result stack with
  | step id ih =>
    -- the greatest depth is that of the walk so far or that of one of the children
    have hbelow : ∀ (cs : List NodeId) (met : Nat), (∀ c ∈ cs, c ∈ s.children id) → depth ≤ met →
        s.Deepens (max met (depth + Snapshot.depthAll (cs.map s.snapshot))) stack result →
        s.Deepens met (cs.map (·, depth + 1) ++ stack) result := by
      intro cs
      induction cs with
      | nil =>
        intro met _ hmet h
        rwa [List.map_nil, Snapshot.depthAll, Nat.add_zero, Nat.max_eq_left hmet] at h
      | cons c cs ih' =>
        intro met hsub hmet h
        refine ih c (hsub c List.mem_cons_self) ?_
        refine ih' _ (fun d hd => hsub d (List.mem_cons_of_mem _ hd)) (by omega) ?_
        have hc := hs.depth_snapshot c
        rw [List.map_cons, Snapshot.depthAll] at h
        have hmax :
            max met (depth + max (s.snapshot c).depth (Snapshot.depthAll (cs.map s.snapshot))) =
              max (max met (depth + 1 + Snapshot.depthAll ((s.children c).map s.snapshot)))
                (depth + Snapshot.depthAll (cs.map s.snapshot)) := by
          omega
        rwa [hmax] at h
    refine .node ?_
    rw [← List.map_reverse]
    refine hbelow _ _ (fun c hc => List.mem_reverse.mp hc) (Nat.le_max_right _ _) ?_
    rw [List.map_reverse, Snapshot.depthAll_reverse]
    have hmax : ∀ below, max (max deepest depth) (depth + below) = max deepest (depth + below) := by
      omega
    rwa [hmax]

theorem deepens_iff (hs : s.WellFormed) (hid : s.contains id = true) (d : Nat) :
    s.Deepens 0 [(id, 1)] d ↔ d = s.subtreeDepth id := by
  have hdeepens : s.Deepens 0 [(id, 1)] (s.subtreeDepth id) := by
    refine hs.deepens_cons id ?_
    rw [hs.subtreeDepth_eq_depth hid, hs.depth_snapshot, Nat.zero_max, Nat.add_comm]
    exact .done
  constructor
  · exact hdeepens.unique
  · rintro rfl
    exact hdeepens

/-- With levels enough the height is the depth of the copy. -/
theorem heightUpTo_eq (hs : s.WellFormed) {n : Nat} (hid : s.contains id = true)
    (hn : s.slots.size < n + (s.lineage id).length) :
    s.heightUpTo n id = (s.snapshot id).depth := by
  induction n generalizing id with
  | zero =>
    have hle := hs.length_lineage_le hid
    omega
  | succ n ih =>
    have hbelow : (s.children id).map (s.heightUpTo n) =
        ((s.children id).map s.snapshot).map Snapshot.depth := by
      rw [List.map_map]
      apply List.map_congr_left
      intro c hc
      have hlen := hs.length_lineage_child hc
      exact ih (hs.contains_of_child hc) (by omega)
    rw [heightUpTo, hbelow, hs.depth_snapshot, Snapshot.depthAll_eq_foldr]

theorem height_eq_depth (hs : s.WellFormed) (hid : s.contains id = true) :
    s.height id = (s.snapshot id).depth :=
  hs.heightUpTo_eq hid (by rw [walkLimit]; omega)

/-- The height of a node and those of its children. -/
theorem height_eq (hs : s.WellFormed) (hid : s.contains id = true) :
    s.height id = ((s.children id).map s.height).foldr max 0 + 1 := by
  have hbelow :
      (s.children id).map s.height = ((s.children id).map s.snapshot).map Snapshot.depth := by
    rw [List.map_map]
    apply List.map_congr_left
    intro c hc
    exact hs.height_eq_depth (hs.contains_of_child hc)
  rw [hs.height_eq_depth hid, hs.depth_snapshot, hbelow, Snapshot.depthAll_eq_foldr]

end WellFormed

/-! ## What the walks find -/

/-- In a store that can be reached the walks from a node end. The one that lists nodes lists the
subtree in document order, each node once and exactly the nodes within the node it began with; the
other one finds the number of levels of the subtree, which is that of its copy. -/
theorem walks_follow_recursion (h : s.Reachable) (hid : s.contains id = true) :
    ((∀ ids, s.Lists [id] ids ↔ ids = s.descendants id) ∧
      s.descendants id = s.preorder id ∧
      s.preorder id = id :: (s.children id).flatMap s.preorder ∧
      (s.descendants id).Nodup ∧ (∀ x, x ∈ s.descendants id ↔ s.isWithin x id = true) ∧
      s.subtreeSize id = (s.preorder id).length) ∧
    ((∀ d, s.Deepens 0 [(id, 1)] d ↔ d = s.subtreeDepth id) ∧
      s.subtreeDepth id = s.height id ∧
      s.height id = ((s.children id).map s.height).foldr max 0 + 1 ∧
      s.subtreeDepth id = (s.snapshot id).depth) := by
  have hs := h.wellFormed
  have hdepth := hs.subtreeDepth_eq_depth hid
  refine ⟨⟨hs.lists_iff hid, hs.descendants_eq_preorder id, hs.preorder_of_contains hid,
    hs.nodup_descendants id, hs.mem_descendants_iff hid, ?_⟩, hs.deepens_iff hid, ?_,
    hs.height_eq hid, hdepth⟩
  · rw [subtreeSize, hs.descendants_eq_preorder]
  · rw [hdepth, hs.height_eq_depth hid]

/-- A subtree that is detached, in a store with a slot that was used again and a stale id. -/
theorem walks_follow_recursion_detached :
    let s := new.applyAll [.appendChild root "a", .appendChild root "b", .appendChild ⟨1, 0⟩ "c",
      .remove ⟨2, 0⟩, .insertChild ⟨1, 0⟩ 0 "d", .appendChild ⟨3, 0⟩ "e", .detach ⟨1, 0⟩]
    s.Reachable ∧ s.contains ⟨1, 0⟩ = true ∧ s.parent ⟨1, 0⟩ = none ∧
      s.Lists [⟨1, 0⟩] [⟨1, 0⟩, ⟨2, 1⟩, ⟨3, 0⟩, ⟨4, 0⟩] ∧ s.isWithin ⟨2, 0⟩ ⟨1, 0⟩ = false ∧
      s.Deepens 0 [(⟨1, 0⟩, 1)] 3 := by
  intro s
  have h : s.Reachable := ⟨_, rfl⟩
  have hid : s.contains ⟨1, 0⟩ = true := by decide
  have hlisted : s.descendants ⟨1, 0⟩ = [⟨1, 0⟩, ⟨2, 1⟩, ⟨3, 0⟩, ⟨4, 0⟩] := by decide
  have hdepth : s.subtreeDepth ⟨1, 0⟩ = 3 := by decide
  obtain ⟨⟨hlists, -, -, -, hwithin, -⟩, hdeepens, -⟩ := walks_follow_recursion h hid
  refine ⟨h, hid, by decide, (hlists _).mpr hlisted.symm, ?_, (hdeepens 3).mpr hdepth.symm⟩
  rw [← Bool.not_eq_true, ← hwithin, hlisted]
  decide

end LabelTree.Store
