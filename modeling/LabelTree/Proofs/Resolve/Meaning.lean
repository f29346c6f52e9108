import LabelTree.Proofs.Resolve.Level
import LabelTree.Proofs.Store.Runs

/-!
# Resolve — what a path leads to

Step by step, the nodes met are those at which a chain of candidates can stand, and they are part of
one level of the tree of the node at which the path starts. So a path leads to the ends of its
chains, each once and in document order (`resolve_meaning`).
-/

namespace LabelTree.Store

variable {s : Store} {id p : NodeId}

/-! ## The tree of a node -/

theorem top_of_no_parent (h : s.parent id = none) : s.top id = id := by
  simp [top, lineage_of_top h]

namespace WellFormed

theorem top_of_parent (hs : s.WellFormed) (h : s.parent id = some p) : s.top id = s.top p := by
  rw [top, top, hs.lineage_of_parent h, hs.lineage_eq p]
  simp [List.getLast?_cons]

theorem parent_top (hs : s.WellFormed) (id : NodeId) : s.parent (s.top id) = none := by
  induction id using hs.upward with
  | step id ih =>
    cases hp : s.parent id with
    | none => rw [top_of_no_parent hp, hp]
    | some p =>
      rw [hs.top_of_parent hp]
      exact ih p hp

theorem contains_top (hs : s.WellFormed) (hid : s.contains id = true) :
    s.contains (s.top id) = true := by
  induction id using hs.upward with
  | step id ih =>
    cases hp : s.parent id with
    | none =>
      rw [top_of_no_parent hp]
      exact hid
    | some p =>
      rw [hs.top_of_parent hp]
      exact ih p hp (hs.contains_of_parent hp)

theorem exists_mem_level_top (hs : s.WellFormed) (id : NodeId) :
    ∃ k, id ∈ s.level k (s.top id) := by
  induction id using hs.upward with
  | step id ih =>
    cases hp : s.parent id with
    | none =>
      refine ⟨0, ?_⟩
      rw [top_of_no_parent hp]
      exact List.mem_singleton_self id
    | some p =>
      obtain ⟨k, hk⟩ := ih p hp
      refine ⟨k + 1, ?_⟩
      rw [hs.top_of_parent hp, ← flatMap_children_level]
      exact List.mem_flatMap.mpr ⟨p, hk, (hs.mem_children p id).mpr hp⟩

end WellFormed

/-! ## A run of steps -/

theorem mem_advance {nodes : List NodeId} {step : Step} :
    id ∈ s.advance nodes step ↔ ∃ a ∈ nodes, id ∈ s.candidates step a := by
  unfold advance
  dsimp only
  split
  · rw [List.mem_eraseDups, List.mem_flatMap]
  · rw [List.mem_flatMap]

namespace WellFormed

theorem mem_foldl_advance (hs : s.WellFormed) (steps : List Step) (nodes : List NodeId) :
    id ∈ steps.foldl s.advance nodes ↔ ∃ a ∈ nodes, s.LeadsTo steps a id := by
  induction steps generalizing nodes with
  | nil => simp [leadsTo_nil_iff]
  | cons step steps ih =>
    rw [List.foldl_cons, ih]
    simp only [mem_advance, hs.leadsTo_cons_iff]
    constructor
    · rintro ⟨b, ⟨a, ha, hb⟩, hrest⟩
      exact ⟨a, ha, b, hb, hrest⟩
    · rintro ⟨a, ha, b, hb, hrest⟩
      exact ⟨b, ⟨a, ha, hb⟩, hrest⟩

theorem foldl_advance_sublist_level (hs : s.WellFormed) {t : NodeId}
    (ht : s.contains t = true) (htop : s.parent t = none) (steps : List Step)
    {nodes : List NodeId} {k : Nat} (h : nodes.Sublist (s.level k t)) :
    ∃ k', (steps.foldl s.advance nodes).Sublist (s.level k' t) := by
  induction steps generalizing nodes k with
  | nil => exact ⟨k, h⟩
  | cons step steps ih =>
    obtain ⟨k', hk'⟩ := hs.advance_sublist_level ht htop step h
    exact ih hk'

theorem contains_start (hs : s.WellFormed) (path : Path) {context : NodeId}
    (hc : s.contains context = true) : s.contains (start path context) = true := by
  rw [start]
  split
  · exact hs.contains_root
  · exact hc

theorem resolve_sublist_level (hs : s.WellFormed) (path : Path) {context : NodeId}
    (hc : s.contains context = true) :
    ∃ k, (s.resolve path context).Sublist (s.level k (s.top (start path context))) := by
  obtain ⟨k, hk⟩ := hs.exists_mem_level_top (start path context)
  exact hs.foldl_advance_sublist_level (hs.contains_top (hs.contains_start path hc))
    (hs.parent_top _) path.steps (List.singleton_sublist.mpr hk)

theorem mem_resolve_iff (hs : s.WellFormed) (path : Path) (context : NodeId) :
    id ∈ s.resolve path context ↔ s.LeadsTo path.steps (start path context) id := by
  rw [resolve, hs.mem_foldl_advance]
  simp

/-- The nodes that a path leads to have no node in their subtrees in common. -/
theorem apart_resolve (hs : s.WellFormed) (path : Path) {context : NodeId}
    (hc : s.contains context = true) :
    (s.resolve path context).Nodup ∧ ∀ a ∈ s.resolve path context, ∀ b ∈ s.resolve path context,
      a ≠ b → s.isWithin a b = false := by
  obtain ⟨k, hk⟩ := hs.resolve_sublist_level path hc
  refine ⟨hk.nodup (hs.nodup_level (hs.contains_top (hs.contains_start path hc))),
    fun a ha b hb hne => ?_⟩
  rw [← Bool.not_eq_true]
  exact fun hab => hne (hs.eq_of_isWithin_of_mem_level (hk.subset ha) (hk.subset hb) hab)

end WellFormed

/-- A path leads to the nodes at the ends of its chains of candidates, each of them once and in
document order, and none of them lies below another. -/
theorem resolve_meaning (hs : s.WellFormed) (path : Path) {context : NodeId}
    (hc : s.contains context = true) :
    (∀ id, id ∈ s.resolve path context ↔ s.LeadsTo path.steps (start path context) id) ∧
      (s.resolve path context).Nodup ∧
      (s.resolve path context).Sublist (s.documentOrder (start path context)) ∧
      ∀ a ∈ s.resolve path context, ∀ b ∈ s.resolve path context, a ≠ b →
        s.isWithin a b = false := by
  have ht := hs.contains_top (hs.contains_start path hc)
  obtain ⟨k, hk⟩ := hs.resolve_sublist_level path hc
  refine ⟨fun id => hs.mem_resolve_iff path context, hk.nodup (hs.nodup_level ht),
    hk.trans (hs.level_sublist_preorder ht), fun a ha b hb hne => ?_⟩
  rw [← Bool.not_eq_true]
  intro hab
  exact hne (hs.eq_of_isWithin_of_mem_level (hk.subset ha) (hk.subset hb) hab)

/-- Two children lead back to one parent, which is listed once. -/
theorem resolve_meaning_siblings :
    let s := new.applyAll [.appendChild root "a", .appendChild root "a", .appendChild root "b"]
    let path : Path := ⟨"/a/..", true, [.select (.child (.exact "a")) [], .select .parent []]⟩
    s.WellFormed ∧ s.contains root = true ∧ s.resolve path root = [root] ∧
      s.LeadsTo path.steps root root ∧ (s.resolve path root).Sublist (s.documentOrder root) := by
  intro s path
  have hs : s.WellFormed := Reachable.wellFormed ⟨_, rfl⟩
  have hc : s.contains root = true := by decide
  have hr : s.resolve path root = [root] := by decide
  obtain ⟨hmem, -, horder, -⟩ := resolve_meaning hs path hc
  exact ⟨hs, hc, hr, (hmem root).mp (by rw [hr]; simp), horder⟩

end LabelTree.Store
