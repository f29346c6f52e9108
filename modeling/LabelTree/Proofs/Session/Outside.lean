import LabelTree.Proofs.Session.Edits
import LabelTree.Proofs.Snapshot.Copy
import LabelTree.Proofs.Store.Frame
import Mathlib.Data.List.Find

/-!
# Session — the tree outside the meta subtree

The meta subtree is that of the first top-level node with the meta label. What is left of the tree
without it, `outside`, is made of the other top-level nodes (`WellFormed.outside_eq`). It stays as
it is when a change leaves everything alone that is not within the meta node
(`AltersWithin.sameOutside`), and also when the meta node itself comes, goes or is replaced by one
of its own nodes.
-/

namespace LabelTree.Store

variable {s t : Store} {c id m node target : NodeId} {v : Option String} {touched : NodeId → Prop}

/-! ## Top-level nodes -/

/-- The node at the top of the meta subtree. -/
def metaTop? (s : Store) : Option NodeId :=
  s.findChild? root metaLabel

/-- The top-level nodes with the meta label. The first of them is the top of the meta subtree. -/
def metaTops (s : Store) : List NodeId :=
  (s.children root).filter fun c => s.label c = some metaLabel

/-- The top-level nodes outside the meta subtree. -/
def otherTops (s : Store) : List NodeId :=
  (s.children root).filter fun c => s.metaTop? ≠ some c

/-- A copy of the tree from which the meta subtree was removed. -/
def outside (s : Store) : Snapshot :=
  ((s.metaTop?.map fun m => (s.remove m).2).getD s).snapshot root

theorem head?_metaTops (s : Store) : s.metaTops.head? = s.metaTop? :=
  List.head?_filter

theorem metaTop_of_eq_cons {tail : List NodeId} (h : s.metaTops = m :: tail) :
    s.metaTop? = some m := by
  rw [← head?_metaTops, h, List.head?_cons]

theorem exists_metaTops_eq (h : s.metaTop? = some m) : ∃ tail, s.metaTops = m :: tail := by
  rw [← head?_metaTops] at h
  exact List.head?_eq_some_iff.mp h

theorem otherTops_of_none (h : s.metaTop? = none) : s.otherTops = s.children root := by
  simp [otherTops, h]

theorem otherTops_of_some (h : s.metaTop? = some m) :
    s.otherTops = (s.children root).filter (· ≠ m) := by
  simp [otherTops, h, eq_comm]

namespace WellFormed

theorem nodup_metaTops (hs : s.WellFormed) : s.metaTops.Nodup :=
  (hs.nodup_children root).filter _

theorem of_metaTop (hs : s.WellFormed) (h : s.metaTop? = some m) :
    s.parent m = some root ∧ s.label m = some metaLabel :=
  ⟨parent_of_findChild? hs h, by simpa using List.find?_some h⟩

/-- The subtrees of two top-level nodes have nothing in common. -/
theorem isWithin_other_top (hs : s.WellFormed) (hc : s.parent c = some root)
    (hm : s.parent m = some root) (hne : c ≠ m) (h : s.isWithin id c = true) :
    s.isWithin id m = false := by
  rw [← Bool.not_eq_true]
  exact fun hm' => hne (hs.eq_of_isWithin_children hc hm h hm')

theorem isWithin_otherTop (hs : s.WellFormed) (hm : s.metaTop? = some m) (hc : c ∈ s.otherTops)
    (h : s.isWithin id c = true) : s.isWithin id m = false := by
  rw [otherTops_of_some hm, List.mem_filter] at hc
  exact hs.isWithin_other_top ((hs.mem_children root c).mp hc.1) (hs.of_metaTop hm).1
    (by simpa using hc.2) h

theorem contains_otherTop (hs : s.WellFormed) (hc : c ∈ s.otherTops) : s.contains c = true :=
  hs.contains_of_child (List.mem_filter.mp hc).1

/-- No top-level node is a child of a node within a top-level node. -/
theorem parent_top_ne (hs : s.WellFormed) (hm : s.parent m = some root)
    (hc : s.parent c = some root) (h : s.isWithin id c = true) : s.parent m ≠ some id := by
  rw [hm, ne_eq, Option.some.injEq]
  rintro rfl
  rw [hs.not_isWithin_child hc] at h
  cases h

/-- Only nodes within `m` have children there but for `m` itself. -/
theorem parent_ne_of_isWithin (hs : s.WellFormed) (hid : s.isWithin id m = true) (hne : id ≠ m)
    (hc : s.isWithin c m = false) : s.parent id ≠ some c := by
  intro hp
  have hcm := hs.isWithin_iff.mp hid
  simp [hne, hp, hc] at hcm

/-- What is outside the meta subtree are the top-level nodes but its top. -/
theorem outside_eq (hs : s.WellFormed) :
    s.outside = ⟨"", s.value root, s.otherTops.map s.snapshot⟩ := by
  unfold outside
  cases hm : s.metaTop? with
  | none =>
    rw [Option.map_none, Option.getD_none, hs.snapshot_eq, shownLabel, hs.label_root,
      otherTops_of_none hm]
    rfl
  | some m =>
    have hp := (hs.of_metaTop hm).1
    obtain ⟨he, ht⟩ := hs.removes (hs.ne_root_of_parent hp) (Store.contains_of_parent hp)
    have hroot := hs.not_isWithin_child hp
    rw [Option.map_some, Option.getD_some, ht.snapshot_eq, shownLabel, he.label, he.value,
      he.children, hroot, otherTops_of_some hm, if_neg (by simp), if_neg (by simp),
      if_neg (by simp), hs.label_root]
    congr 1
    apply List.map_congr_left
    intro c hc
    rw [← otherTops_of_some hm] at hc
    refine hs.snapshot_congr ht (hs.contains_otherTop hc) fun j _ hjc => ?_
    have hj := hs.isWithin_otherTop hm hc hjc
    have hpc := (hs.mem_children root c).mp (List.mem_filter.mp hc).1
    have hne := hs.parent_top_ne hp hpc hjc
    rw [he.label, he.value, he.children, hj, hs.filter_children_of_ne hne]
    simp

theorem outside_congr (hs : s.WellFormed) (ht : t.WellFormed) (hvalue : t.value root = s.value root)
    (hothers : t.otherTops = s.otherTops)
    (h : ∀ c ∈ s.otherTops, t.snapshot c = s.snapshot c) : t.outside = s.outside := by
  rw [hs.outside_eq, ht.outside_eq, hvalue, hothers, List.map_congr_left h]

end WellFormed

/-! ## Changes within a node -/

/-- A store that is as another one but for what is within a node, which keeps its label. -/
structure AltersWithin (s : Store) (m : NodeId) (t : Store) : Prop where
  label_top : t.label m = s.label m
  label : ∀ j, s.contains j = true → s.isWithin j m = false → t.label j = s.label j
  value : ∀ j, s.contains j = true → s.isWithin j m = false → t.value j = s.value j
  children : ∀ j, s.contains j = true → s.isWithin j m = false → t.children j = s.children j

/-- That the meta subtree has the same top in two stores, and that they are alike outside it. -/
structure SameOutside (s : Store) (m : NodeId) (t : Store) : Prop where
  metaTop : t.metaTop? = some m
  outside : t.outside = s.outside

theorem SameOutside.trans {u : Store} (h : s.SameOutside m t) (h' : t.SameOutside m u) :
    s.SameOutside m u :=
  ⟨h'.metaTop, h'.outside.trans h.outside⟩

theorem AltersWithin.sameOutside (h : s.AltersWithin m t) (hs : s.WellFormed) (ht : t.WellFormed)
    (hm : s.metaTop? = some m) : s.SameOutside m t := by
  obtain ⟨hp, -⟩ := hs.of_metaTop hm
  have hroot := hs.not_isWithin_child hp
  have hchildren := h.children root hs.contains_root hroot
  have hlabel : ∀ c ∈ s.children root, t.label c = s.label c := by
    intro c hc
    by_cases hcm : c = m
    · rw [hcm, h.label_top]
    · exact h.label c (hs.contains_of_child hc)
        (hs.isWithin_other_top ((hs.mem_children root c).mp hc) hp hcm (isWithin_self s c))
  have htop : t.metaTop? = s.metaTop? := by
    rw [← head?_metaTops, ← head?_metaTops, metaTops, metaTops, hchildren]
    congr 1
    apply List.filter_congr
    intro c hc
    rw [hlabel c hc]
  refine ⟨htop.trans hm, hs.outside_congr ht (h.value root hs.contains_root hroot) ?_ ?_⟩
  · rw [otherTops, otherTops, hchildren, htop]
  · intro c hc
    refine hs.snapshot_congr ht (hs.contains_otherTop hc) fun j hj hjc => ?_
    have hjm := hs.isWithin_otherTop hm hc hjc
    exact ⟨h.label j hj hjm, h.value j hj hjm, h.children j hj hjm⟩

theorem Extends.altersWithin (h : s.Extends touched t) (hm : s.contains m = true)
    (htouched : ∀ j, s.contains j = true → touched j → s.isWithin j m = true) :
    s.AltersWithin m t where
  label_top := h.label m hm
  label j hj _ := h.label j hj
  value j hj _ := h.value j hj
  children j hj hjm := by
    refine h.children j hj fun ht => ?_
    rw [htouched j hj ht] at hjm
    cases hjm

theorem SetsValue.altersWithin (h : s.SetsValue id v t) (hid : s.isWithin id m = true) :
    s.AltersWithin m t where
  label_top := h.label m
  label j _ _ := h.label j
  value j _ hjm := by
    have hne : j ≠ id := by
      rintro rfl
      rw [hid] at hjm
      cases hjm
    rw [h.value, if_neg hne]
  children j _ _ := h.shape.children j

/-- A node strictly within another goes. -/
theorem Removes.altersWithin (h : s.Removes id t) (hs : s.WellFormed) (hid : s.isWithin id m = true)
    (hne : id ≠ m) : s.AltersWithin m t := by
  have hout : ∀ {j}, s.isWithin j m = false → s.isWithin j id = false := by
    intro j hj
    rw [← Bool.not_eq_true] at hj ⊢
    exact fun hji => hj (hs.isWithin_trans hji hid)
  constructor
  case label_top =>
    have hm : s.isWithin m id = false := by
      rw [← Bool.not_eq_true]
      exact fun hmi => hne (hs.isWithin_antisymm hid hmi)
    rw [h.label, hm]
    rfl
  case label =>
    intro j _ hj
    rw [h.label, hout hj]
    rfl
  case value =>
    intro j _ hj
    rw [h.value, hout hj]
    rfl
  case children =>
    intro j _ hj
    rw [h.children, hout hj, hs.filter_children_of_ne (hs.parent_ne_of_isWithin hid hne hj)]
    rfl

/-- A node strictly within another takes the place of one that is so too. -/
theorem TakesPlace.altersWithin (h : s.TakesPlace node target t) (hs : s.WellFormed)
    (hnode : s.isWithin node m = true) (hnm : node ≠ m) (htarget : s.isWithin target m = true)
    (htm : target ≠ m) : s.AltersWithin m t := by
  have hout : ∀ {j}, s.isWithin j target = false → s.swept node target j = false := by
    intro j hj
    rw [swept, hj]
    rfl
  have hstay : ∀ {j}, s.isWithin j m = false → s.swept node target j = false := by
    intro j hj
    refine hout ?_
    rw [← Bool.not_eq_true] at hj ⊢
    exact fun hjt => hj (hs.isWithin_trans hjt htarget)
  have hne : ∀ {j}, s.isWithin j m = false → j ≠ node := by
    rintro j hj rfl
    rw [hnode] at hj
    cases hj
  constructor
  case label_top =>
    have hm : s.isWithin m target = false := by
      rw [← Bool.not_eq_true]
      exact fun hmt => htm (hs.isWithin_antisymm htarget hmt)
    rw [h.label, if_neg hnm.symm, hout hm]
    rfl
  case label =>
    intro j _ hj
    rw [h.label, if_neg (hne hj), hstay hj]
    rfl
  case value =>
    intro j _ hj
    rw [h.value, hstay hj]
    rfl
  case children =>
    intro j _ hj
    have hno : target ∉ s.children j := by
      rw [hs.mem_children]
      exact hs.parent_ne_of_isWithin htarget htm hj
    rw [h.children, hstay hj, hs.filter_children_of_ne (hs.parent_ne_of_isWithin hnode hnm hj),
      map_eq_self_of_not_mem hno]
    rfl

end LabelTree.Store
