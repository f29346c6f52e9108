import LabelTree.Proofs.Session.Outside

/-!
# Session — the top of the meta subtree

Which node is at the top of the meta subtree after a change, and how many top-level nodes are
outside it. A change that moves nothing and ends with an old node at the top began with it there
(`Frame.metaTop_of_metaTop`); the others are a new first node with the label, a top that goes, and a
node that takes a place.
-/

namespace LabelTree.Store

variable {s t : Store} {c id m node p target : NodeId} {i k : Nat} {l : String}
  {cs : List NodeId} {valued : NodeId → Prop}

/-! ## Lists of children -/

theorem filter_spliced (h : id ∉ cs) : (spliced cs i id).filter (· ≠ id) = cs := by
  have hkeep : ∀ xs : List NodeId, (∀ x ∈ xs, x ∈ cs) → xs.filter (· ≠ id) = xs := by
    intro xs hxs
    refine List.filter_eq_self.mpr fun x hx => ?_
    have hne : x ≠ id := by
      rintro rfl
      exact h (hxs x hx)
    simpa using hne
  rw [spliced_eq, List.filter_append, List.filter_cons_of_neg (by simp),
    hkeep _ fun _ => List.mem_of_mem_take, hkeep _ fun _ => List.mem_of_mem_drop,
    List.take_append_drop]

/-- Among old nodes the same one is the first with a label. -/
theorem Inserts.find?_label (h : s.Inserts p i l id t) (hcs : ∀ c ∈ cs, s.contains c = true)
    (l' : String) :
    (cs.find? fun c => t.label c = some l') = cs.find? fun c => s.label c = some l' :=
  List.find?_congr fun c hc => by rw [h.label_of_contains (hcs c hc)]

/-- The first of some children that meets a condition is the first among those up to it. -/
theorem find?_of_sublist_pair {a : NodeId} {q : NodeId → Bool} (hnodup : cs.Nodup)
    (hfind : cs.find? q = some m) (h : [a, m].Sublist cs) : q a = false := by
  obtain ⟨-, as, bs, rfl, has⟩ := List.find?_eq_some_iff_append.mp hfind
  obtain ⟨l₁, l₂, heq, h₁, h₂⟩ := List.sublist_append_iff.mp h
  have hnot : m ∉ bs := (List.nodup_cons.mp (List.nodup_append.mp hnodup).2.1).1
  cases l₁ with
  | nil =>
    -- both would come after the first one that meets it
    rw [List.nil_append] at heq
    rw [← heq] at h₂
    cases h₂ with
    | cons _ h₂ => exact absurd (h₂.subset (by simp)) hnot
    | cons_cons _ h₂ => exact absurd (h₂.subset List.mem_cons_self) hnot
  | cons x l₁ =>
    obtain ⟨rfl, -⟩ := List.cons.inj heq
    simpa using has a (h₁.subset List.mem_cons_self)

/-! ## The top of the meta subtree -/

/-- Where nothing moves, a node that is there before and after is the top before if it is after. -/
theorem Frame.metaTop_of_metaTop (h : s.Frame (fun _ => False) valued t) (hs : s.WellFormed)
    (ht : t.WellFormed) (hkept : ∀ j, s.contains j = true → t.contains j = true)
    (hm : t.metaTop? = some m) (hold : s.contains m = true) : s.metaTop? = some m := by
  obtain ⟨hp, hl⟩ := ht.of_metaTop hm
  rw [h.parent m hold (hkept m hold) id] at hp
  rw [h.label m hold (hkept m hold) id] at hl
  have hmem := (hs.mem_children root m).mpr hp
  cases hfind : s.metaTop? with
  | none =>
    have hno := List.find?_eq_none.mp hfind m hmem
    simp [hl] at hno
  | some first =>
    obtain ⟨hfirst, as, bs, hsplit, has⟩ := List.find?_eq_some_iff_append.mp hfind
    by_cases heq : first = m
    · rw [heq]
    · -- the first one would still come before the other one
      have hmbs : m ∈ bs := by
        rw [hsplit, List.mem_append, List.mem_cons] at hmem
        rcases hmem with hmas | rfl | hmbs
        · have hno := has m hmas
          simp [hl] at hno
        · exact absurd rfl heq
        · exact hmbs
      have hpair : [first, m].Sublist (s.children root) := by
        rw [hsplit]
        exact ((List.singleton_sublist.mpr hmbs).cons_cons first).trans
          (List.sublist_append_right _ _)
      have hc : s.contains first = true := hs.contains_of_child (hpair.subset List.mem_cons_self)
      have horder := h.order root first m hc hold (hkept first hc) (hkept m hold) id id hpair
      have hno := find?_of_sublist_pair (ht.nodup_children root) hm horder
      rw [h.label first hc (hkept first hc) id] at hno
      simp only [decide_eq_true_eq] at hfirst
      simp [hfirst] at hno

theorem metaTop_of_take
    (h : (((s.children root).take i).find? fun c => s.label c = some metaLabel) = some m) :
    s.metaTop? = some m := by
  rw [metaTop?, findChild?, ← List.take_append_drop i (s.children root), List.find?_append, h,
    Option.some_or]

/-- Among the nodes up to the top it is the first with the label. -/
theorem WellFormed.find?_take_top (hs : s.WellFormed) (hm : s.metaTop? = some m)
    (hk : s.indexInParent m = some k) (hlt : k < i) :
    (((s.children root).take i).find? fun c => s.label c = some metaLabel) = some m := by
  obtain ⟨hp, hlabel⟩ := hs.of_metaTop hm
  obtain ⟨q, hq, hget⟩ := indexInParent_eq_some hk
  cases hp.symm.trans hq
  have hmem : m ∈ (s.children root).take i :=
    List.mem_of_getElem? ((List.getElem?_take_of_lt hlt).trans hget)
  cases hfind : ((s.children root).take i).find? fun c => s.label c = some metaLabel with
  | none =>
    have hno := List.find?_eq_none.mp hfind m hmem
    simp [hlabel] at hno
  | some found => rw [← hm, metaTop_of_take hfind]

/-- A new top-level node is the top if it has the label and comes first. -/
theorem Inserts.metaTop? (h : s.Inserts root i l id t) (hs : s.WellFormed) :
    t.metaTop? = (((s.children root).take i).find? fun c => s.label c = some metaLabel).or
      (if l = metaLabel then some id
        else ((s.children root).drop i).find? fun c => s.label c = some metaLabel) := by
  have hbefore : ∀ c ∈ (s.children root).take i, s.contains c = true :=
    fun c hc => hs.contains_of_child (List.mem_of_mem_take hc)
  have hafter : ∀ c ∈ (s.children root).drop i, s.contains c = true :=
    fun c hc => hs.contains_of_child (List.mem_of_mem_drop hc)
  rw [Store.metaTop?, findChild?, h.children_parent, spliced_eq, List.find?_append, List.find?_cons,
    h.label, if_pos rfl, h.find?_label hbefore, h.find?_label hafter]
  by_cases hl : l = metaLabel <;> simp [hl]

namespace WellFormed

theorem isWithin_root_eq_false (hs : s.WellFormed) (hid : id ≠ root) :
    s.isWithin root id = false := by
  rw [← Bool.not_eq_true, hs.isWithin_iff]
  simp [hs.parent_root, hid.symm]

/-- A top-level node is within itself and the root alone. -/
theorem isWithin_top_eq_false (hs : s.WellFormed) (hc : c ∈ s.children root) (hne : c ≠ id)
    (hid : id ≠ root) : s.isWithin c id = false := by
  rw [← Bool.not_eq_true, hs.isWithin_iff, (hs.mem_children root c).mp hc]
  simp [hne, hs.isWithin_root_eq_false hid]

/-- The top is followed by the other nodes with its label. -/
theorem filter_metaTops_of_eq_cons (hs : s.WellFormed) {tail : List NodeId}
    (h : s.metaTops = m :: tail) :
    s.metaTops.filter (· ≠ m) = tail := by
  obtain ⟨hm, -⟩ := List.nodup_cons.mp (h ▸ hs.nodup_metaTops)
  rw [h, List.filter_cons_of_neg (by simp), List.filter_eq_self]
  intro c hc
  have hne : c ≠ m := fun heq => hm (heq ▸ hc)
  simpa using hne

/-- A node strictly within the top is no top-level node. -/
theorem filter_metaTops_of_isWithin (hs : s.WellFormed) (hm : s.metaTop? = some m)
    (hnode : s.isWithin node m = true) (hne : node ≠ m) :
    s.metaTops.filter (· ≠ node) = s.metaTops := by
  refine List.filter_eq_self.mpr fun c hc => ?_
  have hcn : c ≠ node := by
    rintro rfl
    rw [hs.isWithin_top_eq_false (List.mem_filter.mp hc).1 hne
      (hs.ne_root_of_parent (hs.of_metaTop hm).1)] at hnode
    cases hnode
  simpa using hcn

end WellFormed

/-! ## Another top of the meta subtree -/

theorem outside_remove_top (hm : s.metaTop? = some m) (ht : (s.remove m).2.metaTop? = none) :
    (s.remove m).2.outside = s.outside := by
  rw [outside, outside, hm, ht]
  rfl

/-- A new top-level node is the first with the meta label. -/
theorem Extends.outside_eq_of_new_top (h : s.Extends (· = root) t) (hs : s.WellFormed)
    (hnone : s.metaTop? = none) (hothers : t.otherTops = s.children root) :
    t.outside = s.outside := by
  rw [← otherTops_of_none hnone] at hothers
  refine hs.outside_congr h.wellFormed (h.value root hs.contains_root) hothers fun c hc => ?_
  refine h.snapshot_eq hs (hs.contains_otherTop hc) ?_
  rintro j - rfl
  exact hs.not_isWithin_child ((hs.mem_children root c).mp (List.mem_filter.mp hc).1)

/-- The top-level nodes but those that went. -/
theorem Removes.metaTops (h : s.Removes id t) (hs : s.WellFormed) (hid : id ≠ root) :
    t.metaTops = s.metaTops.filter (· ≠ id) := by
  rw [Store.metaTops, Store.metaTops, h.children, hs.isWithin_root_eq_false hid, if_neg (by simp),
    List.filter_filter, List.filter_filter]
  apply List.filter_congr
  intro c hc
  by_cases hci : c = id
  · simp [hci]
  · simp [h.label, hs.isWithin_top_eq_false hc hci hid, hci]

theorem TakesPlace.swept_root (hs : s.WellFormed) (ht : target ≠ root) :
    s.swept node target root = false := by
  rw [swept, hs.isWithin_root_eq_false ht]
  rfl

/-- The top goes. -/
theorem WellFormed.metaTops_remove_top (hs : s.WellFormed) {tail : List NodeId}
    (h : s.metaTops = m :: tail) : (s.remove m).2.metaTops = tail := by
  obtain ⟨hp, -⟩ := hs.of_metaTop (metaTop_of_eq_cons h)
  have hmroot := hs.ne_root_of_parent hp
  obtain ⟨he, -⟩ := hs.removes hmroot (Store.contains_of_parent hp)
  rw [he.metaTops hs hmroot, hs.filter_metaTops_of_eq_cons h]

/-- The one node with the meta label goes. -/
theorem WellFormed.outside_remove_only (hs : s.WellFormed) (h : s.metaTops = [m]) :
    (s.remove m).2.outside = s.outside := by
  refine outside_remove_top (metaTop_of_eq_cons h) ?_
  rw [← head?_metaTops, hs.metaTops_remove_top h, List.head?_nil]

/-- The top after a node has taken a place, which is its own if that was the place. -/
theorem TakesPlace.metaTop? (h : s.TakesPlace node target t) (hs : s.WellFormed)
    (ht : target ≠ root) :
    t.metaTop? =
      (s.metaTops.filter (· ≠ node)).head?.map fun c => if c = target then node else c := by
  have hlabel : ∀ c ∈ (s.children root).filter (· ≠ node),
      t.label (if c = target then node else c) = s.label c := by
    intro c hc
    obtain ⟨hmem, hne⟩ := List.mem_filter.mp hc
    have hne : c ≠ node := by simpa using hne
    split
    · rename_i hct
      rw [h.label, if_pos rfl, hct]
    · rename_i hct
      rw [h.label, if_neg hne, swept, hs.isWithin_top_eq_false hmem hct ht]
      rfl
  rw [Store.metaTop?, findChild?, h.children, TakesPlace.swept_root hs ht, if_neg (by simp),
    List.find?_map, metaTops, List.filter_filter, List.head?_filter]
  congr 1
  rw [List.find?_filter]
  refine List.find?_congr fun c hc => ?_
  by_cases hcn : c = node
  · simp [hcn]
  · have := hlabel c (List.mem_filter.mpr ⟨hc, by simpa using hcn⟩)
    simp [hcn, this]

/-- A node of the meta subtree takes the place of its top. -/
theorem TakesPlace.outside_eq_of_top (h : s.TakesPlace node m t) (hs : s.WellFormed)
    (ht : t.WellFormed) (hm : s.metaTop? = some m) (hnode : s.isWithin node m = true)
    (hne : node ≠ m) : t.outside = s.outside := by
  obtain ⟨hp, -⟩ := hs.of_metaTop hm
  have hmroot := hs.ne_root_of_parent hp
  have hnoderoot : ∀ c ∈ s.children root, c ≠ node := by
    rintro c hc rfl
    rw [hs.isWithin_top_eq_false hc hne hmroot] at hnode
    cases hnode
  have hstay : ∀ {j}, s.isWithin j m = false → s.swept node m j = false := by
    intro j hj
    rw [swept, hj]
    rfl
  have htop : t.metaTop? = some node := by
    rw [h.metaTop? hs hmroot, hs.filter_metaTops_of_isWithin hm hnode hne, head?_metaTops, hm,
      Option.map_some, if_pos rfl]
  refine hs.outside_congr ht ?_ ?_ fun c hc => hs.snapshot_congr ht (hs.contains_otherTop hc) ?_
  · rw [h.value, TakesPlace.swept_root hs hmroot]
    rfl
  · rw [otherTops_of_some htop, otherTops_of_some hm, h.children, TakesPlace.swept_root hs hmroot,
      if_neg (by simp), hs.filter_children_of_ne ?_, List.filter_map]
    · have hsame : ((s.children root).filter fun c => decide ((if c = m then node else c) ≠ node)) =
          (s.children root).filter (· ≠ m) := by
        apply List.filter_congr
        intro c hc
        by_cases hcm : c = m
        · simp [hcm]
        · simp [hcm, hnoderoot c hc]
      refine (congrArg (List.map _) hsame).trans ?_
      exact map_eq_self_of_not_mem (by simp)
    · intro hpn
      exact hnoderoot node ((hs.mem_children root node).mpr hpn) rfl
  · intro j _ hjc
    have hj := hs.isWithin_otherTop hm hc hjc
    have hjn : j ≠ node := by
      rintro rfl
      rw [hnode] at hj
      cases hj
    have hno : m ∉ s.children j := by
      rw [hs.mem_children]
      exact hs.parent_top_ne hp ((hs.mem_children root c).mp (List.mem_filter.mp hc).1) hjc
    rw [h.label, h.value, h.children, if_neg hjn, hstay hj,
      hs.filter_children_of_ne (hs.parent_ne_of_isWithin hnode hne hj), map_eq_self_of_not_mem hno]
    simp

/-! ## How many nodes are outside -/

theorem WellFormed.length_filter_children (hs : s.WellFormed) (hp : s.parent c = some p) :
    ((s.children p).filter (· ≠ c)).length + 1 = (s.children p).length := by
  obtain ⟨i, hi⟩ := List.mem_iff_getElem?.mp ((hs.mem_children p c).mpr hp)
  have hlt := (List.getElem?_eq_some_iff.mp hi).1
  rw [← eraseIdx_eq_filter (hs.nodup_children p) hi, List.length_eraseIdx_of_lt hlt]
  omega

theorem WellFormed.length_otherTops (hs : s.WellFormed) :
    s.otherTops.length + s.metaTop?.toList.length = (s.children root).length := by
  cases hm : s.metaTop? with
  | none => rw [otherTops_of_none hm]; rfl
  | some m =>
    rw [otherTops_of_some hm]
    exact hs.length_filter_children (hs.of_metaTop hm).1

theorem WellFormed.outside_ne_of_length (hs : s.WellFormed) (ht : t.WellFormed)
    (h : t.otherTops.length ≠ s.otherTops.length) : t.outside ≠ s.outside := by
  intro heq
  rw [hs.outside_eq, ht.outside_eq, Snapshot.mk.injEq] at heq
  exact h (by simpa using congrArg List.length heq.2.2)

end LabelTree.Store
