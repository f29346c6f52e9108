import LabelTree.Proofs.Session.Marks

/-!
# Session — changes outside that leave no mark

The edits at the top of the meta subtree that change the tree outside it and are not marked. What
shows the change is the number of top-level nodes outside.
-/

namespace LabelTree

open Store (root)

namespace Store

variable {s t : Store} {id m next p prev target : NodeId} {i j k : Nat} {l : String}
  {first : Option String} {rest : List (Option String)} {more : List NodeId}

/-! ## Siblings of the top -/

/-- A new node has the index that it was made at. -/
theorem Inserts.indexInParent (h : s.Inserts p i l id t) (hs : s.WellFormed)
    (hle : i ≤ (s.children p).length) : t.indexInParent id = some i := by
  have hno : ((s.children p).take i).findIdx? (fun c => decide (c = id)) = none := by
    rw [List.findIdx?_eq_none_iff]
    intro c hc
    simpa using h.ne (hs.contains_of_child (List.mem_of_mem_take hc))
  rw [Store.indexInParent, h.parent, if_pos rfl, Option.bind_some, h.children_parent, spliced_eq,
    List.findIdx?_append, hno]
  simp [List.findIdx?_cons, Nat.min_eq_left hle]

/-- The first node with the meta label stays it when one more is made after it. -/
theorem Inserts.find?_take_succ (h : s.Inserts root i l id t) (hs : s.WellFormed)
    (hm : (((s.children root).take i).find? fun c => s.label c = some metaLabel) = some m) :
    (((t.children root).take (i + 1)).find? fun c => t.label c = some metaLabel) = some m := by
  have hold : ∀ c ∈ (s.children root).take i, s.contains c = true :=
    fun c hc => hs.contains_of_child (List.mem_of_mem_take hc)
  have hshort : ((s.children root).take i).length ≤ i + 1 :=
    Nat.le_succ_of_le (List.length_take_le _ _)
  rw [h.children_parent, spliced_eq, List.take_append, List.take_of_length_le hshort,
    List.find?_append, h.find?_label hold, hm, Option.some_or]

/-- Siblings made after the top are top-level nodes after it. -/
theorem WellFormed.withSiblings_top (hs : s.WellFormed)
    (hm : (((s.children root).take (j + 1)).find? fun c => s.label c = some metaLabel) = some m)
    (hp : s.parent prev = some root) (hprev : s.indexInParent prev = some j)
    (values : List (Option String)) :
    (s.withSiblings root metaLabel prev values).metaTop? = some m ∧
      ((s.withSiblings root metaLabel prev values).children root).length =
        (s.children root).length + values.length := by
  induction values generalizing s prev j with
  | nil => exact ⟨metaTop_of_take hm, rfl⟩
  | cons value rest ih =>
    obtain ⟨id, t, hi⟩ := insertChild_isSome (j + 1) metaLabel hs.contains_root
    have hins := hs.freeExact.inserts hi
    have ht := hs.insertChild hi
    obtain ⟨u, hu⟩ : ∃ u, t.setValue id value = some u := by
      simp [Store.setValue, (hins.contains id).mpr (.inl rfl)]
    have hset := setsValue hu
    obtain ⟨q, hq, hget⟩ := indexInParent_eq_some hprev
    cases hp.symm.trans hq
    have hlt := (List.getElem?_eq_some_iff.mp hget).1
    have htake :
        (((u.children root).take (j + 2)).find? fun c => u.label c = some metaLabel) = some m := by
      simp only [hset.shape.children, hset.label]
      exact hins.find?_take_succ hs hm
    have hparent : u.parent id = some root := by
      rw [hset.shape.parent, hins.parent, if_pos rfl]
    have hindex : u.indexInParent id = some (j + 1) := by
      simp only [indexInParent, hset.shape.parent, hset.shape.children]
      exact hins.indexInParent hs hlt
    obtain ⟨htop, hlength⟩ := ih (ht.setValue hu) htake hparent hindex
    have hstep : s.withSiblings root metaLabel prev (value :: rest) =
        u.withSiblings root metaLabel id rest := by
      rw [withSiblings, hprev, Option.map_some, Option.getD_some, hi]
      simp only [hu, Option.getD_some]
    rw [hstep]
    refine ⟨htop, ?_⟩
    rw [hlength, hset.shape.children, hins.children_parent, (perm_spliced _ _ id).length_eq,
      List.length_cons, List.length_cons]
    omega

/-- Giving several values to the top leaves it there and makes a top-level node for all but the
first. -/
theorem WellFormed.withValues_top (hs : s.WellFormed) (hm : s.metaTop? = some m) :
    (s.withValues m first rest).metaTop? = some m ∧
      (s.withValues m first rest).otherTops.length = s.otherTops.length + rest.length := by
  obtain ⟨hp, hl⟩ := hs.of_metaTop hm
  obtain ⟨t, ht⟩ : ∃ t, s.setValue m first = some t := by
    simp [Store.setValue, Store.contains_of_parent hp]
  have hset := setsValue ht
  have hwt := hs.setValue ht
  obtain ⟨hmt, -⟩ := (hset.altersWithin (isWithin_self s m)).sameOutside hs hwt hm
  have hpt : t.parent m = some root := (hset.shape.parent m).trans hp
  have hlt : t.label m = some metaLabel := (hset.label m).trans hl
  obtain ⟨k, hk⟩ := hwt.indexInParent_isSome hpt
  have hw : s.withValues m first rest = t.withSiblings root metaLabel m rest := by
    rw [Store.withValues, ht]
    simp only [Option.getD_some, hpt, hlt]
  obtain ⟨htop, hlength⟩ :=
    hwt.withSiblings_top (hwt.find?_take_top hmt hk (Nat.lt_succ_self k)) hpt hk rest
  rw [← hw] at htop hlength
  have hall := (hs.withValues m first rest).length_otherTops
  have hbefore := hs.length_otherTops
  rw [htop, hlength, hset.shape.children] at hall
  rw [hm] at hbefore
  refine ⟨htop, ?_⟩
  simp only [Option.toList_some, List.length_singleton] at hall hbefore
  omega

/-! ## Another top -/

/-- A new top-level node is outside unless it is the top, and then an old top is. -/
theorem WellFormed.length_otherTops_insertChild (hs : s.WellFormed)
    (h : s.insertChild root i l = some (id, t)) :
    t.otherTops.length + t.metaTop?.toList.length =
      s.otherTops.length + s.metaTop?.toList.length + 1 := by
  have hins := hs.freeExact.inserts h
  rw [(hs.insertChild h).length_otherTops, hs.length_otherTops, hins.children_parent]
  exact (perm_spliced _ i id).length_eq

/-- The first node with the meta label is the top. -/
theorem WellFormed.metaTop_appendAfterLabel_of_none (hs : s.WellFormed)
    (h : s.appendAfterLabel root metaLabel = some (id, t)) (hm : s.metaTop? = none) :
    t.metaTop? = some id := by
  have hfirst : s.findChild? root metaLabel = none := hm
  rw [(hs.freeExact.inserts h).metaTop? hs, find?_take_indexAfterLabel, hfirst, Option.none_or,
    if_pos rfl]

/-- A node with the meta label that is inserted before the top is the top. -/
theorem WellFormed.metaTop_insertChild (hs : s.WellFormed)
    (h : s.insertChild root i metaLabel = some (id, t)) (hm : s.metaTop? = some m)
    (hk : s.indexInParent m = some k) (hle : i ≤ k) : t.metaTop? = some id := by
  rw [(hs.freeExact.inserts h).metaTop? hs, if_pos rfl]
  cases hfind : ((s.children root).take i).find? fun c => s.label c = some metaLabel with
  | none => rfl
  | some found =>
    -- the top would be among the nodes before it
    have heq : found = m := Option.some.inj ((metaTop_of_take hfind).symm.trans hm)
    subst heq
    obtain ⟨j, hj⟩ := List.mem_iff_getElem?.mp (List.mem_of_find?_eq_some hfind)
    obtain ⟨q, hq, hget⟩ := indexInParent_eq_some hk
    cases (hs.of_metaTop hm).1.symm.trans hq
    rw [List.getElem?_take] at hj
    split at hj
    · rename_i hji
      have hlt := (List.getElem?_eq_some_iff.mp hj).1
      have hjk : j = k := (List.getElem?_inj hlt (hs.nodup_children root)).mp (hj.trans hget.symm)
      omega
    · cases hj

/-- A top-level node goes. -/
theorem Removes.length_children_root (h : s.Removes id t) (hs : s.WellFormed)
    (hp : s.parent id = some root) :
    (t.children root).length + 1 = (s.children root).length := by
  rw [h.children, hs.isWithin_root_eq_false (hs.ne_root_of_parent hp), if_neg (by simp)]
  exact hs.length_filter_children hp

/-- The top goes into the subtree of the next node with the label, which is the meta subtree
then. -/
theorem TakesPlace.outside_of_next (h : s.TakesPlace m target t) (hs : s.WellFormed)
    (ht : t.WellFormed) (hp : s.parent target = some p) (hout : s.isWithin target m = false)
    (htops : s.metaTops = m :: next :: more) (hnext : s.isWithin target next = true) :
    (∃ top, t.metaTop? = some top ∧ t.isWithin m top = true) ∧
      t.otherTops.length + 1 = s.otherTops.length := by
  have htroot := hs.ne_root_of_parent hp
  have hm := metaTop_of_eq_cons htops
  have htop := h.metaTop? hs htroot
  rw [hs.filter_metaTops_of_eq_cons htops, List.head?_cons, Option.map_some] at htop
  refine ⟨⟨_, htop, ?_⟩, ?_⟩
  · split
    · exact isWithin_self t m
    · rename_i hne
      have hnm : next ≠ m := by
        rintro rfl
        exact (List.nodup_cons.mp (htops ▸ hs.nodup_metaTops)).1 List.mem_cons_self
      rw [h.isWithin_node hs ht hp hout hnm]
      obtain ⟨q, hq, hqn⟩ := (hs.isWithin_iff.mp hnext).resolve_left (Ne.symm hne)
      cases hp.symm.trans hq
      exact hqn
  · have hafter := ht.length_otherTops
    have hbefore := hs.length_otherTops
    have hone := hs.length_filter_children (hs.of_metaTop hm).1
    have hlength : (t.children root).length = ((s.children root).filter (· ≠ m)).length := by
      rw [h.children, TakesPlace.swept_root hs htroot, if_neg (by simp), List.length_map]
    rw [htop, hlength] at hafter
    rw [hm] at hbefore
    simp only [Option.toList_some, List.length_singleton] at hafter hbefore
    omega

end Store

/-! ## Sessions -/

namespace Session

variable {s u : Session} {path : Path} {id : NodeId} {ids more : List NodeId} {i : Nat}

theorem touch_of_inMeta (h : s.inMeta id = true) : s.touch id = s :=
  if_pos h

/-- The top is made where there was none. -/
theorem Reaches.newTop (h : s.Reaches path (.missing root i) id u)
    (hs : s.store.WellFormed) (hlabels : (path.steps.drop i).map Step.newLabel? = [some metaLabel])
    (hm : s.store.metaTop? = none) :
    u.store.metaTop? = some id ∧ u.pending = s.pending ∧
      u.store.otherTops.length = s.store.otherTops.length := by
  cases h with
  | @made _ _ _ labels store hmade hchain =>
    rw [hlabels] at hmade
    obtain ⟨l, rest, rfl, hl, hrest⟩ := List.map_eq_cons_iff.mp hmade.symm
    cases hl
    cases List.map_eq_nil_iff.mp hrest
    cases hchain with
    | cons happend hnil =>
      cases hnil
      have htop := hs.metaTop_appendAfterLabel_of_none happend hm
      have hlength := hs.length_otherTops_insertChild happend
      have hin : ({ s with store } : Session).inMeta id = true :=
        inMeta_iff.mpr ⟨id, htop, Store.isWithin_self store id⟩
      rw [touch_of_inMeta hin]
      rw [htop, hm] at hlength
      exact ⟨htop, rfl, by simpa using hlength⟩

/-- The first nodes with the meta label go one after another, each of them the top. -/
theorem foldl_without_tops (hs : s.store.WellFormed) (htops : s.store.metaTops = ids ++ more) :
    (ids.foldl without s).pending = s.pending ∧ (ids.foldl without s).store.WellFormed ∧
      (ids.foldl without s).store.metaTops = more ∧
      ((ids.foldl without s).store.children root).length + ids.length =
        (s.store.children root).length := by
  induction ids generalizing s with
  | nil => exact ⟨rfl, hs, htops, rfl⟩
  | cons id rest ih =>
    have hm := Store.metaTop_of_eq_cons htops
    have hp := (hs.of_metaTop hm).1
    have hid := hs.ne_root_of_parent hp
    obtain ⟨he, ht⟩ := hs.removes hid (Store.contains_of_parent hp)
    have hin : s.inMeta id = true := inMeta_iff.mpr ⟨id, hm, Store.isWithin_self s.store id⟩
    have hmore := hs.metaTops_remove_top htops
    obtain ⟨hpending, hend, hends, hlength⟩ := ih (s := s.without id) ht hmore
    refine ⟨hpending.trans ?_, hend, hends, ?_⟩
    · rw [without, touch_of_inMeta hin]
    · have hstep := he.length_children_root hs hp
      have hlength' :
          ((rest.foldl without (s.without id)).store.children root).length + rest.length =
            ((s.store.remove id).2.children root).length :=
        hlength
      rw [List.foldl_cons, List.length_cons]
      omega

/-- There are fewer nodes outside then, unless the one node with the label was the only one that
went. -/
theorem removed_tops (hs : s.store.WellFormed) (hsome : ids ≠ [])
    (htops : s.store.metaTops = ids ++ more) (htwo : 2 ≤ s.store.metaTops.length) :
    (ids.foldl without s).pending = s.pending ∧ (ids.foldl without s).store.WellFormed ∧
      (ids.foldl without s).store.otherTops.length ≠ s.store.otherTops.length := by
  obtain ⟨hpending, ht, hends, hlength⟩ := foldl_without_tops hs htops
  refine ⟨hpending, ht, fun heq => ?_⟩
  have hafter := ht.length_otherTops
  have hbefore := hs.length_otherTops
  have hone := List.length_pos_of_ne_nil hsome
  have hfirst : s.store.metaTop?.toList.length = 1 := by
    obtain ⟨first, rest, rfl⟩ := List.exists_cons_of_ne_nil hsome
    rw [Store.metaTop_of_eq_cons htops]
    rfl
  rw [htops, List.length_append] at htwo
  rw [← Store.head?_metaTops, hends] at hafter
  -- more than one of them goes, or another one is the top after them
  cases more with
  | nil =>
    simp only [List.head?_nil, Option.toList_none, List.length_nil] at hafter htwo
    omega
  | cons next more =>
    simp only [List.head?_cons, Option.toList_some, List.length_singleton] at hafter
    omega

end Session

end LabelTree
