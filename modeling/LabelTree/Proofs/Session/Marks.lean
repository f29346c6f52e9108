import LabelTree.Proofs.Session.Unmarked

/-!
# Session — edits that leave no mark

What an edit after which no change is marked has left outside the meta subtree, one lemma for each
part of an edit: the node that is reached, the values that are given, the nodes that go and the node
that moves. Marks are only taken away by a save (`pending_touch_eq_false_iff`).
-/

namespace LabelTree

open Store (root)

namespace Session

variable {s u : Session} {path : Path} {location : Location} {anchor id m : NodeId}
    {ids : List NodeId}
  {i : Nat}

/-! ## Marks -/

theorem inMeta_iff :
    s.inMeta id = true ↔ ∃ m, s.store.metaTop? = some m ∧ s.store.isWithin id m = true :=
  Option.any_eq_true _ _

theorem pending_touch_eq_false_iff :
    (s.touch id).pending = false ↔ s.pending = false ∧ s.inMeta id = true := by
  unfold touch
  split <;> simp [*]

/-! ## Reaching a node -/

theorem Reaches.contains (h : s.Reaches path location id u) (hs : s.store.Rooted fun _ => True)
    (hlocation : s.locate path = .ok location) :
    u.store.WellFormed ∧ u.store.contains id = true := by
  cases h.reached hs (fun _ _ _ _ => trivial) hlocation with
  | found hc => exact ⟨hs.wellFormed, hc⟩
  | made _ hmakes => exact ⟨hmakes.rooted.wellFormed, hmakes.grows.contains_id⟩

theorem Reaches.pending (h : s.Reaches path location id u) (hu : u.pending = false) :
    s.pending = false := by
  cases h with
  | found => exact hu
  | made => exact (pending_touch_eq_false_iff.mp hu).1

/-- A node that is in the meta subtree when it is reached was there, or is below what is new at its
top. -/
theorem Reaches.outside_eq (h : s.Reaches path location id u) (hs : s.store.Rooted fun _ => True)
    (hlocation : s.locate path = .ok location) (hm : u.store.metaTop? = some m)
    (hid : u.store.isWithin id m = true) :
    u.store.outside = s.store.outside ∧ (s.store.metaTop? = some m ∨
      s.store.metaTop? = none ∧ s.store.contains m = false) := by
  have hstore := locate_eq_ok hlocation
  cases h with
  | found => exact ⟨rfl, .inl hm⟩
  | @made anchor _ i labels store hlabels hchain =>
    rw [store_touch] at hm hid ⊢
    obtain ⟨hc, -, -⟩ := hs.wellFormed.of_locate_missing hs.wellFormed.contains_root hstore
    obtain ⟨hsame, ⟨hold, -⟩ | ⟨hnone, hnew, -, -⟩⟩ :=
      hchain.outside_eq hs (fun _ _ => trivial) hc hm hid
    · exact ⟨hsame, .inl hold⟩
    · exact ⟨hsame, .inr ⟨hnone, hnew⟩⟩

/-- Making nodes leaves no mark in the meta subtree alone. -/
theorem Reaches.outside_eq_of_pending (h : s.Reaches path location id u)
    (hs : s.store.Rooted fun _ => True) (hlocation : s.locate path = .ok location)
    (hu : u.pending = false) :
    u.store.outside = s.store.outside ∧ ∀ m, u.store.metaTop? = some m → s.store.contains m = true →
      s.store.metaTop? = some m := by
  have hreach := h
  cases h with
  | found => exact ⟨rfl, fun m hm _ => hm⟩
  | @made anchor _ i labels store hlabels hchain =>
    obtain ⟨top, htop, hin⟩ := inMeta_iff.mp (pending_touch_eq_false_iff.mp hu).2
    obtain ⟨hsame, hold⟩ := hreach.outside_eq hs hlocation (by rwa [store_touch])
      (by rwa [store_touch])
    refine ⟨hsame, fun m hm hc => ?_⟩
    rw [store_touch] at hm
    cases htop.symm.trans hm
    rcases hold with hold | ⟨-, hnew⟩
    · exact hold
    · rw [hc] at hnew
      cases hnew

/-- The top of the meta subtree is reached where it is, or made where there was none. -/
theorem Reaches.top (h : s.Reaches path location id u) (hs : s.store.Rooted fun _ => True)
    (hlocation : s.locate path = .ok location) (hm : u.store.metaTop? = some id) :
    location = .found id ∧ u = s ∨ ∃ i, location = .missing root i ∧
      (path.steps.drop i).map Step.newLabel? = [some metaLabel] ∧ s.store.metaTop? = none := by
  have hstore := locate_eq_ok hlocation
  have hreached := h.reached hs (fun _ _ _ _ => trivial) hlocation
  cases h with
  | found => exact .inl ⟨rfl, rfl⟩
  | @made anchor _ i labels store hlabels hchain =>
    rw [store_touch] at hm
    cases hreached with
    | made hc hmakes =>
      have hself := Store.isWithin_self store id
      obtain ⟨-, ⟨hold, -⟩ | ⟨hnone, -, hroot, hone⟩⟩ :=
        hchain.outside_eq hs (fun _ _ => trivial) hc hm hself
      · -- the last node of a chain is new
        have hid := Store.contains_of_parent (hs.wellFormed.of_metaTop hold).1
        rw [hmakes.fresh] at hid
        cases hid
      · subst hroot
        exact .inr ⟨i, rfl, by rw [hlabels, hone rfl, List.map_singleton], hnone⟩

/-! ## Giving values and loading -/

/-- Values without a mark: nothing outside changed, or siblings of the top of the meta subtree were
made. -/
theorem outside_withValues {first : Option String} {rest : List (Option String)}
    (hreach : s.Reaches path location id u) (hs : s.store.Rooted fun _ => True)
    (hlocation : s.locate path = .ok location)
    (hin : ({ u with store := u.store.withValues id first rest } : Session).inMeta id = true) :
    (u.store.withValues id first rest).outside = s.store.outside ∨
      u.store.metaTop? = some id ∧ rest ≠ [] := by
  obtain ⟨hu, hc⟩ := hreach.contains hs hlocation
  obtain ⟨m, hm, hid⟩ := inMeta_iff.mp hin
  have hw := hu.withValues id first rest
  obtain ⟨hm, hid⟩ := (hu.frame_withValues id first rest).metaTop_of_isWithin hu hw
    (hu.contains_withValues id first rest) hc hm hid
  by_cases hplain : id ≠ m ∨ rest = []
  · exact .inl ((hu.sameOutside_withValues hm hid hplain).outside.trans
      (hreach.outside_eq hs hlocation hm hid).1)
  · rw [not_or, Decidable.not_not] at hplain
    exact .inr ⟨hplain.1 ▸ hm, hplain.2⟩

/-- A snapshot that was loaded without a mark changed nothing outside. -/
theorem outside_load {source : Snapshot} (hreach : s.Reaches path location id u)
    (hs : s.store.Rooted fun _ => True) (hlocation : s.locate path = .ok location)
    (hin :
      ({ u with store := ((Edit.valued u.store id source).graft id source).2 } :
        Session).inMeta id = true) :
    ((Edit.valued u.store id source).graft id source).2.outside = s.store.outside := by
  obtain ⟨hu, hc⟩ := hreach.contains hs hlocation
  obtain ⟨m, hm, hid⟩ := inMeta_iff.mp hin
  obtain ⟨hv, hshape, hframe⟩ : (Edit.valued u.store id source).WellFormed ∧
      u.store.SameShape (Edit.valued u.store id source) ∧
      u.store.Frame (fun _ => False) (· = id) (Edit.valued u.store id source) := by
    refine Edit.valued_keeps (P := fun t => t.WellFormed ∧ u.store.SameShape t ∧
      u.store.Frame (fun _ => False) (· = id) t) ?_ fun t ht => ?_
    · exact ⟨hu, ⟨fun _ => rfl, fun _ => rfl, fun _ => rfl⟩, .refl _ _ _⟩
    · exact ⟨hu.setValue ht, (Store.setsValue ht).shape, hu.frame_setValue ht⟩
  have hcv : (Edit.valued u.store id source).contains id = true := (hshape.contains id).trans hc
  have hextends := hv.extends_graft hcv source
  -- the node was in the meta subtree before the graft, and before it was given a value
  obtain ⟨hmv, hidv⟩ := (hv.still_graft id source).metaTop_of_isWithin hv hextends.wellFormed
    hextends.contains hcv hm hid
  obtain ⟨hmu, hidu⟩ :=
    hframe.metaTop_of_isWithin hu hv (fun j hj => (hshape.contains j).trans hj) hc hmv hidv
  have hvalued : u.store.SameOutside m (Edit.valued u.store id source) := by
    refine Edit.valued_keeps ⟨hmu, rfl⟩ fun t ht => ?_
    exact ((Store.setsValue ht).altersWithin hidu).sameOutside hu (hu.setValue ht) hmu
  have hgraft := hv.sameOutside_graft hmv hidv hcv source
  exact (hvalued.trans hgraft).outside.trans (hreach.outside_eq hs hlocation hmu hidu).1

/-! ## Removing -/

theorem pending_foldl_without (h : (ids.foldl without s).pending = false) : s.pending = false := by
  induction ids generalizing s with
  | nil => exact h
  | cons id rest ih => exact (pending_touch_eq_false_iff.mp (ih (s := s.without id) h)).1

/-- The node that goes first is in the meta subtree. -/
theorem inMeta_of_foldl_without (h : ((id :: ids).foldl without s).pending = false) :
    s.inMeta id = true :=
  (pending_touch_eq_false_iff.mp (pending_foldl_without (s := s.without id) h)).2

/-- Nodes that went without a mark, none of them a top-level node. -/
theorem outside_foldl_without (hs : s.store.WellFormed)
    (hbelow : ∀ id ∈ ids, s.store.parent id ≠ some root)
    (h : (ids.foldl without s).pending = false) :
    (ids.foldl without s).store.outside = s.store.outside := by
  induction ids generalizing s with
  | nil => rfl
  | cons id rest ih =>
    obtain ⟨m, hm, hid⟩ := inMeta_iff.mp (inMeta_of_foldl_without h)
    have hne : id ≠ m := by
      rintro rfl
      exact hbelow id List.mem_cons_self (hs.of_metaTop hm).1
    have hstep := hs.sameOutside_remove hm hid hne
    refine (ih (s := s.without id) (hs.remove id) (fun j hj => ?_) h).trans hstep.outside
    exact hs.parent_remove_ne id (hbelow j (List.mem_cons_of_mem id hj))

/-- Top-level nodes that went without a mark were the first ones with the meta label. -/
theorem metaTops_of_foldl_without (hs : s.store.WellFormed)
    (htop : ∀ id ∈ ids, id ∈ s.store.children root) (hnodup : ids.Nodup)
    (h : (ids.foldl without s).pending = false) : ∃ more, s.store.metaTops = ids ++ more := by
  induction ids generalizing s with
  | nil => exact ⟨_, rfl⟩
  | cons id rest ih =>
    obtain ⟨hid, hnodup⟩ := List.nodup_cons.mp hnodup
    obtain ⟨m, hm, hin⟩ := inMeta_iff.mp (inMeta_of_foldl_without h)
    obtain ⟨hp, -⟩ := hs.of_metaTop hm
    have hmroot := hs.ne_root_of_parent hp
    obtain rfl : id = m := by
      by_contra hne
      rw [hs.isWithin_top_eq_false (htop id List.mem_cons_self) hne hmroot] at hin
      cases hin
    obtain ⟨tail, htail⟩ := Store.exists_metaTops_eq hm
    obtain ⟨he, ht⟩ := hs.removes hmroot (Store.contains_of_parent hp)
    obtain ⟨more, hmore⟩ : ∃ more, (s.store.remove id).2.metaTops = rest ++ more := by
      refine ih (s := s.without id) ht (fun j hj => ?_) hnodup h
      have hne : j ≠ id := fun heq => hid (heq ▸ hj)
      have hmem : j ∈ (s.store.remove id).2.children root := by
        rw [he.children, hs.isWithin_root_eq_false hmroot, if_neg (by simp), List.mem_filter]
        exact ⟨htop j (List.mem_cons_of_mem id hj), by simpa using hne⟩
      exact hmem
    rw [hs.metaTops_remove_top htail] at hmore
    exact ⟨more, by rw [htail, hmore, List.cons_append]⟩

/-- Nodes of a path that went without a mark: nothing outside changed, or they were the first of the
top-level nodes with the meta label, and not the one node with it. -/
theorem outside_remove (hs : s.store.WellFormed) (hroot : root ∉ s.resolve path)
    (h : ((s.resolve path).foldl without s).pending = false) :
    ((s.resolve path).foldl without s).store.outside = s.store.outside ∨
      ∃ more, s.store.metaTops = s.resolve path ++ more ∧ s.resolve path ≠ [] ∧
        2 ≤ s.store.metaTops.length := by
  obtain ⟨k, hk⟩ := hs.resolve_sublist_level path hs.contains_root
  have hstart : s.store.top (Store.start path root) = root := by
    rw [Store.start, ite_self, Store.top_of_no_parent hs.parent_root]
  rw [hstart] at hk
  have hresolve : s.store.resolve path root = s.resolve path := rfl
  rw [hresolve] at hk
  generalize s.resolve path = ids at hroot h hk ⊢
  by_cases hone : k = 1
  · -- all of them are top-level nodes
    subst hone
    have hnodup := hk.nodup (hs.nodup_level hs.contains_root)
    have htop : ∀ id ∈ ids, id ∈ s.store.children root := by
      intro id hid
      have hlevel := hk.subset hid
      rwa [Store.level, show s.store.level 0 = fun id => [id] from rfl,
        List.flatMap_singleton'] at hlevel
    obtain ⟨more, hmore⟩ := metaTops_of_foldl_without hs htop hnodup h
    cases ids with
    | nil => exact .inl rfl
    | cons id rest =>
      by_cases htwo : 2 ≤ s.store.metaTops.length
      · exact .inr ⟨more, hmore, by simp, htwo⟩
      · -- the top has gone, and no other node has its label
        left
        have hlength := congrArg List.length hmore
        simp only [List.cons_append, List.length_cons, List.length_append] at hlength
        obtain rfl : rest = [] := List.eq_nil_of_length_eq_zero (by omega)
        obtain rfl : more = [] := List.eq_nil_of_length_eq_zero (by omega)
        exact hs.outside_remove_only hmore
  · left
    refine outside_foldl_without hs (fun id hid hp => hone ?_) h
    have hlength := hs.length_lineage_of_mem_level (hk.subset hid)
    rw [hs.lineage_of_parent hp] at hlength
    simp at hlength
    omega

/-! ## Moving and inserting -/

/-- A node that moved without a mark: nothing outside changed, or it was the top of the meta subtree
and went into the subtree of the next one. -/
theorem outside_move {node target : NodeId} (hreach : s.Reaches path location target u)
    (hs : s.store.Rooted fun _ => True) (hlocation : s.locate path = .ok location)
    (hnode : s.store.contains node = true) (hroot : node ≠ root) (hlroot : location ≠ .found root)
    (hinto : Edit.leadsInto s.store node location = false) (hu : u.pending = false)
    (hbefore : u.inMeta node = true)
    (hafter : ({ u with store := u.store.takePlace node target } : Session).inMeta node = true) :
    (u.store.takePlace node target).outside = s.store.outside ∨
      location = .found target ∧ ∃ next more, s.store.metaTops = node :: next :: more ∧
        s.store.isWithin target next = true := by
  have hreached := hreach.reached hs (fun _ _ _ _ => trivial) hlocation
  obtain ⟨hrooted, hcn, htroot, hct, hout⟩ := hreached.place hs hnode hlroot hinto
  obtain ⟨p, hp⟩ := hrooted.exists_parent htroot hct
  obtain ⟨he, hv⟩ := hrooted.wellFormed.takesPlace hroot hcn hp hout
  obtain ⟨hsame, -⟩ := hreach.outside_eq_of_pending hs hlocation hu
  obtain ⟨m, hm, hin⟩ := inMeta_iff.mp hbefore
  obtain ⟨m', hm', hin'⟩ := inMeta_iff.mp hafter
  rcases he.outside_eq_or hrooted.wellFormed hv hp hout hm hin hm' hin' with
    hkept | ⟨rfl, next, more, htops, hnext⟩
  · exact .inl (hkept.trans hsame)
  · cases hreach with
    | found => exact .inr ⟨rfl, next, more, htops, hnext⟩
    | made hlabels hchain =>
      -- a place made without a mark would be below the top, which is the node
      obtain ⟨top, htop, hbelow⟩ := inMeta_iff.mp (pending_touch_eq_false_iff.mp hu).2
      rw [store_touch] at hm hout
      cases htop.symm.trans hm
      rw [hbelow] at hout
      cases hout

/-- A node that was inserted without a mark: nothing outside changed, or it is the top of the meta
subtree and another one is not any more. -/
theorem outside_insert {p : NodeId} {l : String} {store : Store} (hs : s.store.WellFormed)
    (h : s.store.insertChild p i l = some (id, store))
    (hin : ({ s with store } : Session).inMeta id = true) :
    store.outside = s.store.outside ∨ p = root ∧ l = metaLabel ∧ ∃ m k, s.metaNode? = some m ∧
      s.store.indexInParent m = some k ∧ i ≤ k := by
  obtain ⟨m', hm', hid⟩ := inMeta_iff.mp hin
  rcases hs.outside_insertChild h hm' hid with ⟨-, -, hsame⟩ | ⟨rfl, rfl, hl, hnone⟩
  · exact .inl hsame
  · cases hm : s.store.metaTop? with
    | none => exact .inl (hnone hm)
    | some m =>
      have hp := (hs.of_metaTop hm).1
      obtain ⟨k, hk⟩ := hs.indexInParent_isSome hp
      refine .inr ⟨rfl, hl, m, k, hm, hk, Nat.le_of_not_lt fun hlt => ?_⟩
      -- the old top would come before the new node
      have hins := hs.freeExact.inserts h
      have htop := hins.metaTop? hs
      rw [hm', hs.find?_take_top hm hk hlt, Option.some_or, Option.some.injEq] at htop
      have hold := Store.contains_of_parent hp
      rw [← htop, hins.fresh] at hold
      cases hold

/-! ## Saving -/

theorem outside_saved (hs : s.store.WellFormed) : s.saved.store.outside = s.store.outside := by
  unfold saved
  cases hm : s.metaNode? with
  | none => rfl
  | some m => exact (hs.sameOutside_recordSaves hm _).outside

end Session

end LabelTree
