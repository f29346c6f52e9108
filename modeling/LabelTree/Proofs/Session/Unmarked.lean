import LabelTree.Proofs.Session.Frame
import LabelTree.Proofs.Session.MetaTops
import LabelTree.Proofs.Store.Labelled

/-!
# Session — edits within the meta subtree

A change is marked unless it was made within the meta node that there is afterwards. What is left
outside after the parts of an edit when the node they are made for ends up there: most often it was
there before, and nothing outside was touched.
-/

namespace LabelTree

namespace Store

variable {s t : Store} {a c id m node p target : NodeId} {i : Nat} {l : String}
    {labels : List String}
  {first : Option String} {rest : List (Option String)} {valued : NodeId → Prop}

/-! ## New nodes -/

/-- Where nothing moves, an old node that is in the meta subtree after a change was there before. -/
theorem Frame.metaTop_of_isWithin (h : s.Frame (fun _ => False) valued t) (hs : s.WellFormed)
    (ht : t.WellFormed) (hkept : ∀ j, s.contains j = true → t.contains j = true)
    (hid : s.contains id = true) (hm : t.metaTop? = some m) (hin : t.isWithin id m = true) :
    s.metaTop? = some m ∧ s.isWithin id m = true := by
  have hparent : ∀ j, s.contains j = true → t.parent j = s.parent j :=
    fun j hj => h.parent j hj (hkept j hj) fun hno => hno
  rw [hs.isWithin_congr ht hparent m hid] at hin
  exact ⟨h.metaTop_of_metaTop hs ht hkept hm (hs.contains_of_isWithin hid hin), hin⟩

/-- A new node that is in the meta subtree was made there, or is its top. -/
theorem WellFormed.outside_insertChild (hs : s.WellFormed) (h : s.insertChild p i l = some (id, t))
    (hm : t.metaTop? = some m) (hin : t.isWithin id m = true) :
    (s.metaTop? = some m ∧ s.isWithin p m = true ∧ t.outside = s.outside) ∨
      (m = id ∧ p = root ∧ l = metaLabel ∧ (s.metaTop? = none → t.outside = s.outside)) := by
  have hins := hs.freeExact.inserts h
  have ht := hs.insertChild h
  have hextends := hs.extends_insertChild h
  have hparent : t.parent id = some p := by rw [hins.parent, if_pos rfl]
  by_cases hmid : m = id
  · subst hmid
    obtain ⟨hp, hl⟩ := ht.of_metaTop hm
    obtain rfl : p = root := Option.some.inj (hparent.symm.trans hp)
    rw [hins.label, if_pos rfl, Option.some.injEq] at hl
    refine .inr ⟨rfl, rfl, hl, fun hnone => hextends.outside_eq_of_new_top hs hnone ?_⟩
    have hnot : m ∉ s.children root := fun hmem => hins.ne (hs.contains_of_child hmem) rfl
    rw [otherTops_of_some hm, hins.children_parent, filter_spliced hnot]
  · have hinp : t.isWithin p m = true := by
      rcases ht.isWithin_iff.mp hin with heq | ⟨q, hq, hqm⟩
      · exact absurd heq.symm hmid
      · cases hparent.symm.trans hq
        exact hqm
    obtain ⟨hms, hpm⟩ := (hs.still_insertChild h).metaTop_of_isWithin hs ht hextends.contains
      hins.contains_parent hm hinp
    have halters := hextends.altersWithin (hs.contains_of_isWithin hins.contains_parent hpm)
      fun j _ hj => hj ▸ hpm
    exact .inl ⟨hms, hpm, (halters.sameOutside hs ht hms).outside⟩

/-- The first child with a label is among those before the place for one more. -/
theorem find?_take_indexAfterLabel (s : Store) (p : NodeId) (l : String) :
    (((s.children p).take (s.indexAfterLabel p l)).find? fun c => s.label c = some l) =
      s.findChild? p l := by
  obtain ⟨left, right, h, hindex⟩ := s.exists_endsLabelled p l
  have hright : (right.find? fun c => s.label c = some l) = none := by
    simpa [List.find?_eq_none] using h.not_right
  rw [findChild?, hindex, h.children, List.take_left, List.find?_append, hright, Option.or_none]

/-- A node made after those with its label leaves the top of the meta subtree. -/
theorem WellFormed.metaTop_appendAfterLabel (hs : s.WellFormed)
    (h : s.appendAfterLabel root metaLabel = some (id, t)) (hm : s.metaTop? = some m) :
    t.metaTop? = some m := by
  have hfirst : s.findChild? root metaLabel = some m := hm
  rw [(hs.freeExact.inserts h).metaTop? hs, find?_take_indexAfterLabel, hfirst, Option.some_or]

/-- A chain that ends in the meta subtree was made there, or begins with its top. -/
theorem Chain.outside_eq {good : String → Prop} (h : s.Chain p labels id t) (hs : s.Rooted good)
    (hgood : ∀ l ∈ labels, good l) (hp : s.contains p = true) (hm : t.metaTop? = some m)
    (hin : t.isWithin id m = true) :
    t.outside = s.outside ∧ (s.metaTop? = some m ∧ s.isWithin p m = true ∨
      s.metaTop? = none ∧ s.contains m = false ∧ p = root ∧
        (id = m → labels = [metaLabel])) := by
  induction h with
  | nil => exact ⟨rfl, .inl ⟨hm, hin⟩⟩
  | @cons s s' t p c id label rest happend hrest ih =>
    have hs' := hs.insertChild (hgood label List.mem_cons_self) happend
    have hins := hs.wellFormed.freeExact.inserts happend
    have hc : s'.contains c = true := (hins.contains c).mpr (.inl rfl)
    have hlater : ∀ l ∈ rest, good l := fun l hl => hgood l (List.mem_cons_of_mem _ hl)
    obtain ⟨hsame, ⟨hm', hcm⟩ | ⟨-, -, hroot, -⟩⟩ := ih hs' hlater hc hm hin
    · rcases hs.wellFormed.outside_insertChild happend hm' hcm with
        ⟨hms, hpm, hfirst⟩ | ⟨hmc, hpr, hl, hfirst⟩
      · exact ⟨hsame.trans hfirst, .inl ⟨hms, hpm⟩⟩
      · subst hmc hpr hl
        have hnone : s.metaTop? = none := by
          cases hold : s.metaTop? with
          | none => rfl
          | some old =>
            -- an old one would still come first
            have htop := hs.wellFormed.metaTop_appendAfterLabel happend hold
            rw [hm'] at htop
            cases htop
            have hmem := Store.contains_of_parent (hs.wellFormed.of_metaTop hold).1
            rw [hins.fresh] at hmem
            cases hmem
        refine ⟨hsame.trans (hfirst hnone), .inr ⟨hnone, hins.fresh, rfl, ?_⟩⟩
        rintro rfl
        have hnil : rest = [] := by
          by_contra hne
          have hnew := (hrest.grows hs' hlater hc).2.2 hne
          rw [hc] at hnew
          cases hnew
        rw [hnil]
    · rw [hroot] at hins
      have hfresh := hins.fresh
      rw [hs.wellFormed.contains_root] at hfresh
      cases hfresh

/-! ## Values and siblings -/

namespace WellFormed

theorem extends_withSiblings (hs : s.WellFormed) (parent : NodeId) (label : String) (prev : NodeId)
    (values : List (Option String)) :
    s.Extends (· = parent) (s.withSiblings parent label prev values) := by
  induction values generalizing s prev with
  | nil => exact .refl hs _
  | cons value rest ih =>
    unfold withSiblings
    split
    · exact .refl hs _
    · rename_i id t hi
      have hfirst : s.Extends (· = parent) ((t.setValue id value).getD t) := by
        have hmade := hs.extends_insertChild hi
        exact getD_keeps hmade fun _ hv => hmade.setValue (hs.freeExact.inserts hi).fresh hv
      exact hfirst.trans (ih hfirst.wellFormed id) fun _ _ h => h

/-- A node of the meta subtree is given a value. -/
theorem sameOutside_setValue (hs : s.WellFormed) (hm : s.metaTop? = some m)
    (hid : s.isWithin id m = true) (value : Option String) :
    s.SameOutside m ((s.setValue id value).getD s) := by
  cases hv : s.setValue id value with
  | none => exact ⟨hm, rfl⟩
  | some t => exact ((setsValue hv).altersWithin hid).sameOutside hs (hs.setValue hv) hm

/-- Giving a value leaves what is there and where it is. -/
theorem sameShape_getD_setValue (s : Store) (id : NodeId) (value : Option String) :
    s.SameShape ((s.setValue id value).getD s) := by
  cases hv : s.setValue id value with
  | none => exact ⟨fun _ => rfl, fun _ => rfl, fun _ => rfl⟩
  | some t => exact (setsValue hv).shape

theorem contains_withValues (hs : s.WellFormed) (id : NodeId) (first : Option String)
    (rest : List (Option String)) (j : NodeId) (hj : s.contains j = true) :
    (s.withValues id first rest).contains j = true := by
  have hshape := sameShape_getD_setValue s id first
  have ht := (hs.frame_getD_setValue id first).2
  unfold withValues
  dsimp only
  generalize (s.setValue id first).getD s = t at hshape ht ⊢
  rw [← hshape.contains] at hj
  split
  · exact (ht.extends_withSiblings _ _ _ _).contains j hj
  · exact hj

theorem withValues (hs : s.WellFormed) (id : NodeId) (first : Option String)
    (rest : List (Option String)) : (s.withValues id first rest).WellFormed := by
  have ht := (hs.frame_getD_setValue id first).2
  unfold Store.withValues
  dsimp only
  generalize (s.setValue id first).getD s = t at ht ⊢
  split
  · exact (ht.extends_withSiblings _ _ _ _).wellFormed
  · exact ht

/-- Siblings of a node of the meta subtree are in it too, but for those of its top. -/
theorem sameOutside_withValues (hs : s.WellFormed) (hm : s.metaTop? = some m)
    (hid : s.isWithin id m = true) (h : id ≠ m ∨ rest = []) :
    s.SameOutside m (s.withValues id first rest) := by
  have hfirst := hs.sameOutside_setValue hm hid first
  have hshape := sameShape_getD_setValue s id first
  have ht := (hs.frame_getD_setValue id first).2
  unfold Store.withValues
  dsimp only
  generalize (s.setValue id first).getD s = t at hfirst hshape ht ⊢
  split
  · rename_i p l hp _
    rcases h with hne | rfl
    · have hc : s.contains id = true := by
        rw [← hshape.contains]
        exact Store.contains_of_parent hp
      have hin : t.isWithin id m = true := by
        rw [hs.isWithin_congr ht (fun j _ => hshape.parent j) m hc]
        exact hid
      obtain ⟨q, hq, hqm⟩ := (ht.isWithin_iff.mp hin).resolve_left hne
      cases hp.symm.trans hq
      have hextends := ht.extends_withSiblings p l id rest
      have halters := hextends.altersWithin (ht.contains_of_isWithin (ht.contains_of_parent hp) hqm)
        fun j _ hj => hj ▸ hqm
      exact hfirst.trans (halters.sameOutside ht hextends.wellFormed hfirst.metaTop)
    · exact hfirst
  · exact hfirst

/-! ## Loading and saving -/

theorem extends_graft (hs : s.WellFormed) (hid : s.contains id = true) (source : Snapshot) :
    s.Extends (· = id) (s.graft id source).2 := by
  obtain ⟨ids, hgrafts⟩ := WellFormed.grafts source hs hid
  exact hgrafts.extends_p

/-- A snapshot is loaded below a node of the meta subtree. -/
theorem sameOutside_graft (hs : s.WellFormed) (hm : s.metaTop? = some m)
    (hid : s.isWithin id m = true) (hc : s.contains id = true) (source : Snapshot) :
    s.SameOutside m (s.graft id source).2 := by
  have hextends := hs.extends_graft hc source
  have halters := hextends.altersWithin (hs.contains_of_isWithin hc hid) fun j _ hj => hj ▸ hid
  exact halters.sameOutside hs hextends.wellFormed hm

theorem sameOutside_findOrAppend (hs : s.WellFormed) (hm : s.metaTop? = some m)
    (hp : s.isWithin p m = true) (hc : s.contains p = true)
    (h : s.findOrAppend p l = some (id, t)) :
    s.SameOutside m t ∧ t.WellFormed ∧ t.contains id = true ∧ t.isWithin id m = true := by
  have ht := (hs.still_findOrAppend h).2
  unfold findOrAppend at h
  split at h
  · rename_i found hfound
    cases h
    have hparent := parent_of_findChild? hs hfound
    exact ⟨⟨hm, rfl⟩, hs, Store.contains_of_parent hparent,
      hs.isWithin_of_isWithin_parent hparent hp⟩
  · have hins := hs.freeExact.inserts h
    have hextends := hs.extends_insertChild h
    have halters := hextends.altersWithin (hs.contains_of_isWithin hc hp) fun j _ hj => hj ▸ hp
    have hin : t.isWithin p m = true := by
      rw [hextends.isWithin hs hc]
      exact hp
    refine ⟨halters.sameOutside hs ht hm, ht, (hins.contains id).mpr (.inl rfl), ?_⟩
    exact ht.isWithin_of_isWithin_parent (by rw [hins.parent, if_pos rfl]) hin

/-- Showing the number of saves touches nothing outside the meta subtree. -/
theorem sameOutside_recordSaves (hs : s.WellFormed) (hm : s.metaTop? = some m) (saves : Nat) :
    s.SameOutside m (Edit.recordSaves s m saves) := by
  have hc := Store.contains_of_parent (hs.of_metaTop hm).1
  unfold Edit.recordSaves
  split
  · exact ⟨hm, rfl⟩
  · rename_i events t hevents
    obtain ⟨hst, ht, hce, hin⟩ := hs.sameOutside_findOrAppend hm (isWithin_self s m) hc hevents
    split
    · exact hst
    · rename_i saved u hsaved
      obtain ⟨htu, hu, -, hin⟩ := ht.sameOutside_findOrAppend hst.metaTop hin hce hsaved
      exact (hst.trans htu).trans (hu.sameOutside_setValue htu.metaTop hin _)

/-! ## Removing and moving -/

theorem parent_remove_ne (hs : s.WellFormed) (id : NodeId) (h : s.parent c ≠ some p) :
    (s.remove id).2.parent c ≠ some p := by
  by_cases hno : id = root ∨ ¬ s.contains id = true
  · rwa [Store.remove, if_pos hno]
  · rw [not_or, Decidable.not_not] at hno
    rw [(hs.removes hno.1 hno.2).1.parent]
    split
    · simp
    · exact h

theorem sameOutside_remove (hs : s.WellFormed) (hm : s.metaTop? = some m)
    (hid : s.isWithin id m = true) (hne : id ≠ m) : s.SameOutside m (s.remove id).2 := by
  by_cases hno : id = root ∨ ¬ s.contains id = true
  · rw [Store.remove, if_pos hno]
    exact ⟨hm, rfl⟩
  · rw [not_or, Decidable.not_not] at hno
    obtain ⟨he, ht⟩ := hs.removes hno.1 hno.2
    exact (he.altersWithin hs hid hne).sameOutside hs ht hm

end WellFormed

namespace TakesPlace

/-- What was outside the two subtrees has the same ancestors. -/
theorem isWithin_of_outside (h : s.TakesPlace node target t) (hs : s.WellFormed) (ht : t.WellFormed)
    (hnode : s.isWithin id node = false) (htarget : s.isWithin id target = false) (a : NodeId) :
    t.isWithin id a = s.isWithin id a := by
  induction id using hs.upward with
  | step id ih =>
    have hparent : t.parent id = s.parent id := by
      rw [h.parent, if_neg (ne_of_isWithin_eq_false hnode), swept, htarget]
      rfl
    rw [Bool.eq_iff_iff, hs.isWithin_iff, ht.isWithin_iff, hparent]
    cases hp : s.parent id with
    | none => simp
    | some q =>
      have hup : ∀ {b}, s.isWithin id b = false → s.isWithin q b = false := by
        intro b hb
        rw [← Bool.not_eq_true] at hb ⊢
        exact fun hqb => hb (hs.isWithin_of_isWithin_parent hp hqb)
      simp [ih q hp (hup hnode) (hup htarget)]

/-- The node is now below what the place was below. -/
theorem isWithin_node (h : s.TakesPlace node target t) (hs : s.WellFormed) (ht : t.WellFormed)
    (hp : s.parent target = some p) (hout : s.isWithin target node = false) (hne : a ≠ node) :
    t.isWithin node a = s.isWithin p a := by
  have hpn : s.isWithin p node = false := by
    rw [← Bool.not_eq_true] at hout ⊢
    exact fun hpn => hout (hs.isWithin_of_isWithin_parent hp hpn)
  rw [← h.isWithin_of_outside hs ht hpn (hs.not_isWithin_child hp), Bool.eq_iff_iff,
    ht.isWithin_iff, h.parent, if_pos rfl, hp]
  simp [hne.symm]

/-- A node of the meta subtree that is in it after it took a place: the place was in it too, or was
in the subtree that is the meta subtree after the node was its top. -/
theorem outside_eq_or (h : s.TakesPlace node target t) (hs : s.WellFormed) (ht : t.WellFormed)
    (hp : s.parent target = some p) (hout : s.isWithin target node = false)
    (hm : s.metaTop? = some m) (hnode : s.isWithin node m = true) {m' : NodeId}
    (hm' : t.metaTop? = some m') (hin : t.isWithin node m' = true) :
    t.outside = s.outside ∨
      node = m ∧ ∃ next rest, s.metaTops = m :: next :: rest ∧ s.isWithin target next = true := by
  have hroot := hs.ne_root_of_parent hp
  have htop := h.metaTop? hs hroot
  rw [hm'] at htop
  by_cases hnm : node = m
  · -- the next one with the label is at the top now, unless its place was taken
    subst hnm
    obtain ⟨tail, htail⟩ := exists_metaTops_eq hm
    rw [hs.filter_metaTops_of_eq_cons htail] at htop
    obtain ⟨next, hnext, hm'⟩ := Option.map_eq_some_iff.mp htop.symm
    obtain ⟨rest, rfl⟩ := List.head?_eq_some_iff.mp hnext
    refine .inr ⟨rfl, next, rest, htail, ?_⟩
    split at hm'
    · rename_i heq
      rw [heq]
      exact isWithin_self s target
    · have hne : next ≠ node := by
        rintro rfl
        exact (List.nodup_cons.mp (htail ▸ hs.nodup_metaTops)).1 List.mem_cons_self
      rw [← hm', h.isWithin_node hs ht hp hout hne] at hin
      exact hs.isWithin_of_isWithin_parent hp hin
  · left
    by_cases htm : target = m
    · subst htm
      exact h.outside_eq_of_top hs ht hm hnode hnm
    · -- the top stays, so that the place was below it
      rw [hs.filter_metaTops_of_isWithin hm hnode hnm, head?_metaTops, hm, Option.map_some,
        if_neg (Ne.symm htm), Option.some.injEq] at htop
      rw [htop, h.isWithin_node hs ht hp hout (Ne.symm hnm)] at hin
      have htarget := hs.isWithin_of_isWithin_parent hp hin
      exact ((h.altersWithin hs hnode hnm htarget htm).sameOutside hs ht hm).outside

end TakesPlace

end Store

end LabelTree
