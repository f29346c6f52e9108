import LabelTree.Proofs.Store.Frame
import LabelTree.Proofs.Store.Made
import LabelTree.Store.Issued

/-!
# Store — ids that went stale stay stale

One relation says what a part of a run does to ids (`Issues`): those that it gives out named nothing
when it began, are all different, and have each named a node at some moment of it. Parts compose
(`Issues.trans`) because an id that was deleted never names a node again (`Later`), so the relation
holds of each change, a graft included, and by induction of any run.
-/

namespace LabelTree.Store

variable {s t u : Store} {id p : NodeId} {i : Nat} {l : String} {ids ids' : List NodeId}

/-! ## What a stale id is good for -/

theorem appendTops_of_not_contains (hp : s.contains p = false) (sources : List Snapshot) :
    s.appendTops p sources = (sources.map fun _ => none, s) := by
  induction sources with
  | nil => rfl
  | cons source rest ih => simp [appendTops, appendChild, insertChild, hp, ih]

theorem graftBelow_of_none (s : Store) (sources : List Snapshot) :
    s.graftBelow (sources.map fun _ => none) sources = (0, s) := by
  induction sources with
  | nil => rfl
  | cons source rest ih => rw [List.map_cons, graftBelow, ih]

theorem stale_of_not_contains (h : s.contains id = false) : s.Stale id := by
  have hgraft : ∀ source, s.graft id source = (0, s) := by
    rintro ⟨label, value, children⟩
    rw [graft, appendTops_of_not_contains h]
    exact graftBelow_of_none s children
  constructor
  case contains => exact h
  case label => exact label_of_not_contains h
  case value => exact value_of_not_contains h
  case parent => exact parent_of_not_contains h
  case children => exact children_of_not_contains h
  case indexInParent => simp [indexInParent, parent_of_not_contains h]
  case setValue => simp [setValue, h]
  case setLabel => simp [setLabel, h]
  case insertChild => simp [insertChild, h]
  case appendChild => simp [appendChild, insertChild, h]
  case appendAfterLabel => simp [appendAfterLabel, insertChild, h]
  case graft => exact hgraft
  case detach => simp [detach, parent_of_not_contains h]
  case attach => simp [attach, canAttach, h]
  case attach_below => simp [attach, canAttach, h]
  case remove => simp [remove, h]
  case apply =>
    intro change hid
    cases change with
    | attach child parent index =>
      rcases List.mem_pair.mp hid with rfl | rfl <;> simp [apply, attach, canAttach, h]
    | _ =>
      cases List.mem_singleton.mp hid
      simp [apply, hgraft, setValue, setLabel, appendChild, appendAfterLabel, insertChild, detach,
        remove, parent_of_not_contains h, h]

/-! ## Ids given out -/

/-- What happens to ids between two stores of a run, the later of which has given out `ids`
since. -/
structure Issues (s : Store) (ids : List NodeId) (t : Store) : Prop where
  wellFormed : t.WellFormed
  later : s.Later t
  made : t.made = s.made + ids.length
  nodup : ids.Nodup
  fresh : ∀ id ∈ ids, s.contains id = false
  /-- Each id named a node at some moment. -/
  named : ∀ id ∈ ids, ∃ u, s.Later u ∧ u.Later t ∧ u.contains id = true

namespace Issues

theorem trans (h : s.Issues ids t) (h' : t.Issues ids' u) : s.Issues (ids ++ ids') u where
  wellFormed := h'.wellFormed
  later := h.later.trans h'.later
  made := by rw [h'.made, h.made, List.length_append, Nat.add_assoc]
  nodup := by
    refine List.nodup_append.mpr ⟨h.nodup, h'.nodup, ?_⟩
    rintro id hid _ hid' rfl
    -- named in the first part and no more between the two, the id is not named in the second
    obtain ⟨v, -, hvt, hv⟩ := h.named id hid
    obtain ⟨w, htw, -, hw⟩ := h'.named id hid'
    rw [hvt.not_contains htw hv (h'.fresh id hid')] at hw
    cases hw
  fresh id hid := by
    rcases List.mem_append.mp hid with hid | hid
    · exact h.fresh id hid
    · obtain ⟨w, htw, -, hw⟩ := h'.named id hid
      rw [← Bool.not_eq_true]
      intro hs
      rw [h.later.not_contains htw hs (h'.fresh id hid)] at hw
      cases hw
  named id hid := by
    rcases List.mem_append.mp hid with hid | hid
    · obtain ⟨v, hsv, hvt, hv⟩ := h.named id hid
      exact ⟨v, hsv, hvt.trans h'.later, hv⟩
    · obtain ⟨w, htw, hwu, hw⟩ := h'.named id hid
      exact ⟨w, h.later.trans htw, hwu, hw⟩

/-- An id that was given out and is stale is stale ever after. -/
theorem not_contains (h : s.Issues ids t) (hid : id ∈ ids) (hstale : t.contains id = false)
    (hu : t.Later u) : u.contains id = false := by
  obtain ⟨v, -, hvt, hv⟩ := h.named id hid
  exact hvt.not_contains hu hv hstale

end Issues

namespace WellFormed

/-- A change that makes no node gives out no id. -/
theorem issues_nil (hs : s.WellFormed) (ht : t.WellFormed)
    (h : ∀ {P : Store → Prop}, EditKept P → P s → P t) : s.Issues [] t where
  wellFormed := ht
  later := hs.later_kept fun hP => h hP.toEditKept
  made := h (made_editKept s.made) rfl
  nodup := List.nodup_nil
  fresh := by simp
  named := by simp

theorem issues_refl (hs : s.WellFormed) : s.Issues [] s :=
  hs.issues_nil hs fun _ h => h

theorem issues_insertChild (hs : s.WellFormed) (h : s.insertChild p i l = some (id, t)) :
    s.Issues [id] t := by
  have hins := hs.freeExact.inserts h
  have hlater : s.Later t := hs.later_kept fun hP hs => hP.insertChild hs h
  constructor
  case wellFormed => exact hs.insertChild h
  case later => exact hlater
  case made => exact hs.freeExact.made_insertChild h
  case nodup => simp
  case fresh => simpa using hins.fresh
  case named =>
    intro j hj
    cases List.mem_singleton.mp hj
    exact ⟨t, hlater, Later.refl t, (hins.contains id).mpr (.inl rfl)⟩

theorem issues_setValue {v : Option String} (hs : s.WellFormed) :
    s.Issues [] ((s.setValue id v).getD s) :=
  getD_keeps (P := s.Issues []) hs.issues_refl fun _ h =>
    hs.issues_nil (hs.setValue h) fun hP hs => hP.setValue hs h

/-! ## Grafts -/

theorem issues_appendTops (hs : s.WellFormed) (p : NodeId) (sources : List Snapshot) :
    s.Issues ((s.appendTops p sources).1.filterMap fun id => id)
      (s.appendTops p sources).2 := by
  induction sources generalizing s with
  | nil => exact hs.issues_refl
  | cons source rest ih =>
    rw [appendTops]
    cases ha : s.appendChild p source.label with
    | none => exact ih hs
    | some made =>
      obtain ⟨id, t⟩ := made
      have hmade := hs.issues_insertChild ha
      have hvalue : t.Issues [] ((t.setValue id source.value).getD t) :=
        hmade.wellFormed.issues_setValue
      have hvalued := hmade.trans hvalue
      exact hvalued.trans (ih hvalued.wellFormed)

mutual

theorem issues_graft : ∀ {s : Store} (p : NodeId) (source : Snapshot), s.WellFormed →
    s.Issues (s.graftedIds p source) (s.graft p source).2
  | s, p, ⟨_, _, children⟩, hs => by
    have htops := hs.issues_appendTops p children
    rw [graftedIds, graft]
    exact htops.trans (issues_graftBelow _ children htops.wellFormed)

theorem issues_graftBelow : ∀ {s : Store} (ids : List (Option NodeId)) (sources : List Snapshot),
    s.WellFormed → s.Issues (s.graftedBelow ids sources) (s.graftBelow ids sources).2
  | s, some id :: ids, source :: rest, hs => by
    have hlater := issues_graftBelow ids rest hs
    rw [graftedBelow, graftBelow]
    exact hlater.trans (issues_graft id source hlater.wellFormed)
  | s, none :: ids, _ :: rest, hs => by
    rw [graftedBelow, graftBelow]
    exact issues_graftBelow ids rest hs
  | s, [], sources, hs => by
    simpa [graftedBelow, graftBelow] using hs.issues_refl
  | s, _ :: _, [], hs => by
    simpa [graftedBelow, graftBelow] using hs.issues_refl

end

/-! ## Changes and runs -/

theorem issues_outcome {outcome : Option (NodeId × Store)} (hs : s.WellFormed)
    (h : ∀ id t, outcome = some (id, t) → s.Issues [id] t) :
    s.Issues (outcome.map Prod.fst).toList ((outcome.map Prod.snd).getD s) := by
  cases ho : outcome with
  | none => exact hs.issues_refl
  | some made => exact h made.1 made.2 ho

theorem issues_apply (hs : s.WellFormed) (change : Change) :
    s.Issues (s.issued change) (s.apply change) := by
  cases change with
  | insertChild parent index label => exact hs.issues_outcome fun _ _ => hs.issues_insertChild
  | appendChild parent label => exact hs.issues_outcome fun _ _ => hs.issues_insertChild
  | appendAfterLabel parent label => exact hs.issues_outcome fun _ _ => hs.issues_insertChild
  | setValue id value => exact hs.issues_setValue
  | setLabel id label =>
    exact getD_keeps (P := s.Issues []) hs.issues_refl fun _ h =>
      hs.issues_nil (hs.setLabel h) fun hP hs => hP.setLabel hs h
  | detach id =>
    exact getD_map_keeps (P := s.Issues []) hs.issues_refl fun _ _ h =>
      hs.issues_nil (hs.detach h) fun hP hs => hP.detach hs h
  | attach id parent index =>
    exact getD_keeps (P := s.Issues []) hs.issues_refl fun _ h =>
      hs.issues_nil (hs.attach h) fun hP hs => hP.attach hs h
  | remove id => exact hs.issues_nil (hs.remove id) fun hP hs => hP.remove hs id
  | graft parent source => exact issues_graft parent source hs

theorem issues_applyAll (hs : s.WellFormed) (changes : List Change) :
    s.Issues (s.issuedAll changes) (s.applyAll changes) := by
  induction changes generalizing s with
  | nil => exact hs.issues_refl
  | cons change changes ih =>
    have hfirst := hs.issues_apply change
    exact hfirst.trans (ih hfirst.wellFormed)

end WellFormed

theorem made_new : new.made = 1 :=
  rfl

theorem Reachable.fitsWords (h : s.Reachable) (hmade : s.made < UInt32.size) : s.FitsWords := by
  obtain ⟨hindex, hgeneration⟩ := h.slots_le_made
  refine ⟨fun i hi => ?_, fun slot hslot => ?_⟩
  · omega
  · have := hgeneration slot hslot
    omega

/-- Of the ids that a run gives out, the root's among them, no two are the same; as long as they are
fewer than the words of 32 bits, such words hold every index and generation on the way; and one that
is stale at some moment is so ever after. -/
theorem stale_ids_stay_stale (before after : List Change) :
    let ids := root :: new.issuedAll (before ++ after)
    let s := new.applyAll before
    ids.Nodup ∧ (ids.length < UInt32.size → s.FitsWords) ∧
      ∀ id ∈ root :: new.issuedAll before, s.contains id = false → (s.applyAll after).Stale id := by
  intro ids s
  have hwhole : new.Issues (new.issuedAll (before ++ after)) (s.applyAll after) := by
    have happend : new.applyAll (before ++ after) = s.applyAll after := List.foldl_append
    rw [← happend]
    exact wellFormed_new.issues_applyAll (before ++ after)
  have hbefore : new.Issues (new.issuedAll before) s := wellFormed_new.issues_applyAll before
  have hafter := hbefore.wellFormed.issues_applyAll after
  have hs : s.Reachable := ⟨before, rfl⟩
  refine ⟨List.nodup_cons.mpr ⟨fun hroot => ?_, hwhole.nodup⟩, fun hfew => ?_, ?_⟩
  · have hfresh := hwhole.fresh root hroot
    rw [wellFormed_new.contains_root] at hfresh
    cases hfresh
  · have hmade := hs.made_le after
    rw [hwhole.made, made_new] at hmade
    rw [List.length_cons] at hfew
    exact hs.fitsWords (by omega)
  · intro id hid hstale
    rcases List.mem_cons.mp hid with rfl | hid
    · rw [hbefore.wellFormed.contains_root] at hstale
      cases hstale
    · exact stale_of_not_contains (hbefore.not_contains hid hstale hafter.later)

/-- The slot of a deleted node is used again, and its old id is as stale as before. -/
theorem stale_ids_stay_stale_reused :
    let before : List Change := [.appendChild root "a", .appendChild ⟨1, 0⟩ "b", .remove ⟨1, 0⟩]
    let after : List Change := [.graft root ⟨"", none, [⟨"c", some "1", []⟩]⟩]
    let t := (new.applyAll before).applyAll after
    new.issuedAll (before ++ after) = [⟨1, 0⟩, ⟨2, 0⟩, ⟨2, 1⟩] ∧ (new.applyAll before).FitsWords ∧
      t.contains ⟨2, 1⟩ = true ∧ t.Stale ⟨2, 0⟩ := by
  intro before after t
  have hids : new.issuedAll (before ++ after) = [⟨1, 0⟩, ⟨2, 0⟩, ⟨2, 1⟩] := rfl
  obtain ⟨-, hfits, hstale⟩ := stale_ids_stay_stale before after
  refine ⟨hids, hfits (by rw [hids]; decide), rfl, hstale ⟨2, 0⟩ ?_ rfl⟩
  decide

end LabelTree.Store
