import LabelTree.Proofs.Session.Strands

/-!
# Session — moving a node

A move asks for its two ends before it changes anything, and refuses a destination in the subtree of
the source. What it then does is said of the store in which the destination is there
(`Store.Provides`): the node takes the place of the destination and its label, and brings along the
subtree that it had (`Store.Moves`).
-/

namespace LabelTree

open Store (root)

/-- The node at a location, or the one below which it would be made. -/
def Location.place : Location → NodeId
  | .found id => id
  | .missing anchor _ => anchor

variable {s t u : Session} {src dst : PathArg} {path srcPath dstPath : Path} {location : Location}
  {node target id : NodeId}

/-! ## Destinations -/

namespace Store

/-- In `t` the location of a path is the node `id`: it was found in `s`, or is the last of the nodes
made for the missing steps. -/
inductive Provides (s : Store) (path : Path) : Location → NodeId → Store → Prop
  | found (id : NodeId) : Provides s path (.found id) id s
  | made {anchor id : NodeId} {i : Nat} {labels : List String} {ids : List NodeId} {t : Store}
    (labels_eq : (path.steps.drop i).map Step.newLabel? = labels.map some)
    (strand : s.MakesStrand anchor labels ids t) (last : ids.getLast? = some id) :
    Provides s path (.missing anchor i) id t

theorem Provides.extends_place {s t : Store} (h : s.Provides path location id t)
    (hs : s.WellFormed) :
    s.Extends (· = location.place) t := by
  cases h with
  | found => exact .refl hs _
  | made _ hmade _ => exact hmade.extends_p

end Store

theorem Session.Reaches.provides (h : s.Reaches path location id t) (hs : s.store.WellFormed)
    (hlocation : s.locate path = .ok location) : s.store.Provides path location id t.store := by
  cases h with
  | found => exact .found _
  | @made anchor _ i labels store hlabels hchain =>
    obtain ⟨-, hne, -⟩ := hs.of_locate_missing hs.contains_root (Session.locate_eq_ok hlocation)
    obtain ⟨ids, hlast, hmade⟩ := hchain.makesStrand hs
    rw [Session.store_touch]
    exact .made hlabels hmade (hmade.strand.getLast?_eq (Step.labels_ne_nil hne hlabels) hlast)

theorem Session.exists_reaches (hs : s.store.WellFormed)
    (hlocation : s.locate path = .ok location) :
    ∃ id t, s.Reaches path location id t := by
  cases location with
  | found id => exact ⟨id, s, .found id⟩
  | missing anchor i =>
    obtain ⟨hanchor, labels, -, hlabels⟩ :=
      hs.missing_steps (hs.contains_start path hs.contains_root) (Session.locate_eq_ok hlocation)
    obtain ⟨id, store, hchain⟩ := hs.exists_chain hanchor labels
    exact ⟨id, _, .made hlabels hchain⟩

/-! ## What a move does -/

namespace Store

variable {s u t : Store} {touched : NodeId → Prop}

/-- That `j`, in the subtree of `node`, came along when `node` was moved: it has its value and its
children, and unless it is `node` itself its label and its parent. -/
structure Carries (s : Store) (node j : NodeId) (t : Store) : Prop where
  live : t.contains j = true
  value : t.value j = s.value j
  children : t.children j = s.children j
  label : j ≠ node → t.label j = s.label j
  parent : j ≠ node → t.parent j = s.parent j

/-- What a move does, where `s` is the store before it and `u` the one in which its destination
`target` is there: `node` stands in the place of `target` under its label, with the subtree that it
had, and all else below `target` is gone. -/
structure Moves (s u : Store) (node target : NodeId) (t : Store) : Prop where
  live : t.contains node = true
  label : t.label node = u.label target
  snapshot : t.snapshot node = { s.snapshot node with label := u.shownLabel target }
  subtree : ∀ j, s.contains j = true → s.isWithin j node = true → s.Carries node j t
  parent : ∃ p, u.parent target = some p ∧ t.parent node = some p ∧
    t.children p = ((u.children p).filter (· ≠ node)).map fun c => if c = target then node else c
  gone : t.contains target = false
  contains : ∀ j, t.contains j = true ↔
    u.contains j = true ∧ ¬ (u.isWithin j target = true ∧ u.isWithin j node = false)

/-- A node that takes the place of a node outside its subtree brings the subtree along. -/
theorem TakesPlace.carries (h : u.TakesPlace node target t) (hu : u.WellFormed)
    (hout : u.isWithin target node = false) {j : NodeId} (hj : u.contains j = true)
    (hjn : u.isWithin j node = true) : u.Carries node j t := by
  have hkept : u.swept node target j = false := by simp [swept, hjn]
  have hchildren : ∀ c ∈ u.children j, c ≠ node ∧ c ≠ target := by
    intro c hc
    have hp := (hu.mem_children j c).mp hc
    constructor
    · rintro rfl
      rw [hu.not_isWithin_child hp] at hjn
      cases hjn
    · rintro rfl
      rw [hu.isWithin_of_isWithin_parent hp hjn] at hout
      cases hout
  constructor
  case live => exact (h.contains j).mpr ⟨hj, hkept⟩
  case value => simp [h.value, hkept]
  case children =>
    have hsame : (u.children j).filter (· ≠ node) = u.children j :=
      List.filter_eq_self.mpr fun c hc => by simpa using (hchildren c hc).1
    rw [h.children, if_neg (by simp [hkept]), hsame,
      map_eq_self_of_not_mem fun hmem => (hchildren target hmem).2 rfl]
  case label =>
    intro hne
    simp [h.label, hne, hkept]
  case parent =>
    intro hne
    simp [h.parent, hne, hkept]

/-- What was added before does not matter, as long as it was not added in the subtree. -/
theorem Extends.carries (h : s.Extends touched u) {j : NodeId} (hj : s.contains j = true)
    (hno : ¬ touched j) (hu : u.Carries node j t) : s.Carries node j t where
  live := hu.live
  value := hu.value.trans (h.value j hj)
  children := hu.children.trans (h.children j hj hno)
  label hne := (hu.label hne).trans (h.label j hj)
  parent hne := (hu.parent hne).trans (h.parent j hj)

theorem TakesPlace.moves (h : u.TakesPlace node target t) (ht : t.WellFormed) (hs : s.WellFormed)
    (hu : s.Extends touched u) (hnode : s.contains node = true)
    (htouched : ∀ j, touched j → s.isWithin j node = false)
    (htarget : ∃ p, u.parent target = some p) (hout : u.isWithin target node = false) :
    s.Moves u node target t := by
  have hsubtree : ∀ j, s.contains j = true → s.isWithin j node = true → s.Carries node j t := by
    intro j hj hjn
    refine hu.carries hj (fun hmem => ?_) (h.carries hu.wellFormed hout (hu.contains j hj) ?_)
    · rw [htouched j hmem] at hjn
      cases hjn
    · rw [hu.isWithin hs hj, hjn]
  have hself := hsubtree node hnode (isWithin_self s node)
  have hlabel : t.label node = u.label target := by rw [h.label, if_pos rfl]
  constructor
  case live => exact hself.live
  case label => exact hlabel
  case snapshot =>
    have hbelow : (s.children node).map t.snapshot = (s.children node).map s.snapshot := by
      refine hs.map_snapshot_children_congr ht fun j hj hjn hne => ?_
      have hj := hsubtree j hj hjn
      exact ⟨hj.label hne, hj.value, hj.children⟩
    rw [ht.snapshot_eq, hs.snapshot_eq, shownLabel, hlabel, hself.value, hself.children, hbelow]
    rfl
  case subtree => exact hsubtree
  case parent =>
    obtain ⟨p, hp⟩ := htarget
    have hkept : u.swept node target p = false := by
      simp [swept, hu.wellFormed.not_isWithin_child hp]
    refine ⟨p, hp, by rw [h.parent, if_pos rfl, hp], ?_⟩
    rw [h.children, if_neg (by simp [hkept])]
  case gone =>
    rw [← Bool.not_eq_true, h.contains]
    simp [swept, isWithin_self, hout]
  case contains =>
    intro j
    rw [h.contains]
    simp [swept]

end Store

/-! ## The two ends -/

namespace Session

/-- The two ends of a move: the one node of a path, and the location of another; neither is the
root. -/
structure MoveEnds (s : Session) (src dst : PathArg) (srcPath dstPath : Path) (node : NodeId)
    (location : Location) : Prop where
  source : s.prepareExisting src = .ok srcPath
  destination : s.prepare dst = .ok dstPath
  node_eq : s.resolve srcPath = [node]
  location_eq : s.locate dstPath = .ok location
  node_ne_root : node ≠ root
  location_ne_root : location ≠ .found root

theorem MoveEnds.contains (h : s.MoveEnds src dst srcPath dstPath node location)
    (hs : s.store.WellFormed) :
    s.store.contains node = true ∧ s.store.contains location.place = true := by
  constructor
  · exact contains_of_resolve_eq hs h.node_eq
  · have hlocation := locate_eq_ok h.location_eq
    cases location with
    | found id => exact hs.contains_of_locate_found hs.contains_root hlocation
    | missing anchor i => exact (hs.of_locate_missing hs.contains_root hlocation).1

theorem code_of_resolveSingle {err : EngineError} (h : s.resolveSingle path = .error err) :
    err.code = .noMatch ∨ err.code = .multipleMatches := by
  unfold resolveSingle at h
  split at h
  · cases h
    exact .inl rfl
  · cases h
  · cases h
    exact .inr rfl

theorem code_of_locate {err : EngineError} (h : s.locate path = .error err) :
    err.code = .multipleMatches ∨ err.code = .cannotCreate := by
  unfold locate at h
  cases hl : s.store.locate path root with
  | ok location =>
    rw [hl] at h
    cases h
  | error fault =>
    rw [hl] at h
    cases fault with
    | multipleMatches count =>
      cases h
      exact .inl rfl
    | cannotCreate i fault =>
      cases h
      exact .inr rfl

end Session

namespace Edit

theorem leadsInto_eq (s : Store) (node : NodeId) (location : Location) :
    leadsInto s node location = s.isWithin location.place node := by
  cases location <;> rfl

/-- Once both ends are there, all that a move can be refused for is where the place is. -/
theorem run_move (h : s.MoveEnds src dst srcPath dstPath node location) :
    (move src dst).run.run s =
      if s.store.isWithin location.place node = true then
        (.error (.moveIntoDescendant srcPath.text dstPath.text), s)
      else (reach dstPath location >>= replace node).run.run s := by
  have hnode : s.resolveSingle srcPath = .ok node := by rw [Session.resolveSingle, h.node_eq]
  unfold move
  rw [run_bind_ok (run_ask_of_ok h.source), run_bind_ok (run_ask_of_ok h.destination),
    run_bind_ok (run_ask_of_ok hnode), run_bind_ok (run_ask_of_ok h.location_eq)]
  dsimp only
  rw [if_neg (not_or.mpr ⟨h.node_ne_root, h.location_ne_root⟩), run_bind_ok (run_store s),
    leadsInto_eq]
  split <;> rfl

/-- A move to a place outside the subtree succeeds. -/
theorem exists_run_move (hs : s.store.WellFormed)
    (h : s.MoveEnds src dst srcPath dstPath node location)
    (hout : s.store.isWithin location.place node = false) :
    ∃ t, (move src dst).run.run s = (.ok (), t) := by
  obtain ⟨target, u, hreach⟩ := Session.exists_reaches hs h.location_eq
  rw [run_move h, if_neg (by simp [hout]), run_bind_ok (run_reach hreach), run_replace]
  exact ⟨_, rfl⟩

/-- No other step of a move is refused because of a descendant, and what comes after the checks is
not refused at all. -/
theorem moveEnds_of_run {a b : String} (hs : s.store.Rooted fun _ => True)
    (h : (move src dst).run.run s = (.error (.moveIntoDescendant a b), t)) :
    ∃ srcPath dstPath node location, s.MoveEnds src dst srcPath dstPath node location ∧
      s.store.isWithin location.place node = true ∧ a = srcPath.text ∧ b = dstPath.text := by
  rcases run_ask_bind_eq_error h with herr | ⟨srcPath, hsrc, h⟩
  · cases Session.code_of_prepareExisting herr
  rcases run_ask_bind_eq_error h with herr | ⟨dstPath, hdst, h⟩
  · cases Session.code_of_prepare herr
  rcases run_ask_bind_eq_error h with herr | ⟨node, hnode, h⟩
  · rcases Session.code_of_resolveSingle herr with hcode | hcode <;> cases hcode
  rcases run_ask_bind_eq_error h with herr | ⟨location, hlocation, h⟩
  · rcases Session.code_of_locate herr with hcode | hcode <;> cases hcode
  dsimp only at h
  split at h
  · cases h
  · rename_i hroots
    rw [not_or] at hroots
    rw [run_bind_ok (run_store s), leadsInto_eq] at h
    split at h
    · rename_i hinto
      cases h
      exact ⟨srcPath, dstPath, node, location,
        ⟨hsrc, hdst, Session.resolveSingle_eq_ok hnode, hlocation,
        hroots.1, hroots.2⟩, hinto, rfl, rfl⟩
    · obtain ⟨target, u, hreach, -⟩ := reach_yields hs (fun _ _ _ _ => trivial) hlocation
      rw [run_bind_ok hreach, run_replace] at h
      cases h

theorem moves_of_run (hs : s.store.Rooted fun _ => True)
    (h : (move src dst).run.run s = (.ok (), t)) :
    ∃ srcPath dstPath node location target u, s.MoveEnds src dst srcPath dstPath node location ∧
      s.store.isWithin location.place node = false ∧ s.store.Provides dstPath location target u ∧
      s.store.Moves u node target t.store := by
  obtain ⟨srcPath, dstPath, node, location, target, u, hsrc, hdst, hnode, hlocation, hnroot,
    hlroot, hinto, hreach, rfl⟩ := move_of_run h
  have hends : s.MoveEnds src dst srcPath dstPath node location :=
    ⟨hsrc, hdst, hnode, hlocation, hnroot, hlroot⟩
  have hcn := (hends.contains hs.wellFormed).1
  have hprovides := hreach.provides hs.wellFormed hlocation
  -- the place stays outside the subtree when it has to be made
  obtain ⟨hu, hcn', htroot, hct, hout⟩ :=
    (hreach.reached hs (fun _ _ _ _ => trivial) hlocation).place hs hcn hlroot hinto
  obtain ⟨p, hp⟩ := hu.exists_parent htroot hct
  obtain ⟨htakes, ht⟩ := hu.wellFormed.takesPlace hnroot hcn' hp hout
  rw [leadsInto_eq] at hinto
  have hmoves := htakes.moves ht hs.wellFormed (hprovides.extends_place hs.wellFormed) hcn
    (fun j hj => by rw [hj, hinto]) ⟨p, hp⟩ hout
  exact ⟨srcPath, dstPath, node, location, target, u.store, hends, hinto,
    hprovides, by simpa using hmoves⟩

end Edit

end LabelTree
