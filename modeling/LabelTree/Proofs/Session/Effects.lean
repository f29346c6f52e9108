import LabelTree.Proofs.Session.Files

/-!
# Session — what an edit that succeeds has done

One statement per edit: what its questions were answered and which session it leaves, with the store
as a function of the one before and with every mark of a change at its place. What an edit keeps,
and what it marks, is read off these statements (`Edit.reaches_of_run`, `Edit.setMany_of_run` and
those after it).
-/

namespace LabelTree

open Store (root)

variable {α β : Type} {s t u : Session} {path : Path} {arg : PathArg} {location : Location}
  {id anchor : NodeId} {n : Nat}

/-! ## Stores -/

namespace Store

/-- `t` is `s` with a chain of new nodes for labels below `p`, each below the one before it and
after the siblings labelled alike; the last one is `id`. -/
inductive Chain : Store → NodeId → List String → NodeId → Store → Prop
  | nil (s : Store) (p : NodeId) : Chain s p [] p s
  | cons {s s' t : Store} {p c id : NodeId} {label : String} {rest : List String} :
    s.appendAfterLabel p label = some (c, s') → Chain s' c rest id t →
      Chain s p (label :: rest) id t

namespace Chain

variable {good : String → Prop} {s t : Store} {p id : NodeId} {labels : List String}

/-- A chain hangs below its anchor, and its last node is new unless the chain is empty. -/
theorem grows (h : s.Chain p labels id t) (hs : s.Rooted good) (hgood : ∀ l ∈ labels, good l)
    (hp : s.contains p = true) :
    t.Rooted good ∧ s.Grows p id t ∧ (labels ≠ [] → s.contains id = false) := by
  induction h with
  | nil => exact ⟨hs, .refl hp, fun hne => absurd rfl hne⟩
  | @cons s s' t p c id label rest happend hrest ih =>
    have hs' := hs.insertChild (hgood label List.mem_cons_self) happend
    have hins := hs.wellFormed.freeExact.inserts happend
    have hgrows := Grows.of_inserts hs.wellFormed hs'.wellFormed hins
    obtain ⟨ht, hbelow, hfresh⟩ := ih hs' (fun l hl => hgood l (List.mem_cons_of_mem _ hl))
      hgrows.contains_id
    refine ⟨ht, hgrows.trans hbelow, fun _ => ?_⟩
    cases hrest with
    | nil => exact hins.fresh
    | cons =>
      -- a node of the first store would be one of the second, to which the last node is new
      rw [← Bool.not_eq_true]
      intro hold
      have hnew := hfresh (by simp)
      rw [hgrows.contains _ hold] at hnew
      cases hnew

end Chain

/-- A store with a sibling for each value, the first right after `prev` and each other after the one
before it. -/
def withSiblings (s : Store) (parent : NodeId) (label : String) (prev : NodeId) :
    List (Option String) → Store
  | [] => s
  | value :: rest =>
    match s.insertChild parent
        (((s.indexInParent prev).map (· + 1)).getD (s.children parent).length) label with
    | none => s
    | some (id, t) => withSiblings ((t.setValue id value).getD t) parent label id rest

/-- A store in which a node has the first of some values, and a sibling after it each other. -/
def withValues (s : Store) (id : NodeId) (first : Option String)
    (rest : List (Option String)) : Store :=
  let s := (s.setValue id first).getD s
  match s.parent id, s.label id with
  | some parent, some label => s.withSiblings parent label id rest
  | _, _ => s

end Store

/-! ## Sessions -/

namespace Session

/-- The node at a location of a path is `id`, in the session that is left when it was made if
missing. -/
inductive Reaches (s : Session) (path : Path) : Location → NodeId → Session → Prop
  | found (id : NodeId) : Reaches s path (.found id) id s
  | made {anchor id : NodeId} {i : Nat} {labels : List String} {store : Store}
    (hlabels : (path.steps.drop i).map Step.newLabel? = labels.map some)
    (hchain : s.store.Chain anchor labels id store) :
    Reaches s path (.missing anchor i) id ({ s with store }.touch id)

/-- A session without a node. -/
def without (s : Session) (id : NodeId) : Session :=
  { s.touch id with store := (s.store.remove id).2 }

/-- A session after a save. -/
def saved (s : Session) : Session :=
  let saves := if s.pending then s.saves + 1 else s.saves
  { s with
    store := (s.metaNode?.map fun node => Edit.recordSaves s.store node saves).getD s.store
    pending := false
    saves }

end Session

/-! ## What was reached -/

theorem Session.Reaches.reached {good : String → Prop} (h : s.Reaches path location id t)
    (hs : s.store.Rooted good) (hpath : path.Names good)
    (hlocation : s.locate path = .ok location) :
    Edit.Reached good s location id t := by
  have hstore := Session.locate_eq_ok hlocation
  have hroot := hs.wellFormed.contains_root
  cases h with
  | found => exact .found (hs.wellFormed.contains_of_locate_found hroot hstore)
  | @made anchor _ i labels store hlabels hchain =>
    obtain ⟨hc, hne, -⟩ := hs.wellFormed.of_locate_missing hroot hstore
    have hnonempty := Step.labels_ne_nil hne hlabels
    have hgood : ∀ l ∈ labels, good l := by
      intro l hl
      have hmem : some l ∈ (path.steps.drop i).map Step.newLabel? :=
        hlabels ▸ List.mem_map_of_mem hl
      obtain ⟨step, hstep, hlabel⟩ := List.mem_map.mp hmem
      exact hpath step (List.mem_of_mem_drop hstep) l hlabel
    obtain ⟨hrooted, hgrows, hfresh⟩ := hchain.grows hs hgood hc
    exact .made hc ⟨by simpa using hrooted, by simpa using hgrows, hfresh hnonempty⟩

namespace Edit

/-! ## Sequences -/

theorem run_bind_eq_ok {m : Edit α} {f : α → Edit β} {b : β}
    (h : (m >>= f).run.run s = (.ok b, t)) :
    ∃ a u, m.run.run s = (.ok a, u) ∧ (f a).run.run u = (.ok b, t) := by
  cases hm : m.run.run s with
  | mk r u =>
    cases r with
    | error err =>
      rw [run_bind_error hm] at h
      cases h
    | ok a =>
      rw [run_bind_ok hm] at h
      exact ⟨a, u, rfl, h⟩

/-- A question that was answered, and what came after it. -/
theorem run_ask_bind_eq_ok {question : Session → Except EngineError α} {f : α → Edit β} {b : β}
    (h : (ask question >>= f).run.run s = (.ok b, t)) :
    ∃ a, question s = .ok a ∧ (f a).run.run s = (.ok b, t) := by
  cases hq : question s with
  | error err =>
    rw [run_bind_error (run_ask_of_error hq)] at h
    cases h
  | ok a =>
    rw [run_bind_ok (run_ask_of_ok hq)] at h
    exact ⟨a, rfl, h⟩

/-- What fails after a question was it, or what came after its answer. -/
theorem run_ask_bind_eq_error {question : Session → Except EngineError α} {f : α → Edit β}
    {err : EngineError} (h : (ask question >>= f).run.run s = (.error err, t)) :
    question s = .error err ∨ ∃ a, question s = .ok a ∧ (f a).run.run s = (.error err, t) := by
  cases hq : question s with
  | error err' =>
    rw [run_bind_error (run_ask_of_error hq)] at h
    cases h
    exact .inl rfl
  | ok a =>
    rw [run_bind_ok (run_ask_of_ok hq)] at h
    exact .inr ⟨a, rfl, h⟩

/-! ## Making nodes -/

theorem chain_of_createBelow {steps : List Step}
    (h : (createBelow path anchor steps).run.run s = (.ok id, t)) :
    ∃ (labels : List String) (store : Store), steps.map Step.newLabel? = labels.map some ∧
      s.store.Chain anchor labels id store ∧ t = { s with store } := by
  induction steps generalizing s anchor with
  | nil =>
    cases h
    exact ⟨[], _, rfl, .nil _ _, rfl⟩
  | cons step rest ih =>
    unfold createBelow at h
    split at h
    · cases h
    · rename_i label hlabel
      rw [run_bind_ok (run_store s)] at h
      split at h
      · cases h
      · rename_i c store happend
        rw [run_bind_ok (run_setStore store s)] at h
        obtain ⟨labels, store', hlabels, hchain, rfl⟩ := ih h
        exact ⟨label :: labels, store', by simp [hlabel, hlabels], .cons happend hchain, rfl⟩

theorem reaches_of_run (h : (reach path location).run.run s = (.ok id, t)) :
    s.Reaches path location id t := by
  cases location with
  | found found =>
    cases h
    exact .found _
  | missing anchor i =>
    obtain ⟨c, u, hc, h⟩ := run_bind_eq_ok h
    obtain ⟨labels, store, hlabels, hchain, rfl⟩ := chain_of_createBelow hc
    rw [run_bind_ok (run_touch c _)] at h
    cases h
    exact .made hlabels hchain

/-! ## Values -/

theorem run_addSiblings (parent : NodeId) (label : String) (prev : NodeId)
    (values : List (Option String)) (s : Session) :
    (addSiblings parent label prev values).run.run s =
      (.ok (), { s with store := s.store.withSiblings parent label prev values }) := by
  induction values generalizing s prev with
  | nil => rfl
  | cons value rest ih =>
    unfold addSiblings Store.withSiblings
    rw [run_bind_ok (run_store s)]
    cases hi : s.store.insertChild parent
        (((s.store.indexInParent prev).map (· + 1)).getD (s.store.children parent).length)
          label with
    | none =>
      simp only [hi]
      rfl
    | some made =>
      simp only [hi]
      rw [run_bind_ok (run_setStore _ s), run_bind_ok (run_assign _ value _), ih]

theorem setMany_of_run {values : List (Option String)}
    (h : (setMany arg values).run.run s = (.ok n, t)) :
    ∃ first rest path location id u, values = first :: rest ∧ s.prepare arg = .ok path ∧
      s.locate path = .ok location ∧ location ≠ .found root ∧ s.Reaches path location id u ∧
      t = { u with store := u.store.withValues id first rest }.touch id := by
  cases values with
  | nil => cases h
  | cons first rest =>
    unfold setMany at h
    obtain ⟨path, hpath, h⟩ := run_ask_bind_eq_ok h
    obtain ⟨location, hlocation, h⟩ := run_ask_bind_eq_ok h
    dsimp only at h
    split at h
    · cases h
    · rename_i hroot
      obtain ⟨id, u, hreach, h⟩ := run_bind_eq_ok h
      refine ⟨first, rest, path, location, id, u, rfl, hpath, hlocation, hroot,
        reaches_of_run hreach, ?_⟩
      rw [run_bind_ok (run_assign id first u), run_bind_ok (run_store _)] at h
      unfold Store.withValues
      dsimp only at h ⊢
      generalize (u.store.setValue id first).getD u.store = store at h ⊢
      cases hp : store.parent id with
      | none =>
        simp only [hp] at h ⊢
        rw [run_bind_ok (run_touch id _)] at h
        cases h
        rfl
      | some parent =>
        cases hl : store.label id with
        | none =>
          simp only [hp, hl] at h ⊢
          rw [run_bind_ok (run_touch id _)] at h
          cases h
          rfl
        | some label =>
          simp only [hp, hl] at h ⊢
          rw [run_bind_ok (run_addSiblings parent label id rest _),
            run_bind_ok (run_touch id _)] at h
          cases h
          rfl

theorem set_of_run {value : Option String} (h : (set arg value).run.run s = (.ok (), t)) :
    ∃ n, (setMany arg [value]).run.run s = (.ok n, t) := by
  obtain ⟨n, u, hn, h⟩ := run_bind_eq_ok h
  cases h
  exact ⟨n, hn⟩

/-! ## Removing, moving and inserting -/

theorem removeAll_of_run {ids : List NodeId} (h : (removeAll ids).run.run s = (.ok n, t)) :
    t = ids.foldl Session.without s := by
  induction ids generalizing s n with
  | nil =>
    cases h
    rfl
  | cons id rest ih =>
    unfold removeAll at h
    rw [run_bind_ok (run_touch id s), run_bind_ok (run_store _)] at h
    dsimp only at h
    rw [run_bind_ok (run_setStore _ _)] at h
    obtain ⟨m, u, hm, h⟩ := run_bind_eq_ok h
    cases h
    rw [Session.store_touch] at hm
    exact ih hm

theorem remove_of_run (h : (remove arg).run.run s = (.ok n, t)) :
    ∃ path, s.prepareExisting arg = .ok path ∧ root ∉ s.resolve path ∧
      t = (s.resolve path).foldl Session.without s := by
  obtain ⟨path, hpath, h⟩ := run_ask_bind_eq_ok h
  rw [run_bind_ok (run_get s)] at h
  dsimp only at h
  split at h
  · cases h
  · rename_i hroot
    exact ⟨path, hpath, by simpa using hroot, removeAll_of_run h⟩

theorem move_of_run {src dst : PathArg} (h : (move src dst).run.run s = (.ok (), t)) :
    ∃ srcPath dstPath node location target u, s.prepareExisting src = .ok srcPath ∧
      s.prepare dst = .ok dstPath ∧ s.resolve srcPath = [node] ∧ s.locate dstPath = .ok location ∧
      node ≠ root ∧ location ≠ .found root ∧ leadsInto s.store node location = false ∧
      s.Reaches dstPath location target u ∧
      t = { u.touch node with store := u.store.takePlace node target }.touch node := by
  obtain ⟨srcPath, hsrc, h⟩ := run_ask_bind_eq_ok h
  obtain ⟨dstPath, hdst, h⟩ := run_ask_bind_eq_ok h
  obtain ⟨node, hnode, h⟩ := run_ask_bind_eq_ok h
  obtain ⟨location, hlocation, h⟩ := run_ask_bind_eq_ok h
  dsimp only at h
  split at h
  · cases h
  · rename_i hroots
    rw [not_or] at hroots
    rw [run_bind_ok (run_store s)] at h
    split at h
    · cases h
    · rename_i hinto
      obtain ⟨target, u, htarget, h⟩ := run_bind_eq_ok h
      rw [run_replace] at h
      cases h
      exact ⟨srcPath, dstPath, node, location, target, u, hsrc, hdst,
        Session.resolveSingle_eq_ok hnode, hlocation, hroots.1, hroots.2, by simpa using hinto,
        reaches_of_run htarget, rfl⟩

theorem insert_of_run {label : String} {before : Bool} (hs : s.store.WellFormed)
    (h : (insert arg label before).run.run s = (.ok (), t)) :
    ∃ path sibling p i id store, s.prepareExisting arg = .ok path ∧ s.resolve path = [sibling] ∧
      s.store.parent sibling = some p ∧ s.store.indexInParent sibling = some i ∧
      s.store.insertChild p (if before then i else i + 1) label = some (id, store) ∧
      t = { s with store }.touch id := by
  unfold insert at h
  dsimp only at h
  split at h
  · cases h
  · obtain ⟨path, hpath, h⟩ := run_ask_bind_eq_ok h
    obtain ⟨sibling, hsibling, h⟩ := run_ask_bind_eq_ok h
    rw [run_bind_ok (run_store s)] at h
    split at h
    · rename_i p i hp hi
      obtain ⟨id, store, hins⟩ := Store.insertChild_isSome (if before then i else i + 1) label
        (hs.contains_of_parent hp)
      rw [hins] at h
      dsimp only at h
      rw [run_bind_ok (run_setStore store s), run_touch] at h
      cases h
      exact ⟨path, sibling, p, i, id, store, hpath, Session.resolveSingle_eq_ok hsibling, hp, hi,
        hins, rfl⟩
    · cases h

/-! ## Saving and loading -/

theorem save_of_run {mode : SaveMode} (h : save.run.run s = (.ok mode, t)) : t = s.saved := by
  obtain ⟨m, hm, h⟩ := run_ask_bind_eq_ok h
  rw [run_bind_ok (run_modify _ s), run_bind_ok (run_get _)] at h
  -- counting a save does not touch the tree, so the meta node is the same after it
  obtain ⟨counted, hcounted⟩ : ∃ u : Session,
      (if s.pending then { s with saves := s.saves + 1 } else s) = u :=
    ⟨_, rfl⟩
  have hsaved : s.saved = { counted with
      store := (counted.metaNode?.map fun node => recordSaves counted.store node counted.saves).getD
        counted.store
      pending := false } := by
    rw [← hcounted, Session.saved]
    cases s.pending <;> rfl
  rw [hsaved]
  dsimp only at h
  rw [hcounted] at h
  cases hnode : counted.metaNode? with
  | none =>
    simp only [hnode] at h
    cases h
    rfl
  | some node =>
    simp only [hnode] at h
    rw [run_bind_ok (run_setStore _ _)] at h
    cases h
    rfl

theorem load_of_run {source : Snapshot} (h : (load arg source).run.run s = (.ok n, t)) :
    source.firstBadLabel = none ∧ ∃ path location id u, s.prepare arg = .ok path ∧
      s.locate path = .ok location ∧ s.Reaches path location id u ∧
      (source.value.isSome = true → id ≠ root) ∧
      t = { u with store := ((valued u.store id source).graft id source).2 }.touch id := by
  unfold load at h
  split at h
  · cases h
  · rename_i hlabels
    obtain ⟨path, hpath, h⟩ := run_ask_bind_eq_ok h
    obtain ⟨location, hlocation, h⟩ := run_ask_bind_eq_ok h
    obtain ⟨id, u, hid, h⟩ := run_bind_eq_ok h
    refine ⟨hlabels, path, location, id, u, hpath, hlocation, reaches_of_run hid, ?_⟩
    unfold valued
    dsimp only at h
    split at h
    · rename_i hsome
      split at h
      · cases h
      · rename_i hroot
        rw [run_bind_ok (run_assign id source.value u)] at h
        cases h
        exact ⟨fun _ => hroot, by rw [if_pos hsome]⟩
    · rename_i hnone
      cases h
      exact ⟨fun hsome => absurd hsome hnone, by rw [if_neg hnone]⟩

end Edit

end LabelTree
