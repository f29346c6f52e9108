import LabelTree.Proofs.Path.Labels
import LabelTree.Proofs.Resolve.Locate
import LabelTree.Proofs.Session.Prepare
import LabelTree.Proofs.Session.Run
import LabelTree.Proofs.Store.Grow
import LabelTree.Proofs.Store.Rooted

/-!
# Session — making the missing steps of a path

A location tells all that can go wrong: the anchor is a node and every missing step names a label,
so making the steps yields a node (`reach_yields`). That is why the operations that make nodes can
do so before anything else and still fail without a trace.
-/

namespace LabelTree

variable {good : String → Prop} {s : Session} {path : Path} {arg : PathArg} {location : Location}

@[simp] theorem Session.store_touch (s : Session) (id : NodeId) : (s.touch id).store = s.store := by
  rw [touch]
  split <;> rfl

/-! ## Path arguments -/

/-- That the steps of a compiled argument make nodes with good labels only. -/
def PathArg.Names (good : String → Prop) : PathArg → Prop
  | .text _ => True
  | .compiled path => path.Names good

theorem PathArg.names_any (arg : PathArg) : arg.Names fun _ => True := by
  cases arg with
  | text text => trivial
  | compiled path => exact fun _ _ _ _ => trivial

namespace Session

theorem names_of_compileArg (hgood : ∀ l, l ≠ "" → good l) (harg : arg.Names good)
    (h : compileArg arg = .ok path) : path.Names good := by
  cases arg with
  | compiled p =>
    cases h
    exact harg
  | text text => exact Path.names_of_compile hgood (compileArg_text_eq_ok_iff.mp h)

theorem names_of_anchor (hgood : ∀ l, l ≠ "" → good l) {p : Path} (hp : p.Names good)
    (h : s.anchor p = .ok path) : path.Names good := by
  rcases anchor_eq_ok_iff.mp h with ⟨-, rfl⟩ | ⟨-, base, hbase, rfl⟩
  · exact hp
  · exact hp.rebase (Path.names_of_compile hgood hbase)

theorem names_of_prepare (hgood : ∀ l, l ≠ "" → good l) (harg : arg.Names good)
    (h : s.prepare arg = .ok path) : path.Names good := by
  obtain ⟨own, hown, hanchor⟩ := prepare_eq_ok_iff.mp h
  exact names_of_anchor hgood (names_of_compileArg hgood harg hown) hanchor

/-! ## Locations -/

theorem locate_eq_ok (h : s.locate path = .ok location) :
    s.store.locate path Store.root = .ok location := by
  rw [locate] at h
  cases hl : s.store.locate path Store.root with
  | error e => rw [hl] at h; cases h
  | ok l =>
    rw [hl] at h
    cases h
    rfl

theorem resolveSingle_eq_ok {id : NodeId} (h : s.resolveSingle path = .ok id) :
    s.resolve path = [id] := by
  rw [resolveSingle] at h
  split at h
  · cases h
  · rename_i hr
    cases h
    exact hr
  · cases h

theorem contains_of_resolve_eq {id : NodeId} (hs : s.store.WellFormed) (h : s.resolve path = [id]) :
    s.store.contains id = true := by
  refine hs.contains_of_mem_resolve path hs.contains_root ?_
  show id ∈ s.resolve path
  rw [h]
  exact List.mem_singleton_self id

end Session

/-! ## Making nodes -/

namespace Edit

/-- What a session has gained when a chain of nodes that ends in `id` was made below `anchor`. -/
structure Makes (good : String → Prop) (s : Session) (anchor id : NodeId) (t : Session) : Prop where
  rooted : t.store.Rooted good
  grows : s.store.Grows anchor id t.store
  /-- The last node is new. -/
  fresh : s.store.contains id = false

theorem Makes.ne_root {anchor id : NodeId} {t : Session} (h : Makes good s anchor id t)
    (hs : s.store.Rooted good) : id ≠ Store.root :=
  (Store.ne_of_contains hs.wellFormed.contains_root h.fresh).symm

theorem createBelow_yields {steps : List Step} {anchor : NodeId} (path : Path)
    (hs : s.store.Rooted good) (hp : s.store.contains anchor = true) (hne : steps ≠ [])
    (hsteps : ∀ step ∈ steps, ∃ l, step.newLabel? = some l ∧ good l) :
    Yields (createBelow path anchor steps) s fun id t => Makes good s anchor id t := by
  induction steps generalizing s anchor with
  | nil => exact absurd rfl hne
  | cons step rest ih =>
    obtain ⟨l, hl, hgood⟩ := hsteps step List.mem_cons_self
    obtain ⟨id, store, hi⟩ :=
      Store.insertChild_isSome (s.store.indexAfterLabel anchor l) l hp
    have hins := hs.wellFormed.freeExact.inserts hi
    have hrooted := hs.insertChild hgood hi
    have hgrows := Store.Grows.of_inserts hs.wellFormed hrooted.wellFormed hins
    have happend : s.store.appendAfterLabel anchor l = some (id, store) := hi
    unfold createBelow
    rw [hl]
    refine Yields.step (run_store s) ?_
    simp only [happend]
    refine Yields.step (run_setStore store s) ?_
    cases rest with
    | nil => exact Yields.pure ⟨hrooted, hgrows, hins.fresh⟩
    | cons next rest =>
      have hlater := fun x hx => hsteps x (List.mem_cons_of_mem step hx)
      refine Yields.mono (ih hrooted hgrows.contains_id (by simp) hlater) fun last t h => ?_
      -- a node of the first store would be one of the second, to which the last node is new
      refine ⟨h.rooted, hgrows.trans h.grows, ?_⟩
      rw [← Bool.not_eq_true]
      intro hold
      have hlast := h.fresh
      rw [hgrows.contains last hold] at hlast
      cases hlast

theorem create_yields {anchor : NodeId} {i : Nat} (hs : s.store.Rooted good)
    (hp : s.store.contains anchor = true) (hne : path.steps.drop i ≠ [])
    (hsteps : ∀ step ∈ path.steps.drop i, ∃ l, step.newLabel? = some l ∧ good l) :
    Yields (create path anchor i) s fun id t => Makes good s anchor id t := by
  refine Yields.bind (createBelow_yields path hs hp hne hsteps) fun id t h => ?_
  refine Yields.step (run_touch id t) (Yields.pure ?_)
  exact ⟨by simpa using h.rooted, by simpa using h.grows, h.fresh⟩

/-- What a session is after the node at a location was reached: itself, or with a new chain. -/
inductive Reached (good : String → Prop) (s : Session) : Location → NodeId → Session → Prop
  | found {id : NodeId} : s.store.contains id = true → Reached good s (.found id) id s
  | made {anchor id : NodeId} {i : Nat} {t : Session} : s.store.contains anchor = true →
      Makes good s anchor id t → Reached good s (.missing anchor i) id t

/-- What was reached is a place for a node that it does not lead into. -/
theorem Reached.place {node id : NodeId} {t : Session} (h : Reached good s location id t)
    (hs : s.store.Rooted good) (hnode : s.store.contains node = true)
    (hroot : location ≠ .found Store.root) (hinto : leadsInto s.store node location = false) :
    t.store.Rooted good ∧ t.store.contains node = true ∧ id ≠ Store.root ∧
      t.store.contains id = true ∧ t.store.isWithin id node = false := by
  cases h with
  | found hc => exact ⟨hs, hnode, fun hid => hroot (congrArg Location.found hid), hc, hinto⟩
  | made hc hm =>
    refine ⟨hm.rooted, hm.grows.contains node hnode, hm.ne_root hs, hm.grows.contains_id, ?_⟩
    -- the new place is not below the node, because its anchor is not
    rw [hm.grows.isWithin node hnode]
    exact hinto

/-- The node at a location of a path is reached, whatever has to be made for it. -/
theorem reach_yields (hs : s.store.Rooted good) (hpath : path.Names good)
    (hloc : s.locate path = .ok location) :
    Yields (reach path location) s fun id t => Reached good s location id t := by
  have hstore := Session.locate_eq_ok hloc
  have hroot := hs.wellFormed.contains_root
  cases location with
  | found id => exact Yields.pure (.found (hs.wellFormed.contains_of_locate_found hroot hstore))
  | missing anchor i =>
    obtain ⟨hc, hne, hlabels⟩ := hs.wellFormed.of_locate_missing hroot hstore
    refine Yields.mono (create_yields hs hc hne fun step hstep => ?_) fun id t h => .made hc h
    obtain ⟨l, hl⟩ := hlabels step hstep
    exact ⟨l, hl, hpath step (List.mem_of_mem_drop hstep) l hl⟩

end Edit

end LabelTree
