import LabelTree.Proofs.Resolve.Deepest
import LabelTree.Proofs.Resolve.Unchanged
import LabelTree.Proofs.Session.Chains
import LabelTree.Proofs.Session.Read
import LabelTree.Proofs.Session.Writes

/-!
# Session — the path that a node was made for

Each node of a chain is the one that its step selects: the first because its step selected none
before, or the position after those there were, and each other because it has no siblings. So a path
of labels and positions leads to the node that was made for it (`Chain.resolve_eq`), and a value
written to it is read and written there again.
-/

namespace LabelTree

open Store (root)

namespace Store

variable {s t : Store} {c id p anchor context : NodeId} {i : Nat} {l : String}
    {labels : List String}
  {step : Step} {steps : List Step} {path : Path}

theorem siblingsMet_of_leaf (h : s.children p = []) (k : Nat) : s.siblingsMet p k = fun _ => 0 := by
  cases k with
  | zero =>
    funext label
    rw [siblingsMet, countLabelled, h, List.countP_nil]
  | succ k => rfl

theorem advance_of_leaf (hstep : step.Literal) (h : s.children p = []) :
    s.advance [p] step = [] := by
  rw [List.eq_nil_iff_forall_not_mem]
  intro c hc
  obtain ⟨q, hq, hc⟩ := hstep.exists_parent hc
  rw [List.mem_singleton.mp hq, h] at hc
  cases hc

/-- A child that was made after those with its label is the one that its step selects. -/
theorem candidates_of_made (hstep : step.Literal) (hmake : step.Creatable (s.countLabelled p))
    (hnone : s.advance [p] step = []) (hlabel : step.newLabel? = some l)
    (h : t.labelled p l = s.labelled p l ++ [c]) : t.candidates step p = [c] := by
  rw [hstep.advance_eq, List.flatMap_singleton] at hnone
  cases hmake with
  | append label offset => cases hstep
  | plain label =>
    cases hlabel
    rw [candidates_plain] at hnone ⊢
    rw [h, hnone, List.nil_append]
  | position label =>
    cases hlabel
    have hcount : s.countLabelled p l = (s.labelled p l).length := List.countP_eq_length_filter
    rw [candidates_position, h, narrow, hcount, List.getElem?_concat_length]
    rfl

namespace Chain

theorem foldl_advance (h : s.Chain p labels id t) (hs : s.WellFormed)
    (hlabels : steps.map Step.newLabel? = labels.map some) (hsteps : ∀ step ∈ steps, step.Literal)
    (hmake : s.CanMake p steps) (hnone : ∀ step ∈ steps.head?, s.advance [p] step = []) :
    steps.foldl t.advance [p] = [id] := by
  induction h generalizing steps with
  | nil s p =>
    cases List.map_eq_nil_iff.mp hlabels
    rfl
  | @cons s s' t p c id label rest happend hrest ih =>
    obtain ⟨step, later, rfl, hlabel, hlater⟩ := List.map_eq_cons_iff.mp hlabels
    have hstep := hsteps step List.mem_cons_self
    obtain ⟨left, right, hends, hmade⟩ := hs.splices_appendAfterLabel happend
    have hs' := hmade.extends_p.wellFormed
    have hleaf := hmade.leaf c List.mem_cons_self
    have hpc : p ≠ c := (hmade.ne_p List.mem_cons_self).symm
    -- what is made later is below the new node
    have hlabelled : t.labelled p label = s.labelled p label ++ [c] := by
      rw [(hrest.extends_p hs').labelled hs' (hmade.extends_p.contains p hmade.contains_p) hpc,
        (hmade.writesLast hs hends).labelled]
    have hfirst : t.advance [p] step = [c] := by
      rw [hstep.advance_eq, List.flatMap_singleton]
      exact candidates_of_made hstep (hmake 0 step rfl) (hnone step rfl) hlabel hlabelled
    rw [List.foldl_cons, hfirst]
    refine ih hs' hlater (fun step hstep => hsteps step (List.mem_cons_of_mem _ hstep)) ?_ ?_
    · intro k step hk
      rw [siblingsMet_of_leaf hleaf]
      exact hmake (k + 1) step hk
    · intro step hstep
      exact advance_of_leaf (hsteps step (List.mem_cons_of_mem _ (List.mem_of_head? hstep))) hleaf

/-- A path of labels and positions leads to the node that was made for it. -/
theorem resolve_eq (h : s.Chain anchor labels id t) (hs : s.WellFormed)
    (hc : s.contains context = true) (hlocate : s.locate path context = .ok (.missing anchor i))
    (hlabels : (path.steps.drop i).map Step.newLabel? = labels.map some)
    (hsteps : ∀ step ∈ path.steps, step.Literal) : t.resolve path context = [id] := by
  obtain ⟨done, step, rest, hsplit, hi, hdone, hnone, hfault⟩ := locateFrom_eq_missing hlocate
  rw [hsplit] at hsteps
  have hdrop : path.steps.drop i = step :: rest := by
    rw [hsplit, hi, Nat.zero_add, List.drop_left]
  rw [hdrop] at hlabels
  have hdoneLiteral : ∀ step ∈ done, step.Literal := fun step hstep =>
    hsteps step (List.mem_append_left _ hstep)
  have hstart : ∀ node ∈ [start path context], s.contains node = true := by
    intro node hnode
    rw [List.mem_singleton.mp hnode]
    exact hs.contains_start path hc
  have hdepth : (s.lineage anchor).length =
      (s.lineage (start path context)).length + done.length :=
    length_lineage_of_mem_foldl hs hdoneLiteral
      (fun node hnode => by rw [List.mem_singleton.mp hnode]) (by simp [hdone])
  have hbefore : done.foldl t.advance [start path context] = [anchor] := by
    rw [foldl_advance_of_extends (h.extends_p hs) hs hdoneLiteral hstart (by simp [hdepth]), hdone]
  rw [resolve, hsplit, List.foldl_append, hbefore]
  refine h.foldl_advance hs hlabels (fun step hstep => hsteps step (List.mem_append_right _ hstep))
    (firstFault?_eq_none_iff.mp hfault) ?_
  simpa using hnone

end Chain

end Store

/-! ## Writing once more -/

namespace Store

variable {s : Store} {id : NodeId} {v : Option String}

/-- Giving a node the value that it has changes nothing. -/
theorem setValue_value (h : s.contains id = true) (hv : s.value id = v) :
    s.setValue id v = some s := by
  obtain ⟨n, hn⟩ := contains_iff.mp h
  obtain rfl : n.value = v := by rwa [value, hn] at hv
  rw [Store.setValue, if_pos h, modifyNode, Option.some.injEq]
  obtain ⟨slots, free⟩ := s
  congr 1
  refine Array.ext_getElem? fun k => ?_
  rw [Array.getElem?_modify]
  split
  · rename_i hk
    rw [← hk, node?_eq_some_iff.mp hn]
    simp
  · rfl

theorem withValues_nil (s : Store) (id : NodeId) (v : Option String) :
    s.withValues id v [] = (s.setValue id v).getD s := by
  unfold withValues
  dsimp only
  split <;> rfl

end Store

namespace Session

variable {s t u : Session} {path : Path} {arg : PathArg} {id : NodeId} {v : Option String}

@[simp] theorem touch_touch (s : Session) (id : NodeId) : (s.touch id).touch id = s.touch id := by
  by_cases h : s.inMeta id = true
  · simp [touch, h]
  · have hsame : ({ s with pending := true } : Session).inMeta id = s.inMeta id := rfl
    simp [touch, h, hsame]

theorem locate_of_resolve (h : s.resolve path = [id]) : s.locate path = .ok (.found id) := by
  rw [locate, Store.locate_eq_found_iff.mpr h]
  rfl

/-- That a path leads to one node, which has the value and whose last change is marked. -/
structure Shows (t : Session) (path : Path) (id : NodeId) (v : Option String) : Prop where
  resolve : t.resolve path = [id]
  contains : t.store.contains id = true
  ne_root : id ≠ root
  value : t.store.value id = v
  touch : t.touch id = t

/-- A path that compares no values leads to the same node once a value was written to it. -/
theorem shows_of_written (hid : u.resolve path = [id]) (hc : u.store.contains id = true)
    (hroot : id ≠ root) (hsteps : ∀ step ∈ path.steps, step.comparesValues = false)
    (v : Option String) :
    ({ u with store := u.store.withValues id v [] }.touch id).Shows path id v := by
  obtain ⟨store, hstore⟩ := Store.exists_setValue v hc
  have hset := Store.setsValue hstore
  rw [Store.withValues_nil, hstore, Option.getD_some]
  constructor
  case resolve =>
    rw [Session.resolve, store_touch]
    exact (Store.resolve_congr hset.shape hset.label hsteps root).trans hid
  case contains =>
    rw [store_touch, hset.shape.contains]
    exact hc
  case ne_root => exact hroot
  case value => rw [store_touch, hset.value, if_pos rfl]
  case touch => exact touch_touch _ id

namespace Shows

theorem run_setMany (h : t.Shows path id v) (hpath : t.prepare arg = .ok path) :
    (Edit.setMany arg [v]).run.run t = (.ok 1, t) := by
  have hlocation := locate_of_resolve h.resolve
  have hroot : Location.found id ≠ .found root := by simpa using h.ne_root
  rw [Edit.run_setMany hpath hlocation hroot (.found id) v [], Store.withValues_nil,
    Store.setValue_value h.contains h.value]
  exact congrArg (Prod.mk _) h.touch

theorem get_eq (h : t.Shows path id v) (hpath : t.prepareExisting arg = .ok path) :
    t.get arg = .ok v := by
  rw [get_of_resolve hpath h.resolve, h.value]

end Shows

variable {n : Nat}

/-- A node that a path without comparisons leads to is written. -/
theorem run_setMany_of_resolve (hpath : s.prepare arg = .ok path) (hid : s.resolve path = [id])
    (hc : s.store.contains id = true) (hroot : id ≠ root)
    (hsteps : ∀ step ∈ path.steps, step.comparesValues = false) (v : Option String) :
    ∃ t, (Edit.setMany arg [v]).run.run s = (.ok 1, t) ∧ t.Shows path id v := by
  have hlroot : Location.found id ≠ .found root := by simpa using hroot
  exact ⟨_, Edit.run_setMany hpath (locate_of_resolve hid) hlroot (.found id) v [],
    shows_of_written hid hc hroot hsteps v⟩

/-- A path of labels and positions shows the value that was written to it, be it to a node that was
there or to one that was made. -/
theorem exists_shows_of_run (hs : s.store.Rooted fun _ => True) (hpath : s.prepare arg = .ok path)
    (hsteps : ∀ step ∈ path.steps, step.Literal)
    (h : (Edit.setMany arg [v]).run.run s = (.ok n, t)) : ∃ id, t.Shows path id v := by
  obtain ⟨_, _, path', location, id, u, heq, hpath', hlocation, hroot, hreach, rfl⟩ :=
    Edit.setMany_of_run h
  cases heq
  cases hpath.symm.trans hpath'
  have hcompares : ∀ step ∈ path.steps, step.comparesValues = false := fun step hstep =>
    (hsteps step hstep).comparesValues
  have hplace : u.store.contains id = true ∧ id ≠ root := by
    cases hreach.reached hs (fun _ _ _ _ => trivial) hlocation with
    | found hc => exact ⟨hc, fun heq => hroot (congrArg Location.found heq)⟩
    | made _ hmakes => exact ⟨hmakes.grows.contains_id, hmakes.ne_root hs⟩
  have hid : u.resolve path = [id] := by
    have hstore := locate_eq_ok hlocation
    cases hreach with
    | found => exact Store.resolve_of_locate_found hstore
    | made hlabels hchain =>
      rw [Session.resolve, store_touch]
      exact hchain.resolve_eq hs.wellFormed hs.wellFormed.contains_root hstore hlabels hsteps
  exact ⟨id, shows_of_written hid hplace.1 hplace.2 hcompares v⟩

end Session

end LabelTree
