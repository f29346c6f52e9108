import LabelTree.Checked.Edit
import LabelTree.Proofs.Checked.Agreement
import LabelTree.Proofs.Checked.Session
import LabelTree.Proofs.Session.Create

/-!
# Partial steps — editing a session

Edits have no undefined step on a session whose store has an exact free list (`Sound`), which each
of their changes keeps. The point from which nodes are made is one where a path was left, so it is
among the steps of the path (`Fits`).
-/

namespace LabelTree

theorem Store.FreeExact.findOrAppend {s t : Store} {parent id : NodeId} {label : String}
    (hs : s.FreeExact) (h : s.findOrAppend parent label = some (id, t)) : t.FreeExact := by
  rw [Store.findOrAppend] at h
  split at h
  · cases h
    exact hs
  · exact FreeExact.kept.insertChild hs h

namespace Checked

variable {α β : Type} {s : Store}

/-- Whether the steps that a location leaves to be made are among those of a path. -/
def Fits (path : Path) : Location → Prop
  | .found _ => True
  | .missing _ i => i ≤ path.steps.length

theorem fits_of_locate {s : Session} {location : Location} (h : s.locate path = .ok location) :
    Fits path location := by
  cases location with
  | found id => trivial
  | missing anchor i =>
    obtain ⟨done, step, rest, hsteps, hi, -⟩ :=
      Store.locateFrom_eq_missing (Session.locate_eq_ok h)
    rw [Fits, hsteps, List.length_append, hi]
    omega

/-- What an edit needs of the session that it runs on. -/
def Sound (s : Session) : Prop :=
  s.store.FreeExact

namespace Edit

variable {P : α → Prop} {Q : β → Prop}

/-! ## Single steps -/

theorem agrees_lift {m : LabelTree.Edit α}
    (h : ∀ s, Sound s → Sound (m.run.run s).2 ∧ ∀ a, (m.run.run s).1 = .ok a → P a) :
    Agrees Sound P (lift m) m :=
  fun s hs => ⟨rfl, h s hs⟩

theorem agrees_ask {question : Session → Answer α} {model : Session → Except EngineError α}
    (h : ∀ s, question s = answered (model s)) (hP : ∀ s a, model s = .ok a → P a) :
    Agrees Sound P (ask question) (LabelTree.Edit.ask model) := by
  intro s hs
  have hrun : (ask question).run.run s = some (model s, s) := by
    show (question s).run.bind _ = _
    rw [h s]
    rfl
  rw [hrun]
  cases hm : model s with
  | error e =>
    rw [LabelTree.Edit.run_ask_of_error hm]
    exact ⟨rfl, hs, fun _ h => nomatch h⟩
  | ok a =>
    rw [LabelTree.Edit.run_ask_of_ok hm]
    refine ⟨rfl, hs, fun b hb => ?_⟩
    cases hb
    exact hP s a hm

theorem mirrors_ask {question : Session → Answer α} {model : Session → Except EngineError α}
    (h : ∀ s, question s = answered (model s)) :
    Mirrors Sound (ask question) (LabelTree.Edit.ask model) :=
  agrees_ask h fun _ _ _ => trivial

/-- Where a path is left is known when the steps from there on are sliced off. -/
theorem agrees_locate (path : Path) :
    Agrees Sound (Fits path) (ask (locateNode · path)) (LabelTree.Edit.ask (·.locate path)) :=
  agrees_ask (locateNode_eq · path) fun _ _ => fits_of_locate

/-- Without partial steps the nodes of a path are read off the session. -/
theorem agrees_resolve {f : List NodeId → Edit β} {g : Session → LabelTree.Edit β} {path : Path}
    (h : ∀ s : Session, Agrees Sound Q (f (s.resolve path)) (g s)) :
    Agrees Sound Q (ask (resolveNodes · path) >>= f) (get >>= g) := by
  intro s hs
  have hc : (ask (resolveNodes · path) >>= f).run.run s = (f (s.resolve path)).run.run s := by
    show ((resolveNodes s path).run.bind _).bind _ = _
    rw [resolveNodes_eq]
    rfl
  rw [hc]
  exact h s s hs

/-- A partial step inside its domain is its outcome. -/
theorem perform_bind (a : α) (f : α → Edit β) : perform (some a) >>= f = f a :=
  rfl

theorem agrees_get : Agrees Sound Sound (lift get) get :=
  agrees_lift fun s hs => ⟨hs, fun a ha => by cases ha; exact hs⟩

theorem mirrors_modify {g : Session → Session} (h : ∀ s, Sound s → Sound (g s)) :
    Mirrors Sound (lift (modify g)) (modify g) :=
  agrees_lift fun s hs => ⟨h s hs, fun _ _ => trivial⟩

theorem agrees_store : Agrees Sound Store.FreeExact store LabelTree.Edit.store :=
  agrees_lift fun s hs => ⟨hs, fun a ha => by cases ha; exact hs⟩

theorem mirrors_setStore {t : Store} (ht : t.FreeExact) :
    Mirrors Sound (setStore t) (LabelTree.Edit.setStore t) :=
  agrees_lift fun _ _ => ⟨ht, fun _ _ => trivial⟩

theorem mirrors_touch (id : NodeId) :
    Mirrors Sound (touch id) (LabelTree.Edit.touch id) := by
  refine agrees_lift fun s hs => ⟨?_, fun _ _ => trivial⟩
  rw [LabelTree.Edit.run_touch, Sound, Session.store_touch]
  exact hs

theorem mirrors_assign (id : NodeId) (value : Option String) :
    Mirrors Sound (assign id value) (LabelTree.Edit.assign id value) := by
  refine agrees_lift fun s hs => ⟨?_, fun _ _ => trivial⟩
  rw [LabelTree.Edit.run_assign]
  exact Store.getD_keeps hs fun _ => Store.FreeExact.kept.setValue hs

/-! ## Making nodes -/

theorem mirrors_createBelow (path : Path) (parent : NodeId) (steps : List Step) :
    Mirrors Sound (createBelow path parent steps)
      (LabelTree.Edit.createBelow path parent steps) := by
  induction steps generalizing parent with
  | nil => exact .pure trivial
  | cons step steps ih =>
    rw [createBelow, LabelTree.Edit.createBelow]
    cases step.newLabel? with
    | none => exact .throw _
    | some label =>
      refine agrees_store.bind fun t ht => ?_
      rw [appendAfterLabel_eq ht, perform_bind]
      cases ha : t.appendAfterLabel parent label with
      | none => exact .throw _
      | some made =>
        obtain ⟨id, u⟩ := made
        exact (mirrors_setStore (Store.FreeExact.kept.insertChild ht ha)).bind fun _ _ => ih id

theorem mirrors_create {path : Path} {i : Nat} (h : i ≤ path.steps.length) (anchor : NodeId) :
    Mirrors Sound (create path anchor i) (LabelTree.Edit.create path anchor i) := by
  rw [create, dropFrom_of_le h, perform_bind]
  exact (mirrors_createBelow path anchor _).bind fun id _ =>
    (mirrors_touch id).bind fun _ _ => .pure trivial

theorem mirrors_reach {path : Path} {location : Location} (h : Fits path location) :
    Mirrors Sound (reach path location) (LabelTree.Edit.reach path location) := by
  cases location with
  | found id => exact .pure trivial
  | missing anchor i => exact mirrors_create h anchor

/-! ## Values -/

theorem mirrors_addSiblings (parent : NodeId) (label : String) (prev : NodeId)
    (values : List (Option String)) :
    Mirrors Sound (addSiblings parent label prev values)
      (LabelTree.Edit.addSiblings parent label prev values) := by
  induction values generalizing prev with
  | nil => exact .pure trivial
  | cons value values ih =>
    rw [addSiblings, LabelTree.Edit.addSiblings]
    refine agrees_store.bind fun t ht => ?_
    dsimp only
    rw [insertChild_eq ht, perform_bind]
    generalize ((t.indexInParent prev).map (· + 1)).getD (t.children parent).length = index
    cases ha : t.insertChild parent index label with
    | none => exact .pure trivial
    | some made =>
      obtain ⟨id, u⟩ := made
      exact (mirrors_setStore (Store.FreeExact.kept.insertChild ht ha)).bind fun _ _ =>
        (mirrors_assign id value).bind fun _ _ => ih id

theorem mirrors_setMany (arg : PathArg) (values : List (Option String)) :
    Mirrors Sound (setMany arg values) (LabelTree.Edit.setMany arg values) := by
  cases values with
  | nil => exact .throw _
  | cons first rest =>
    rw [setMany, LabelTree.Edit.setMany]
    refine (mirrors_ask (prepare_eq · arg)).bind fun path _ => ?_
    refine (agrees_locate path).bind fun location hfits => ?_
    split
    · exact .throw_bind
    · refine (mirrors_reach hfits).bind fun id _ => (mirrors_assign id first).bind fun _ _ => ?_
      refine agrees_store.bind fun t _ => ?_
      have hend : Mirrors Sound
          (touch id >>= fun _ => pure (first :: rest).length)
          (LabelTree.Edit.touch id >>= fun _ => pure (first :: rest).length) :=
        (mirrors_touch id).map _
      cases t.parent id with
      | none => exact hend
      | some parent =>
        cases t.label id with
        | none => exact hend
        | some label => exact (mirrors_addSiblings parent label id rest).bind fun _ _ => hend

theorem mirrors_set (arg : PathArg) (value : Option String) :
    Mirrors Sound (set arg value) (LabelTree.Edit.set arg value) :=
  (mirrors_setMany arg [value]).bind fun _ _ => .pure trivial

/-! ## Removing, moving and inserting -/

theorem mirrors_removeAll (ids : List NodeId) :
    Mirrors Sound (removeAll ids) (LabelTree.Edit.removeAll ids) := by
  induction ids with
  | nil => exact .pure trivial
  | cons id ids ih =>
    rw [removeAll, LabelTree.Edit.removeAll]
    refine (mirrors_touch id).bind fun _ _ => agrees_store.bind fun t ht => ?_
    rw [remove_eq, perform_bind]
    exact (mirrors_setStore (Store.FreeExact.kept.remove id ht)).bind fun _ _ =>
      ih.bind fun _ _ => .pure trivial

theorem mirrors_remove (arg : PathArg) :
    Mirrors Sound (remove arg) (LabelTree.Edit.remove arg) := by
  rw [remove, LabelTree.Edit.remove]
  refine (mirrors_ask (prepareExisting_eq · arg)).bind fun path _ => ?_
  refine agrees_resolve fun s => ?_
  dsimp only
  split
  · exact .throw_bind
  · exact mirrors_removeAll (s.resolve path)

theorem mirrors_replace (node target : NodeId) :
    Mirrors Sound (replace node target) (LabelTree.Edit.replace node target) := by
  rw [replace, LabelTree.Edit.replace]
  refine agrees_store.bind fun t _ => (mirrors_touch node).bind fun _ _ => ?_
  refine agrees_store.bind fun t ht => ?_
  dsimp only
  -- detached, removed, attached: each store on the way has an exact free list
  rw [detach_eq, perform_bind]
  have hdetached : (((t.detach node).map Prod.snd).getD t).FreeExact :=
    Store.getD_map_keeps ht fun _ _ => Store.FreeExact.kept.detach ht
  generalize ((t.detach node).map Prod.snd).getD t = u at hdetached ⊢
  rw [remove_eq, perform_bind]
  generalize (u.parent target).getD Store.root = parent
  generalize (u.indexInParent target).getD (u.children parent).length = index
  have hremoved := Store.FreeExact.kept.remove target hdetached
  generalize u.remove target = removed at hremoved ⊢
  obtain ⟨n, v⟩ := removed
  dsimp only at hremoved ⊢
  rw [attach_eq, perform_bind]
  have hattached : ((v.attach node parent index).getD v).FreeExact :=
    Store.getD_keeps hremoved fun _ => Store.FreeExact.kept.attach hremoved
  refine (mirrors_setStore ?_).bind fun _ _ => mirrors_touch node
  exact Store.getD_keeps hattached fun _ => Store.FreeExact.kept.setLabel hattached

theorem mirrors_move (src dst : PathArg) :
    Mirrors Sound (move src dst) (LabelTree.Edit.move src dst) := by
  rw [move, LabelTree.Edit.move]
  refine (mirrors_ask (prepareExisting_eq · src)).bind fun srcPath _ => ?_
  refine (mirrors_ask (prepare_eq · dst)).bind fun dstPath _ => ?_
  refine (mirrors_ask (resolveSingle_eq · srcPath)).bind fun node _ => ?_
  refine (agrees_locate dstPath).bind fun location hfits => ?_
  split
  · exact .throw_bind
  · refine agrees_store.bind fun t _ => ?_
    split
    · exact .throw_bind
    · exact (mirrors_reach hfits).bind fun target _ => mirrors_replace node target

theorem mirrors_insert (arg : PathArg) (label : String) (before : Bool) :
    Mirrors Sound (insert arg label before)
      (LabelTree.Edit.insert arg label before) := by
  rw [insert, LabelTree.Edit.insert]
  split
  · exact .throw_bind
  · refine (mirrors_ask (prepareExisting_eq · arg)).bind fun path _ => ?_
    refine (mirrors_ask (resolveSingle_eq · path)).bind fun sibling _ => ?_
    refine agrees_store.bind fun t ht => ?_
    cases t.parent sibling with
    | none => exact .throw _
    | some parent =>
      cases t.indexInParent sibling with
      | none => exact .throw _
      | some index =>
        dsimp only
        rw [insertChild_eq ht, perform_bind]
        cases ha : t.insertChild parent (if before then index else index + 1) label with
        | none => exact .pure trivial
        | some made =>
          obtain ⟨id, u⟩ := made
          exact (mirrors_setStore (Store.FreeExact.kept.insertChild ht ha)).bind fun _ _ =>
            mirrors_touch id

/-! ## Saving and loading -/

theorem findOrAppend_eq (hs : s.FreeExact) (parent : NodeId) (label : String) :
    findOrAppend s parent label = some (s.findOrAppend parent label) := by
  rw [findOrAppend, Store.findOrAppend, appendChild_eq hs]
  cases s.findChild? parent label <;> rfl

theorem recordSaves_eq (hs : s.FreeExact) (node : NodeId) (saves : Nat) :
    recordSaves s node saves = some (LabelTree.Edit.recordSaves s node saves) ∧
      (LabelTree.Edit.recordSaves s node saves).FreeExact := by
  rw [recordSaves, LabelTree.Edit.recordSaves, findOrAppend_eq hs]
  cases he : s.findOrAppend node "events" with
  | none => exact ⟨rfl, hs⟩
  | some found =>
    obtain ⟨events, t⟩ := found
    have ht : t.FreeExact := hs.findOrAppend he
    simp only [findOrAppend_eq ht, Option.bind_eq_bind, Option.bind_some]
    cases hv : t.findOrAppend events "saved" with
    | none => exact ⟨rfl, ht⟩
    | some found =>
      obtain ⟨saved, u⟩ := found
      have hu : u.FreeExact := ht.findOrAppend hv
      exact ⟨rfl, Store.getD_keeps hu fun _ => Store.FreeExact.kept.setValue hu⟩

theorem mirrors_save : Mirrors Sound save LabelTree.Edit.save := by
  rw [save, LabelTree.Edit.save]
  refine (mirrors_ask fun _ => rfl).bind fun mode _ => ?_
  refine (mirrors_modify fun s hs => ?_).bind fun _ _ => agrees_get.bind fun s hs => ?_
  · split <;> exact hs
  have hend : Mirrors Sound
      (lift (modify fun s => { s with pending := false }) >>= fun _ => pure mode)
      ((modify fun s => { s with pending := false }) >>= fun _ => pure mode) :=
    (mirrors_modify (g := fun s => { s with pending := false }) fun _ hs => hs).map _
  cases s.metaNode? with
  | none => exact hend
  | some node =>
    obtain ⟨hrun, hrecord⟩ := recordSaves_eq hs node s.saves
    dsimp only
    rw [hrun, perform_bind]
    exact (mirrors_setStore hrecord).bind fun _ _ => hend

theorem mirrors_load (arg : PathArg) (source : Snapshot) :
    Mirrors Sound (load arg source) (LabelTree.Edit.load arg source) := by
  rw [load, LabelTree.Edit.load]
  cases source.firstBadLabel with
  | some label => exact .throw _
  | none =>
    refine (mirrors_ask (prepare_eq · arg)).bind fun path _ => ?_
    refine (agrees_locate path).bind fun location hfits => ?_
    refine (mirrors_reach hfits).bind fun id _ => ?_
    have hgraft : Mirrors Sound
        (store >>= fun t => perform (graft t id source) >>= fun made =>
          setStore made.2 >>= fun _ => touch id >>= fun _ => pure made.1)
        (LabelTree.Edit.store >>= fun t =>
          LabelTree.Edit.setStore (t.graft id source).2 >>= fun _ =>
          LabelTree.Edit.touch id >>= fun _ => pure (t.graft id source).1) := by
      refine agrees_store.bind fun t ht => ?_
      have hkept : (t.graft id source).2.FreeExact :=
        Store.graft_keeps Store.FreeExact.kept.appendKeeps ht fun _ _ => trivial
      rw [graft_eq source id ht, perform_bind]
      exact (mirrors_setStore hkept).bind fun _ _ => (mirrors_touch id).map _
    split
    · split
      · exact .throw_bind
      · exact (mirrors_assign id source.value).bind fun _ _ => hgraft
    · exact hgraft

end Edit

end Checked

end LabelTree
