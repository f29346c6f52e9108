import LabelTree.Proofs.Engine.Effects
import LabelTree.Proofs.Session.Frame

/-!
# Engine — what an operation leaves as it was

An operation moves the one node that a `move` was asked to move, and gives a value to the node that
it was asked to give one to, or where the saves are shown. All other nodes that outlive it keep
their place, their label, their order among siblings and their value (`Session.Edited.frame`). A
script moves and assigns what its operations do, so the same holds of it (`Engine.frame_of_answer`).
-/

namespace LabelTree

open Store (root Still)

/-! ## Sessions -/

namespace Session

variable {s t : Session} {operation : Operation} {id : NodeId}

/-- Whether a path argument leads to one node. -/
def Addresses (s : Session) (arg : PathArg) (id : NodeId) : Prop :=
  ∃ path, s.prepare arg = .ok path ∧ s.resolve path = [id]

/-- Whether an operation is to move a node. -/
def Moves (s : Session) (operation : Operation) (id : NodeId) : Prop :=
  match operation with
  | .move src _ => ∃ path, s.prepareExisting src = .ok path ∧ s.resolve path = [id]
  | _ => False

/-- Whether an operation is to give a node a value: the one that its path leads to, with a value to
give, or the one that shows the number of saves. -/
def Assigns (s : Session) (operation : Operation) (id : NodeId) : Prop :=
  match operation with
  | .set arg _ | .setMany arg _ | .clear arg => s.Addresses arg id
  | .load arg source => source.value.isSome = true ∧ s.Addresses arg id
  | .save => ∃ node events, s.metaNode? = some node ∧
      s.store.findChild? node "events" = some events ∧ s.store.findChild? events "saved" = some id
  | _ => False

theorem Assigns.of_assigned {arg : PathArg} {values : List (Option String)}
    (h : operation.assigned? = some (arg, values)) (hid : s.Addresses arg id) :
    s.Assigns operation id := by
  cases operation with
  | set path value | setMany path values | clear path =>
    cases h
    exact hid
  | _ => cases h

/-- What was reached is there already and addressed, or new. -/
theorem Reaches.frame {u : Session} {arg : PathArg} {path : Path} {location : Location}
    (hs : s.store.Rooted fun _ => True) (hpath : s.prepare arg = .ok path)
    (hlocation : s.locate path = .ok location) (h : s.Reaches path location id u) :
    s.store.Still u.store ∧ u.store.Rooted (fun _ => True) ∧
      (s.store.contains id = true → s.Addresses arg id) := by
  have hreached := h.reached hs (fun _ _ _ _ => trivial) hlocation
  have hstore := Session.locate_eq_ok hlocation
  cases h with
  | found => exact ⟨Store.Frame.refl _ _ _, hs,
      fun _ => ⟨path, hpath, Store.resolve_of_locate_found hstore⟩⟩
  | made hlabels hchain =>
    cases hreached with
    | made hc hmakes =>
      refine ⟨?_, hmakes.rooted, fun hid => ?_⟩
      · rw [store_touch]
        exact hchain.still hs.wellFormed
      · rw [hmakes.fresh] at hid
        cases hid

theorem still_foldl_without (hs : s.store.WellFormed) (ids : List NodeId) :
    s.store.Still (ids.foldl without s).store := by
  induction ids generalizing s with
  | nil => exact Store.Frame.refl _ _ _
  | cons id rest ih =>
    exact (hs.still_remove id).trans (ih (s := s.without id) (hs.remove id))

/-- All nodes that outlive an operation stay as they are, but for those it moves or assigns. -/
theorem Edited.frame (h : s.Edited operation t) (hs : s.store.Rooted fun _ => True) :
    s.store.Frame (s.Moves operation) (s.Assigns operation) t.store := by
  cases h with
  | asked hasks => exact Store.Frame.refl _ _ _
  | assigned hassigned hpath hlocation hroot hreach =>
    obtain ⟨hstill, hu, hold⟩ := hreach.frame hs hpath hlocation
    rw [store_touch]
    refine (hstill.trans (hu.wellFormed.frame_withValues _ _ _)).mono (fun _ _ => False.elim) ?_
    rintro j hj rfl
    exact .of_assigned hassigned (hold hj)
  | removed hpath hroot =>
    exact (still_foldl_without hs.wellFormed _).mono (fun _ _ => False.elim) fun _ _ => False.elim
  | moved hsrc hdst hnode hlocation hroot hlroot hinto hreach =>
    obtain ⟨hstill, -, -⟩ := hreach.frame hs hdst hlocation
    have hcontains := hs.wellFormed.contains_of_mem_resolve _ hs.wellFormed.contains_root
      (show _ ∈ s.store.resolve _ root from hnode ▸ List.mem_singleton_self _)
    obtain ⟨hu, hcn, htroot, hct, hout⟩ :=
      (hreach.reached hs (fun _ _ _ _ => trivial) hlocation).place hs hcontains hlroot hinto
    obtain ⟨p, hp⟩ := hu.exists_parent htroot hct
    rw [store_touch]
    refine (hstill.trans (hu.wellFormed.frame_takePlace hroot hcn hp hout)).mono ?_
      fun _ _ => False.elim
    rintro j - rfl
    exact ⟨_, hsrc, hnode⟩
  | inserted hpath hsibling hparent hindex hinsert =>
    rw [store_touch]
    exact (hs.wellFormed.still_insertChild hinsert).mono
      (fun _ _ => False.elim) fun _ _ => False.elim
  | saved =>
    unfold Session.saved
    cases hnode : s.metaNode? with
    | none => exact Store.Frame.refl _ _ _
    | some node =>
      refine (hs.wellFormed.frame_recordSaves node _).mono (fun _ _ => False.elim) ?_
      rintro j - ⟨events, hevents, hsaved⟩
      exact ⟨node, events, hnode, hevents, hsaved⟩
  | loaded hpath hlocation hreach hroot =>
    obtain ⟨hstill, hu, hold⟩ := hreach.frame hs hpath hlocation
    rw [store_touch]
    unfold Edit.valued
    split
    · rename_i hsome
      obtain ⟨hvalue, hw⟩ := hu.wellFormed.frame_getD_setValue _ _
      refine (hstill.trans (hvalue.trans (hw.still_graft _ _))).mono ?_ ?_
      · simp
      · rintro j hj (rfl | hno)
        · exact ⟨hsome, hold hj⟩
        · exact hno.elim
    · exact (hstill.trans (hu.wellFormed.still_graft _ _)).mono (fun _ _ => False.elim)
        fun _ _ => False.elim

end Session

/-! ## Runs -/

namespace Engine

variable {e : Engine} {s t : Session} {operation : Operation} {operations : List Operation}
    {id : NodeId}
  {what : Session → Operation → NodeId → Prop}

/-- Whether one of the operations of a run meets a node, in the session that it runs on. -/
def Meets (what : Session → Operation → NodeId → Prop) (e : Engine) (operations : List Operation)
    (id : NodeId) : Prop :=
  ∃ before operation after s, operations = before ++ operation :: after ∧
    (e.after before).session = some s ∧ what s operation id

theorem meets_head (hs : e.session = some s) (h : what s operation id) :
    e.Meets what (operation :: operations) id :=
  ⟨[], operation, operations, s, rfl, hs, h⟩

theorem meets_tail (h : (e.answer operation).2.Meets what operations id) :
    e.Meets what (operation :: operations) id := by
  obtain ⟨before, met, after, s, rfl, hs, hmet⟩ := h
  exact ⟨operation :: before, met, after, s, rfl, hs, hmet⟩

theorem meets_singleton (hs : e.session = some s) :
    e.Meets what [operation] id ↔ what s operation id := by
  refine ⟨?_, meets_head hs⟩
  rintro ⟨before, met, after, u, hsplit, hu, hmet⟩
  cases before with
  | nil =>
    cases hsplit
    cases hs.symm.trans hu
    exact hmet
  | cons first before => simp at hsplit

/-- One operation. -/
theorem frame_of_step (he : e.Holds (Session.Rooted fun _ => True)) (hs : e.session = some s)
    (ht : (e.answer operation).2.session = some t) (hscript : ∀ text, operation ≠ .runScript text) :
    s.store.Frame (s.Moves operation) (s.Assigns operation) t.store := by
  rcases eq_or_edited he hs ht hscript with rfl | ⟨hedited, -⟩
  · exact Store.Frame.refl _ _ _
  · exact hedited.frame (he s hs)

/-- A run of operations without scripts. -/
theorem frame_of_run (he : e.Holds (Session.Rooted fun _ => True)) (hs : e.session = some s)
    (ht : (e.after operations).session = some t)
    (hscript : ∀ operation ∈ operations, ∀ text, operation ≠ .runScript text) :
    s.store.Frame (e.Meets Session.Moves operations) (e.Meets Session.Assigns operations)
      t.store := by
  induction operations generalizing e s with
  | nil =>
    cases hs.symm.trans ht
    exact Store.Frame.refl _ _ _
  | cons operation rest ih =>
    rw [after_cons] at ht
    obtain ⟨u, hu⟩ := exists_session ht
    have hpreserved : (e.answer operation).2.Holds (Session.Rooted fun _ => True) :=
      Operation.preserves (fun _ _ => trivial) (fun arg _ => arg.names_any) e he
    have hstep := frame_of_step he hs hu (hscript operation List.mem_cons_self)
    have hrest := ih hpreserved hu ht fun o ho => hscript o (List.mem_cons_of_mem operation ho)
    refine (hstep.trans hrest).mono ?_ ?_
    · rintro j - (hj | hj)
      · exact meets_head hs hj
      · exact meets_tail hj
    · rintro j - (hj | hj)
      · exact meets_head hs hj
      · exact meets_tail hj

/-- Whatever operations were run, an operation leaves all nodes that outlive it where they are,
under the label that they have and in the order among siblings that they have, but for those that it
moves, and with the value that they have, but for those that it assigns one to. What a script moves
and assigns is what the operations do that it unfolds to. -/
theorem frame_of_answer (root : String) (loadPath : Option String) (flags : Flags)
    (operations : List Operation) (operation : Operation)
    (hs : ((create root loadPath flags).after operations).session = some s)
    (ht : (((create root loadPath flags).after operations).answer operation).2.session = some t) :
    let e := (create root loadPath flags).after operations
    (∀ id, s.store.contains id = true → t.store.contains id = true →
      (¬ e.Meets Session.Moves (e.unfolding operation) id →
        t.store.parent id = s.store.parent id ∧ t.store.label id = s.store.label id) ∧
      (¬ e.Meets Session.Assigns (e.unfolding operation) id →
        t.store.value id = s.store.value id)) ∧
    ∀ p a b, s.store.contains a = true → s.store.contains b = true → t.store.contains a = true →
      t.store.contains b = true → ¬ e.Meets Session.Moves (e.unfolding operation) a →
      ¬ e.Meets Session.Moves (e.unfolding operation) b → [a, b].Sublist (s.store.children p) →
      [a, b].Sublist (t.store.children p) := by
  intro e
  have he := holds_after_create root loadPath flags operations
  rw [← session_after_unfolding] at ht
  have hscript : ∀ o ∈ e.unfolding operation, ∀ text, o ≠ .runScript text := by
    rintro o ho text rfl
    exact not_mem_unfolding text operation e ho
  have hframe := frame_of_run he hs ht hscript
  refine ⟨fun id hid hid' => ⟨fun hmoved => ⟨?_, ?_⟩, fun hassigned => ?_⟩, hframe.order⟩
  · exact hframe.parent id hid hid' hmoved
  · exact hframe.label id hid hid' hmoved
  · exact hframe.value id hid hid' hassigned

/-- One of three siblings takes the place of another, and the third stays as it is. -/
theorem frame_of_answer_move :
    let child (l : String) : PathArg := .compiled ⟨"/files/" ++ l, true,
      [.select (.child (.exact "files")) [], .select (.child (.exact l)) []]⟩
    let run :=
      [Operation.set (child "a") (some "1"), .set (child "b") (some "2"), .set (child "c") none]
    let e := (create "/" none .none).after run
    ∃ s t id, e.session = some s ∧ (e.answer (.move (child "a") (child "c"))).2.session = some t ∧
      s.store.label id = some "b" ∧ t.store.parent id = s.store.parent id ∧
      t.store.label id = some "b" ∧ t.store.value id = some "2" := by
  intro child run e
  let s : Session := e.session.getD (.create "" none .none)
  let t : Session := (e.answer (.move (child "a") (child "c"))).2.session.getD s
  have hs : e.session = some s := rfl
  have ht : (e.answer (.move (child "a") (child "c"))).2.session = some t := rfl
  have hmoves : ¬ e.Meets Session.Moves [.move (child "a") (child "c")] ⟨9, 0⟩ := by
    rw [meets_singleton hs]
    rintro ⟨path, hpath, hid⟩
    cases hpath
    exact absurd hid (by decide +kernel)
  have hassigns : ¬ e.Meets Session.Assigns [.move (child "a") (child "c")] ⟨9, 0⟩ := by
    rw [meets_singleton hs]
    exact id
  obtain ⟨hplace, hvalue⟩ :=
    (frame_of_answer "/" none .none run _ hs ht).1 ⟨9, 0⟩ (by decide +kernel) (by decide +kernel)
  obtain ⟨hparent, hlabel⟩ := hplace hmoves
  have hb : s.store.label ⟨9, 0⟩ = some "b" ∧ s.store.value ⟨9, 0⟩ = some "2" := by decide +kernel
  exact ⟨s, t, ⟨9, 0⟩, hs, ht, hb.1, hparent, hlabel.trans hb.1, (hvalue hassigns).trans hb.2⟩

end Engine

end LabelTree
