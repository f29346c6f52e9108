import LabelTree.Proofs.Session.Effects

/-!
# Session — writing values succeeds

What an edit has done when it succeeds is said in `Session.Reaches` and `Store.withValues`. The
converse: where the questions are answered and the nodes are made as these say, the edit succeeds
and leaves that session.
-/

namespace LabelTree

open Store (root)

variable {s t u : Session} {path : Path} {arg : PathArg} {location : Location} {id anchor : NodeId}
  {labels : List String} {store : Store} {steps : List Step} {first value : Option String}
  {rest values : List (Option String)} {n : Nat}

namespace Edit

theorem run_createBelow (h : s.store.Chain anchor labels id store)
    (hlabels : steps.map Step.newLabel? = labels.map some) :
    (createBelow path anchor steps).run.run s = (.ok id, { s with store }) := by
  generalize hstore : s.store = before at h
  induction h generalizing s steps with
  | nil before p =>
    cases hstore
    cases List.map_eq_nil_iff.mp hlabels
    rfl
  | @cons before made store p c id label rest happend _ ih =>
    cases hstore
    obtain ⟨step, later, rfl, hlabel, hlater⟩ := List.map_eq_cons_iff.mp hlabels
    simp only [createBelow, hlabel]
    rw [run_bind_ok (run_store s), happend]
    exact (run_bind_ok (run_setStore made s) _).trans (ih hlater rfl)

theorem run_reach (h : s.Reaches path location id u) :
    (reach path location).run.run s = (.ok id, u) := by
  cases h with
  | found => rfl
  | made hlabels hchain =>
    exact (run_bind_ok (run_createBelow hchain hlabels) _).trans (run_bind_ok (run_touch id _) _)

theorem run_setMany (hpath : s.prepare arg = .ok path) (hlocation : s.locate path = .ok location)
    (hroot : location ≠ .found root) (hreach : s.Reaches path location id u) (first : Option String)
    (rest : List (Option String)) :
    (setMany arg (first :: rest)).run.run s =
      (.ok (first :: rest).length,
        { u with store := u.store.withValues id first rest }.touch id) := by
  unfold setMany Store.withValues
  dsimp only
  rw [run_bind_ok (run_ask_of_ok hpath), run_bind_ok (run_ask_of_ok hlocation), if_neg hroot]
  show (reach path location >>= _).run.run s = _
  rw [run_bind_ok (run_reach hreach), run_bind_ok (run_assign id first u),
    run_bind_ok (run_store _)]
  dsimp only
  generalize (u.store.setValue id first).getD u.store = store
  cases hp : store.parent id with
  | none => rfl
  | some parent =>
    cases hl : store.label id with
    | none => rfl
    | some label =>
      dsimp only
      rw [run_bind_ok (run_addSiblings parent label id rest _), run_bind_ok (run_touch id _)]
      rfl

end Edit

end LabelTree
