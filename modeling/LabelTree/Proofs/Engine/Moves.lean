import LabelTree.Proofs.Engine.Effects
import LabelTree.Proofs.Session.Moves

/-!
# Engine — what a move does

A move either takes the place that its destination names, with all that is below the moved node, or
is refused; that the destination is in the subtree of the source is told from every other refusal.
-/

namespace LabelTree

namespace Engine

variable {e : Engine} {s : Session}

theorem answer_move (hs : e.session = some s) (src dst : PathArg) :
    let ran := (Edit.move src dst).run.run s
    e.answer (.move src dst) = (ran.1.map fun _ => .done, ⟨some ran.2, .ofResult ran.1⟩) :=
  run_call_bind_pure hs (Edit.move src dst) fun _ => Reply.done

/-- A move is refused for leading into a descendant exactly when both ends are there, neither is the
root, and the destination, or the node that it would be made below, is in the subtree of the source.
It succeeds exactly when both are there and the destination is not, and then the source has taken
its place. -/
theorem move_takes_place (root : String) (loadPath : Option String) (flags : Flags)
    (operations : List Operation) (src dst : PathArg)
    (hs : ((create root loadPath flags).after operations).session = some s) :
    let e := (create root loadPath flags).after operations
    (∀ a b, (e.answer (.move src dst)).1 = .error (.moveIntoDescendant a b) ↔
      ∃ srcPath dstPath node location, s.MoveEnds src dst srcPath dstPath node location ∧
        location.place ∈ s.store.preorder node ∧ a = srcPath.text ∧ b = dstPath.text) ∧
    ((e.answer (.move src dst)).1 = .ok .done ↔
      ∃ srcPath dstPath node location, s.MoveEnds src dst srcPath dstPath node location ∧
        location.place ∉ s.store.preorder node) ∧
    ∀ reply e', e.answer (.move src dst) = (.ok reply, e') →
      ∃ srcPath dstPath node location target u t, e'.session = some t ∧
        s.MoveEnds src dst srcPath dstPath node location ∧ location.place ∉ s.store.preorder node ∧
        s.store.Provides dstPath location target u ∧ s.store.Moves u node target t.store := by
  intro e
  have hrooted := holds_after_create root loadPath flags operations s hs
  have hw := hrooted.wellFormed
  have hmem : ∀ {srcPath dstPath node location}, s.MoveEnds src dst srcPath dstPath node location →
      (location.place ∈ s.store.preorder node ↔ s.store.isWithin location.place node = true) := by
    intro srcPath dstPath node location hends
    rw [hw.mem_preorder_iff]
    exact and_iff_right (hends.contains hw).2
  rw [answer_move hs]
  cases hran : (Edit.move src dst).run.run s with
  | mk answer t =>
    refine ⟨fun a b => ⟨fun h => ?_, ?_⟩, ⟨fun h => ?_, ?_⟩, fun reply e' h => ?_⟩
    · cases answer with
      | ok => cases h
      | error err =>
        cases h
        obtain ⟨srcPath, dstPath, node, location, hends, hinto, ha, hb⟩ :=
          Edit.moveEnds_of_run hrooted hran
        exact ⟨srcPath, dstPath, node, location, hends, (hmem hends).mpr hinto, ha, hb⟩
    · rintro ⟨srcPath, dstPath, node, location, hends, hinto, rfl, rfl⟩
      rw [Edit.run_move hends, if_pos ((hmem hends).mp hinto)] at hran
      cases hran
      rfl
    · cases answer with
      | error err => cases h
      | ok =>
        obtain ⟨srcPath, dstPath, node, location, target, u, hends, hout, -, -⟩ :=
          Edit.moves_of_run hrooted hran
        refine ⟨srcPath, dstPath, node, location, hends, ?_⟩
        simp [hmem hends, hout]
    · rintro ⟨srcPath, dstPath, node, location, hends, hout⟩
      rw [hmem hends, Bool.not_eq_true] at hout
      obtain ⟨t', ht'⟩ := Edit.exists_run_move hw hends hout
      cases hran.symm.trans ht'
      rfl
    · cases answer with
      | error err => cases h
      | ok =>
        cases h
        obtain ⟨srcPath, dstPath, node, location, target, u, hends, hout, hprovides, hmoves⟩ :=
          Edit.moves_of_run hrooted hran
        refine ⟨srcPath, dstPath, node, location, target, u, t, rfl, hends, ?_, hprovides, hmoves⟩
        simp [hmem hends, hout]

/-- A node with a node below it: it can be moved beside itself, but not below that node. -/
theorem move_takes_place_beside :
    let files : Step := .select (.child (.exact "files")) []
    let a : Step := .select (.child (.exact "a")) []
    let source : PathArg := .compiled ⟨"/files/a", true, [files, a]⟩
    let below : PathArg :=
      .compiled ⟨"/files/a/a/b", true, [files, a, a, .select (.child (.exact "b")) []]⟩
    let beside : PathArg := .compiled ⟨"/files/b", true, [files, .select (.child (.exact "b")) []]⟩
    let e := (create "/" none .none).after
      [.set (.compiled ⟨"/files/a/a", true, [files, a, a]⟩) (some "1")]
    (e.answer (.move source below)).1 = .error (.moveIntoDescendant "/files/a" "/files/a/a/b") ∧
      ∃ t, (e.answer (.move source beside)).2.session = some t ∧ t.store.label ⟨8, 0⟩ = some "b" ∧
        t.store.value ⟨9, 0⟩ = some "1" := by
  intro files a source below beside e
  obtain ⟨s, hs, hnode, hbelow, hplace, hbeside, hmember, hvalue⟩ : ∃ s, e.session = some s ∧
      s.resolve ⟨"/files/a", true, [files, a]⟩ = [⟨8, 0⟩] ∧
      s.locate ⟨"/files/a/a/b", true, [files, a, a, .select (.child (.exact "b")) []]⟩ =
        .ok (.missing ⟨9, 0⟩ 3) ∧ ⟨9, 0⟩ ∈ s.store.preorder ⟨8, 0⟩ ∧
      s.locate ⟨"/files/b", true, [files, .select (.child (.exact "b")) []]⟩ =
        .ok (.missing ⟨7, 0⟩ 1) ∧
      (s.store.contains ⟨9, 0⟩ = true ∧ s.store.isWithin ⟨9, 0⟩ ⟨8, 0⟩ = true) ∧
      s.store.value ⟨9, 0⟩ = some "1" :=
    ⟨_, rfl, rfl, rfl, by decide, rfl, ⟨rfl, rfl⟩, rfl⟩
  constructor
  · exact ((move_takes_place "/" none .none _ source below hs).1 _ _).mpr
      ⟨_, _, _, _, ⟨rfl, rfl, hnode, hbelow, by decide, by decide⟩, hplace, rfl, rfl⟩
  · obtain ⟨e', h⟩ : ∃ e', e.answer (.move source beside) = (.ok .done, e') := ⟨_, rfl⟩
    obtain ⟨srcPath, dstPath, node, location, target, u, t, ht, hends, -, hprovides, hmoves⟩ :=
      (move_takes_place "/" none .none _ source beside hs).2.2 _ _ h
    cases hends.source
    cases hends.destination
    cases hnode.symm.trans hends.node_eq
    cases hbeside.symm.trans hends.location_eq
    refine ⟨t, by rw [h]; exact ht, ?_, ?_⟩
    · rw [hmoves.label]
      cases hprovides with
      | @made _ _ _ labels ids _ hlabels hmade hlast =>
        have hb : labels = ["b"] :=
          List.map_injective_iff.mpr (fun _ _ => Option.some.inj) hlabels.symm
        subst hb
        cases hmade.strand with
        | cons _ hlabel _ _ hrest =>
          cases hrest
          cases hlast
          exact hlabel
    · rw [(hmoves.subtree _ hmember.1 hmember.2).value, hvalue]

end Engine

end LabelTree
