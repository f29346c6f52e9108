import LabelTree.Proofs.Engine.Effects
import LabelTree.Proofs.Resolve.Positive
import LabelTree.Proofs.Session.Removals

/-!
# Engine — what a removal does

A removal deletes the subtrees of the nodes that its path leads to and answers how many nodes these
hold. When the path asks only for what is there it leads nowhere afterwards: whatever is deleted, it
leads to no node that it did not lead to before.
-/

namespace LabelTree

namespace Engine

variable {e : Engine} {s : Session}

theorem answer_remove (hs : e.session = some s) (arg : PathArg) :
    let ran := (Edit.remove arg).run.run s
    e.answer (.remove arg) = (ran.1.map .count, ⟨some ran.2, .ofResult ran.1⟩) :=
  run_call_bind_pure hs (Edit.remove arg) Reply.count

/-- A path without an append step that is absolute, or relative to a context that is a path, can be
removed unless it leads to the root. Gone are then the subtrees of the nodes that it leads to, which
have no node in common; the answer is the number of their nodes, and the store has so many nodes
less. -/
theorem remove_counts_subtrees (root : String) (loadPath : Option String) (flags : Flags)
    (operations : List Operation) (arg : PathArg) (own : Path)
    (hs : ((create root loadPath flags).after operations).session = some s)
    (hown : Session.compileArg arg = .ok own) (hselect : ∀ step ∈ own.steps, step.isAppend = false)
    (hcontext : own.absolute = true ∨ ∃ base, Path.compile s.context = .ok base) :
    let e := (create root loadPath flags).after operations
    ∃ path, s.prepareExisting arg = .ok path ∧
      let gone := (s.resolve path).flatMap s.store.preorder
      (∀ err, (e.answer (.remove arg)).1 = .error err ↔
        Store.root ∈ s.resolve path ∧ err = .badArgument .rootRemoved) ∧
      (Store.root ∉ s.resolve path → ∃ t, (e.answer (.remove arg)).2.session = some t ∧
        (e.answer (.remove arg)).1 = .ok (.count gone.length) ∧ gone.Nodup ∧
        (∀ j, s.store.contains j = true ∧ t.store.contains j = false ↔ j ∈ gone) ∧
        (∀ j, t.store.contains j = true → s.store.contains j = true) ∧
        s.store.size = t.store.size + gone.length ∧ (s.resolve path = [] → gone.length = 0)) := by
  intro e
  obtain ⟨path, hpath⟩ := Session.exists_prepareExisting hown hselect hcontext
  have hw := (holds_after_create root loadPath flags operations s hs).wellFormed
  refine ⟨path, hpath, ?_⟩
  intro gone
  rw [answer_remove hs]
  by_cases hroot : Store.root ∈ s.resolve path
  · rw [Edit.run_remove_root hpath hroot]
    refine ⟨fun err => ⟨fun h => ?_, ?_⟩, fun hno => absurd hroot hno⟩
    · cases h
      exact ⟨hroot, rfl⟩
    · rintro ⟨-, rfl⟩
      rfl
  · obtain ⟨n, t, hrun, hstore, hsize⟩ := Edit.run_remove hw hpath hroot
    obtain ⟨hnodup, hapart⟩ := hw.apart_resolve path hw.contains_root
    have hdisjoint := hw.nodup_flatMap_preorder hnodup hapart
    have hgone := hw.gone_iff hroot
    have hless := hw.size_pruned hroot hdisjoint
    rw [← hstore] at hgone hless
    have hn : n = gone.length := Nat.add_left_cancel (hsize.symm.trans hless)
    rw [hrun, hn]
    refine ⟨fun err => ⟨?_, fun h => absurd h.1 hroot⟩, fun _ => ?_⟩
    · intro h
      cases h
    refine ⟨t, rfl, rfl, hdisjoint, hgone, fun j hj => ?_, hless, fun h => ?_⟩
    · rw [hstore] at hj
      exact ((hw.contains_pruned hroot j).mp hj).1
    · show ((s.resolve path).flatMap s.store.preorder).length = 0
      rw [h]
      rfl

/-- Two siblings, one of which has a child: the removal of both deletes three nodes. -/
theorem remove_counts_subtrees_siblings :
    let files : Step := .select (.child (.exact "files")) []
    let a : Step := .select (.child (.exact "a")) []
    let b : Step := .select (.child (.exact "b")) []
    let all : PathArg := .compiled ⟨"/files/*", true, [files, .select (.child .any) []]⟩
    let e := (create "/" none .none).after
      [.set (.compiled ⟨"/files/a/b", true, [files, a, b]⟩) (some "1"),
        .set (.compiled ⟨"/files/b", true, [files, b]⟩) (some "2")]
    (e.answer (.remove all)).1 = .ok (.count 3) ∧
      ∃ t, (e.answer (.remove all)).2.session = some t ∧ t.store.contains ⟨9, 0⟩ = false := by
  intro files a b all e
  obtain ⟨s, hs, hresolve, hgone⟩ : ∃ s, e.session = some s ∧
      s.resolve ⟨"/files/*", true, [files, .select (.child .any) []]⟩ = [⟨8, 0⟩, ⟨10, 0⟩] ∧
      [⟨8, 0⟩, ⟨10, 0⟩].flatMap s.store.preorder = [⟨8, 0⟩, ⟨9, 0⟩, ⟨10, 0⟩] := ⟨_, rfl, rfl, rfl⟩
  have hselect : ∀ step ∈ [files, .select (.child .any) []], step.isAppend = false := by decide
  obtain ⟨path, hpath, -, hremoved⟩ :=
    remove_counts_subtrees "/" none .none _ all _ hs rfl hselect (.inl rfl)
  cases hpath
  rw [hresolve, hgone] at hremoved
  obtain ⟨t, ht, hcount, -, hmem, -⟩ := hremoved (by decide)
  dsimp only [e]
  exact ⟨hcount, t, ht, ((hmem ⟨9, 0⟩).mpr (by decide)).2⟩

/-- After a removal by a path whose predicates ask for what is there, the path leads nowhere. For
such a path no deletion of subtrees leads to a node that it did not lead to before. -/
theorem removed_for_good (root : String) (loadPath : Option String) (flags : Flags)
    (operations : List Operation) (arg : PathArg) (path : Path)
    (hs : ((create root loadPath flags).after operations).session = some s)
    (hpath : Session.compileArg arg = .ok path) (habsolute : path.absolute = true)
    (hpositive : ∀ step ∈ path.steps, step.Positive) :
    (∀ reply e',
      ((create root loadPath flags).after operations).answer (.remove arg) = (.ok reply, e') →
      ∃ t, e'.session = some t ∧ t.resolve path = []) ∧
    ∀ ids, (s.store.pruned ids).resolve path Store.root ⊆ s.resolve path := by
  have hw := (holds_after_create root loadPath flags operations s hs).wellFormed
  have hless : ∀ ids, (s.store.pruned ids).resolve path Store.root ⊆ s.resolve path :=
    fun ids => (hw.partOf_pruned ids).resolve_subset hpositive Store.root
  refine ⟨fun reply e' h => ?_, hless⟩
  rw [answer_remove hs] at h
  cases hran : (Edit.remove arg).run.run s with
  | mk answer t =>
    rw [hran] at h
    cases answer with
    | error err => cases h
    | ok n =>
      cases h
      obtain ⟨prepared, hprepared, hroot, -⟩ := Edit.remove_of_run hran
      cases Session.eq_of_prepareExisting hpath habsolute hprepared
      obtain ⟨_, _, hrun, hstore, -⟩ := Edit.run_remove hw hprepared hroot
      cases hran.symm.trans hrun
      refine ⟨t, rfl, List.eq_nil_iff_forall_not_mem.mpr fun id hid => ?_⟩
      -- what the path leads to now is there, but it led there before, so it was deleted
      rw [Session.resolve, hstore] at hid
      have hleft := (hw.pruned _).contains_of_mem_resolve path (hw.pruned _).contains_root hid
      have hout := ((hw.contains_pruned hroot id).mp hleft).2 id (hless _ hid)
      rw [Store.isWithin_self] at hout
      cases hout

/-- A path that asks for a child and for its value. -/
theorem removed_for_good_child :
    let files : Step := .select (.child (.exact "files")) []
    let steps : List Step := [files, .select (.child .any) [.hasChild "b"],
      .select .self [.compare (.child "b") "1" false]]
    let path : Path := ⟨"/files/*[b]/.[b='1']", true, steps⟩
    let below : Path := ⟨"/files/a/b", true,
      [files, .select (.child (.exact "a")) [], .select (.child (.exact "b")) []]⟩
    let e := (create "/" none .none).after [.set (.compiled below) (some "1")]
    ∃ s t, e.session = some s ∧ s.resolve path = [⟨8, 0⟩] ∧
      (e.answer (.remove (.compiled path))).2.session = some t ∧ t.resolve path = [] := by
  intro files steps path below e
  obtain ⟨s, hs, hresolve⟩ : ∃ s, e.session = some s ∧ s.resolve path = [⟨8, 0⟩] := ⟨_, rfl, rfl⟩
  obtain ⟨e', h⟩ : ∃ e', e.answer (.remove (.compiled path)) = (.ok (.count 2), e') := ⟨_, rfl⟩
  have hpositive : ∀ step ∈ steps, step.Positive := by
    intro step hstep
    rw [List.mem_cons, List.mem_cons, List.mem_singleton] at hstep
    rcases hstep with rfl | rfl | rfl
    · exact .select _ (by simp)
    · exact .select _ (by simpa using .hasChild "b")
    · exact .select _ (by simpa using .compare (.child "b") "1")
  obtain ⟨t, ht, hnone⟩ :=
    (removed_for_good "/" none .none _ (.compiled path) path hs rfl rfl hpositive).1 _ _ h
  exact ⟨s, t, hs, hresolve, by rw [h]; exact ht, hnone⟩

end Engine

end LabelTree
