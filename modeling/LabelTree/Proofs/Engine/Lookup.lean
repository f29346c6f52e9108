import LabelTree.Proofs.Engine.Addresses
import LabelTree.Proofs.Engine.Operations
import LabelTree.Proofs.Session.Lookup

/-!
# Engine — a value that was set is there to get

Setting a value and getting it by the same path are two operations that look the path up anew. Both
come to the same node, because a value is not seen by a path that compares none, and because a node
that had to be made is the one that its path then leads to.
-/

namespace LabelTree

open Session (Shows)

namespace Engine

variable {e : Engine} {s t : Session} {path : Path} {arg : PathArg} {id : NodeId}
  {v : Option String}

theorem answer_set (hs : e.session = some s) (arg : PathArg) (v : Option String) :
    let ran := (Edit.set arg v).run.run s
    e.answer (.set arg v) = (ran.1.map fun _ => .done, ⟨some ran.2, .ofResult ran.1⟩) :=
  run_call_bind_pure hs (Edit.set arg v) fun _ => Reply.done

theorem answer_set_of_run {n : Nat} (hs : e.session = some s)
    (h : (Edit.setMany arg [v]).run.run s = (.ok n, t)) :
    e.answer (.set arg v) = (.ok .done, ⟨some t, {}⟩) := by
  have hset : (Edit.set arg v).run.run s = (.ok (), t) := Edit.run_bind_ok h _
  rw [answer_set hs, hset]
  rfl

/-- A value that is set at an absolute path is got by it. Either the path compares no values, has no
append step, and leads to one node, not the root; or it is made of labels and positions alone and
the value can be set, to a node that is made if it is missing. Then the path leads to one node that
has the value, and setting the value once more changes nothing, in the tree or elsewhere in the
session. -/
theorem get_after_set (root : String) (loadPath : Option String) (flags : Flags)
    (operations : List Operation) (arg : PathArg) (path : Path) (v : Option String)
    (hs : ((create root loadPath flags).after operations).session = some s)
    (hpath : Session.compileArg arg = .ok path) (habsolute : path.absolute = true)
    (h : ((∀ step ∈ path.steps, step.isAppend = false ∧ step.comparesValues = false) ∧
        ∃ id, id ≠ Store.root ∧ s.resolve path = [id]) ∨
      ((∀ step ∈ path.steps, step.Literal) ∧
        (((create root loadPath flags).after operations).answer (.set arg v)).1 = .ok .done)) :
    let written := ((create root loadPath flags).after operations).answer (.set arg v)
    let again := written.2.answer (.set arg v)
    written.1 = .ok .done ∧ ∃ t id, written.2.session = some t ∧
      t.resolve path = [id] ∧ t.store.contains id = true ∧
      (written.2.answer (.get arg)).1 = .ok (.value v) ∧
      again.1 = .ok .done ∧ again.2.session = some t := by
  intro written again
  have hrooted := holds_after_create root loadPath flags operations s hs
  have hanchor : ∀ s : Session, s.prepare arg = .ok path := fun s =>
    Session.prepare_eq_ok_iff.mpr ⟨path, hpath,
      Session.anchor_eq_ok_iff.mpr (.inl ⟨habsolute, rfl⟩)⟩
  obtain ⟨t, id, n, hrun, hshows⟩ : ∃ t id n,
      (Edit.setMany arg [v]).run.run s = (.ok n, t) ∧ t.Shows path id v := by
    rcases h with ⟨hsteps, id, hroot, hid⟩ | ⟨hsteps, hdone⟩
    · have hc : s.store.contains id = true :=
        hrooted.wellFormed.contains_of_mem_resolve path hrooted.wellFormed.contains_root
          (show id ∈ s.resolve path by simp [hid])
      obtain ⟨t, hrun, hshows⟩ := Session.run_setMany_of_resolve (hanchor s) hid hc hroot
        (fun step hstep => (hsteps step hstep).2) v
      exact ⟨t, id, 1, hrun, hshows⟩
    · rw [answer_set hs] at hdone
      cases hset : (Edit.set arg v).run.run s with
      | mk r t =>
        rw [hset] at hdone
        cases r with
        | error err => cases hdone
        | ok =>
          obtain ⟨n, hrun⟩ := Edit.set_of_run hset
          obtain ⟨id, hshows⟩ := Session.exists_shows_of_run hrooted (hanchor s) hsteps hrun
          exact ⟨t, id, n, hrun, hshows⟩
  have hselect : path.isAppend = false := by
    have hsteps : ∀ step ∈ path.steps, step.isAppend = false := fun step hstep =>
      h.elim (fun h => (h.1 step hstep).1) fun h => (h.1 step hstep).isAppend
    rw [← Path.isSome_appendOffset?, Path.appendOffset?_eq_none hsteps]
    rfl
  have hexisting : t.prepareExisting arg = .ok path :=
    (Session.prepareExisting_of_select hpath hselect).trans (hanchor t)
  have hwritten : written = (.ok .done, ⟨some t, {}⟩) := answer_set_of_run hs hrun
  have hagain : again = (.ok .done, ⟨some t, {}⟩) := by
    show written.2.answer (.set arg v) = _
    rw [hwritten]
    exact answer_set_of_run rfl (hshows.run_setMany (hanchor t))
  have hget : (written.2.answer (.get arg)).1 = .ok (.value v) := by
    rw [hwritten, answer_get rfl, hshows.get_eq hexisting]
    rfl
  rw [hagain, hwritten]
  exact ⟨rfl, t, id, rfl, hshows.resolve, hshows.contains, hwritten ▸ hget, rfl, rfl⟩

/-- No value is set at a second node, which is made with the one below it, and is got there. -/
theorem get_after_set_second :
    let files : Step := .select (.child (.exact "files")) []
    let first : PathArg := .compiled ⟨"/files/a", true, [files, .select (.child (.exact "a")) []]⟩
    let second : PathArg := .compiled ⟨"/files/a[2]/b", true,
      [files, .select (.child (.exact "a")) [.position 2], .select (.child (.exact "b")) []]⟩
    let e := ((create "/" none .none).after [.set first (some "1")])
    ((e.answer (.set second none)).2.answer (.get second)).1 = .ok (.value none) := by
  intro files first second e
  obtain ⟨s, hs⟩ : ∃ s, e.session = some s := ⟨_, rfl⟩
  have hsteps : ∀ step ∈ [files, .select (.child (.exact "a")) [.position 2],
      .select (.child (.exact "b")) []], step.Literal := by
    intro step hstep
    rw [List.mem_cons, List.mem_cons, List.mem_singleton] at hstep
    rcases hstep with rfl | rfl | rfl
    · exact .plain "files"
    · exact .position "a" 2
    · exact .plain "b"
  have hset : (e.answer (.set second none)).1 = .ok .done := rfl
  obtain ⟨-, t, id, -, -, -, hget, -⟩ :=
    get_after_set "/" none .none _ second _ none hs rfl rfl (.inr ⟨hsteps, hset⟩)
  exact hget

end Engine

end LabelTree
