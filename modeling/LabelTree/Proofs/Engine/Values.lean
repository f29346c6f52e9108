import LabelTree.Proofs.Engine.Effects
import LabelTree.Proofs.Session.Chains
import LabelTree.Proofs.Session.Writes

/-!
# Engine — the order of values

Several values that are written to one path end up side by side in the order in which they are
given. Where the path finds a node they begin with it, and else they come last among the siblings
that share their label.
-/

namespace LabelTree

open Store (root)

variable {s t u : Session} {path : Path} {location : Location} {id : NodeId} {first : Option String}
  {rest : List (Option String)}

/-! ## Values at a location -/

namespace Session

/-- What writing values at a location does. -/
def WritesAt (s : Session) (path : Path) (values : List (Option String)) (t : Session) :
    Location → Prop
  | .found id => ∃ p l ids, s.store.WritesFrom p l id ids values t.store
  | .missing anchor i => ∃ labels l p ids,
    (path.steps.drop i).map Step.newLabel? = (labels ++ [l]).map some ∧
      t.store.Hangs anchor labels p ∧ (labels ≠ [] → s.store.contains p = false) ∧
      s.store.WritesLast p l ids values t.store

theorem Reaches.writesAt (h : s.Reaches path location id u) (hs : s.store.Rooted fun _ => True)
    (hlocation : s.locate path = .ok location) (hroot : location ≠ .found root)
    (first : Option String) (rest : List (Option String)) :
    s.WritesAt path (first :: rest) ({ u with store := u.store.withValues id first rest }.touch id)
      location := by
  have hstore := locate_eq_ok hlocation
  have hcroot := hs.wellFormed.contains_root
  cases h with
  | found =>
    have hc := hs.wellFormed.contains_of_locate_found hcroot hstore
    have hne : id ≠ root := fun heq => hroot (congrArg Location.found heq)
    obtain ⟨p, hp⟩ := hs.exists_parent hne hc
    obtain ⟨l, hl, -⟩ := hs.exists_label hne hc
    obtain ⟨ids, hids⟩ := hs.wellFormed.writesFrom hp hl first rest
    rw [WritesAt, store_touch]
    exact ⟨p, l, ids, hids⟩
  | @made anchor _ i labels store hlabels hchain =>
    obtain ⟨hc, hne, -⟩ := hs.wellFormed.of_locate_missing hcroot hstore
    have hnonempty := Step.labels_ne_nil hne hlabels
    obtain ⟨above, l, rfl⟩ := (List.eq_nil_or_concat' labels).resolve_left hnonempty
    obtain ⟨p, ids, hhangs, hnew, hwrites⟩ :=
      hchain.writesLast hs (fun _ _ => trivial) hc first rest
    rw [WritesAt, store_touch, store_touch]
    exact ⟨above, l, p, id :: ids, hlabels, hhangs, hnew, hwrites⟩

end Session

/-! ## Writing values -/

namespace Engine

variable {e e' : Engine} {arg : PathArg} {values : List (Option String)} {reply : Reply}

theorem answer_setMany (hs : e.session = some s) (arg : PathArg) (values : List (Option String)) :
    let ran := (Edit.setMany arg values).run.run s
    e.answer (.setMany arg values) = (ran.1.map .count, ⟨some ran.2, .ofResult ran.1⟩) :=
  run_call_bind_pure hs (Edit.setMany arg values) Reply.count

/-- Values that were written to a path are all counted, and stand in order. Where the path leads to
a node, that node and new siblings right after it have them, and its siblings with the same label
are in the order that they had. Else the path is made below its anchor: all nodes but those with the
values are as before, and these are new, come last among the siblings with their label, and are
together in the list of children. -/
theorem values_in_order (root : String) (loadPath : Option String) (flags : Flags)
    (operations : List Operation) (arg : PathArg) (values : List (Option String))
    (hs : ((create root loadPath flags).after operations).session = some s)
    (h : ((create root loadPath flags).after operations).answer (.setMany arg values) =
      (.ok reply, e')) :
    reply = .count values.length ∧ ∃ t path location, e'.session = some t ∧
      s.prepare arg = .ok path ∧
      s.locate path = .ok location ∧ s.WritesAt path values t location := by
  have hrooted := holds_after_create root loadPath flags operations s hs
  rw [answer_setMany hs] at h
  cases hrun : (Edit.setMany arg values).run.run s with
  | mk r t =>
    rw [hrun] at h
    cases r with
    | error err => cases h
    | ok n =>
      cases h
      obtain ⟨first, rest, path, location, id, u, rfl, hpath, hlocation, hroot, hreach, rfl⟩ :=
        Edit.setMany_of_run hrun
      -- the answer is the one that writing values at this location gives
      have hcount := Edit.run_setMany hpath hlocation hroot hreach first rest
      rw [hrun] at hcount
      cases hcount
      exact ⟨rfl, _, path, location, rfl, hpath, hlocation,
        hreach.writesAt hrooted hlocation hroot first rest⟩

/-- Two values are written from the first of two siblings on, and the second sibling comes after
them. -/
theorem values_in_order_siblings :
    let files : Step := .select (.child (.exact "files")) []
    let all : PathArg := .compiled ⟨"/files/a", true, [files, .select (.child (.exact "a")) []]⟩
    let one : PathArg :=
      .compiled ⟨"/files/a[1]", true, [files, .select (.child (.exact "a")) [.position 1]]⟩
    let e := (create "/" none .none).after [.setMany all [some "0", some "3"]]
    ∃ t p, (e.answer (.setMany one [some "1", some "2"])).2.session = some t ∧
      (t.store.labelled p "a").map t.store.value = [some "1", some "2", some "3"] := by
  intro files all one e
  obtain ⟨s, hs, ⟨path, hpath, hlocation⟩, hparent, hlabel, hlabelled, hposition, hc, hvalue⟩ :
      ∃ s, e.session = some s ∧
        (∃ path, s.prepare one = .ok path ∧ s.locate path = .ok (.found ⟨8, 0⟩)) ∧
        s.store.parent ⟨8, 0⟩ = some ⟨7, 0⟩ ∧ s.store.label ⟨8, 0⟩ = some "a" ∧
        s.store.labelled ⟨7, 0⟩ "a" = [⟨8, 0⟩, ⟨9, 0⟩] ∧ s.store.position ⟨8, 0⟩ = 1 ∧
        s.store.contains ⟨9, 0⟩ = true ∧ s.store.value ⟨9, 0⟩ = some "3" :=
    ⟨_, rfl, ⟨_, rfl, rfl⟩, rfl, rfl, rfl, rfl, rfl, rfl⟩
  obtain ⟨e', h⟩ : ∃ e', e.answer (.setMany one [some "1", some "2"]) = (.ok (.count 2), e') :=
    ⟨_, rfl⟩
  obtain ⟨-, t, path', location, ht, hpath', hlocation', hw⟩ :=
    values_in_order "/" none .none _ one [some "1", some "2"] hs h
  cases hpath.symm.trans hpath'
  cases hlocation.symm.trans hlocation'
  obtain ⟨p, l, ids, hw⟩ := hw
  cases hparent.symm.trans hw.parent
  cases hlabel.symm.trans hw.label
  have hlast : t.store.value ⟨9, 0⟩ = some "3" := by
    rw [hw.others _ hc (by decide), hvalue]
  refine ⟨t, ⟨7, 0⟩, by rw [h]; exact ht, ?_⟩
  rw [hw.labelled, hlabelled, hposition, List.map_append, List.map_append, hw.values]
  simp [hlast]

end Engine

end LabelTree
