import LabelTree.Proofs.Session.Create
import LabelTree.Session.Read

/-!
# Session — reading what a path leads to

Reading prepares the argument first and fails exactly as that does. A path that was prepared is
resolved, and what is read are the nodes it leads to (`exists_path_of_entries`). Text is trimmed
before it is compiled, so an absolute path without an append step is prepared as it was compiled
(`prepareExisting_text`).
-/

namespace LabelTree

theorem Path.appendOffset?_eq_none {path : Path}
    (h : ∀ step ∈ path.steps, step.isAppend = false) : path.appendOffset? = none := by
  rw [appendOffset?]
  split
  · rename_i label offset hlast
    cases h _ (List.mem_of_getLast? hlast)
  · rfl

namespace Session

variable {s : Session} {t : String} {path : Path} {id : NodeId}

theorem prepareExisting_text (hc : Path.compile (Text.trim t) = .ok path)
    (habsolute : path.absolute = true) (hselect : path.appendOffset? = none) :
    s.prepareExisting (.text t) = .ok path := by
  have hown : compileArg (.text t) = .ok path := compileArg_text_eq_ok_iff.mpr hc
  have happend : path.isAppend = false := by
    rw [← Path.isSome_appendOffset?, hselect]
    rfl
  rw [prepareExisting_of_select hown happend]
  exact prepare_eq_ok_iff.mpr ⟨path, hown, anchor_eq_ok_iff.mpr (.inl ⟨habsolute, rfl⟩)⟩

theorem prepareExisting_text_error {err : PathError}
    (hc : Path.compile (Text.trim t) = .error err) :
    s.prepareExisting (.text t) = .error (.invalidPath (Text.trim t) err) := by
  rw [prepareExisting, compileArg, hc]
  rfl

theorem get_of_resolve {arg : PathArg} (hpath : s.prepareExisting arg = .ok path)
    (hid : s.resolve path = [id]) : s.get arg = .ok (s.store.value id) := by
  rw [get, hpath]
  simp only [bind, Except.bind, hid]
  rfl

theorem entries_of_prepare {arg : PathArg} (hpath : s.prepareExisting arg = .ok path) :
    s.entries arg .nodes = .ok ((s.resolve path).map s.store.entry) := by
  rw [entries, hpath]
  rfl

theorem get_of_prepare_error {arg : PathArg} {err : EngineError}
    (h : s.prepareExisting arg = .error err) : s.get arg = .error err := by
  rw [get, h]
  rfl

theorem entries_of_prepare_error {arg : PathArg} {err : EngineError}
    (h : s.prepareExisting arg = .error err) : s.entries arg .nodes = .error err := by
  rw [entries, h]
  rfl

/-- What is listed for a path are the nodes that it leads to. -/
theorem exists_path_of_entries {arg : PathArg} {entries : List Entry}
    (h : s.entries arg .nodes = .ok entries) :
    ∃ path, s.prepareExisting arg = .ok path ∧ entries = (s.resolve path).map s.store.entry := by
  cases hp : s.prepareExisting arg with
  | error err =>
    rw [entries_of_prepare_error hp] at h
    cases h
  | ok path =>
    rw [entries_of_prepare hp] at h
    exact ⟨path, rfl, (Except.ok.inj h).symm⟩

/-- What is copied: the one node that a path leads to, unless it is too deep. -/
theorem snapshot_eq_ok_iff {arg : PathArg} {source : Snapshot} :
    s.snapshot arg = .ok source ↔ ∃ path id, s.prepareExisting arg = .ok path ∧
      s.resolve path = [id] ∧ s.store.subtreeDepth id ≤ Snapshot.maxDepth ∧
      s.store.snapshot id = source := by
  rw [snapshot]
  constructor
  · intro h
    cases hp : s.prepareExisting arg with
    | error err => rw [hp] at h; cases h
    | ok path =>
      cases hr : s.resolveSingle path with
      | error err => simp only [hp, hr, bind, Except.bind] at h; cases h
      | ok id =>
        simp only [hp, hr, bind, Except.bind] at h
        split at h
        · cases h
        · rename_i hdepth
          exact ⟨path, id, rfl, resolveSingle_eq_ok hr, Nat.not_lt.mp hdepth, Except.ok.inj h⟩
  · rintro ⟨path, id, hp, hid, hdepth, rfl⟩
    have hr : s.resolveSingle path = .ok id := by rw [resolveSingle, hid]
    simp only [hp, hr, bind, Except.bind]
    exact if_neg (Nat.not_lt.mpr hdepth)

end Session

end LabelTree
