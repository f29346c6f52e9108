import LabelTree.Proofs.Resolve.Meaning
import LabelTree.Proofs.Session.Effects
import LabelTree.Proofs.Store.Prune

/-!
# Session — removing the nodes of a path

Once a path is prepared, the root is all that a removal can be refused for. Else the nodes that the
path leads to are deleted one after the other, and what the deletions answer adds up to how much
smaller the store is.
-/

namespace LabelTree

open Store (root)

variable {s t : Session} {arg : PathArg} {own path : Path}

/-! ## Prepared paths -/

namespace Session

/-- A path without an append step is prepared when it is absolute, or the context is a path. -/
theorem exists_prepareExisting (hown : compileArg arg = .ok own)
    (hselect : ∀ step ∈ own.steps, step.isAppend = false)
    (hcontext : own.absolute = true ∨ ∃ base, Path.compile s.context = .ok base) :
    ∃ path, s.prepareExisting arg = .ok path := by
  have hnoAppend : own.isAppend = false := by
    rw [← Path.isSome_appendOffset?, Path.appendOffset?_eq_none hselect]
    rfl
  have hanchor : ∃ path, s.anchor own = .ok path := by
    cases habs : own.absolute with
    | true => exact ⟨own, anchor_eq_ok_iff.mpr (.inl ⟨habs, rfl⟩)⟩
    | false =>
      obtain ⟨base, hbase⟩ := hcontext.resolve_left (by simp [habs])
      exact ⟨own.rebase base, anchor_eq_ok_iff.mpr (.inr ⟨habs, base, hbase, rfl⟩)⟩
  obtain ⟨path, hpath⟩ := hanchor
  rw [prepareExisting_of_select hown hnoAppend]
  exact ⟨path, prepare_eq_ok_iff.mpr ⟨own, hown, hpath⟩⟩

/-- An absolute path is prepared as it is. -/
theorem eq_of_prepareExisting (hown : compileArg arg = .ok own) (habs : own.absolute = true)
    (h : s.prepareExisting arg = .ok path) : path = own := by
  obtain ⟨own', hown', hanchor⟩ := prepare_eq_ok_iff.mp (prepareExisting_eq_ok h).1
  cases hown.symm.trans hown'
  rcases anchor_eq_ok_iff.mp hanchor with ⟨-, rfl⟩ | ⟨hrel, -⟩
  · rfl
  · rw [habs] at hrel
    cases hrel

end Session

/-! ## Deletions -/

namespace Edit

/-- Deletions never fail, and their answers add up. -/
theorem run_removeAll (hs : s.store.WellFormed) (ids : List NodeId) :
    ∃ n t, (removeAll ids).run.run s = (.ok n, t) ∧ t.store = s.store.pruned ids ∧
      s.store.size = t.store.size + n := by
  induction ids generalizing s with
  | nil => exact ⟨0, s, rfl, rfl, rfl⟩
  | cons id rest ih =>
    obtain ⟨n, t, hrun, hstore, hsize⟩ :=
      ih (s := { s.touch id with store := (s.store.remove id).2 }) (hs.remove id)
    refine ⟨(s.store.remove id).1 + n, t, ?_, hstore, ?_⟩
    · unfold removeAll
      rw [run_bind_ok (run_touch id s), run_bind_ok (run_store _), Session.store_touch]
      dsimp only
      rw [run_bind_ok (run_setStore _ _), run_bind_ok hrun]
      rfl
    · rw [hs.size_remove id, hsize]
      omega

theorem run_remove_root (hpath : s.prepareExisting arg = .ok path) (hroot : root ∈ s.resolve path) :
    (remove arg).run.run s = (.error (.badArgument .rootRemoved), s) := by
  unfold remove
  rw [run_bind_ok (run_ask_of_ok hpath), run_bind_ok (run_get s)]
  dsimp only
  rw [if_pos (by simpa using hroot)]
  rfl

theorem run_remove (hs : s.store.WellFormed) (hpath : s.prepareExisting arg = .ok path)
    (hroot : root ∉ s.resolve path) :
    ∃ n t, (remove arg).run.run s = (.ok n, t) ∧ t.store = s.store.pruned (s.resolve path) ∧
      s.store.size = t.store.size + n := by
  unfold remove
  rw [run_bind_ok (run_ask_of_ok hpath), run_bind_ok (run_get s)]
  dsimp only
  rw [if_neg (by simpa using hroot)]
  exact run_removeAll hs _

end Edit

end LabelTree
