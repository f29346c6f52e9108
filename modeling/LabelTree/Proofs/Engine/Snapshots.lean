import LabelTree.Proofs.Engine.Operations
import LabelTree.Proofs.Snapshot.RoundTrip
import LabelTree.Proofs.Snapshot.Subtree
import LabelTree.Proofs.Session.Read

/-!
# Engine — the text of what it copies

A snapshot of at most `Snapshot.maxDepth` levels is read back from its text: each level nests two
brackets, which the reader takes. The engine counts the levels of a subtree by a walk before it
copies any of it, and the copy has as many levels as were counted, so that every snapshot it answers
has a text that can be read.
-/

namespace LabelTree

namespace Snapshot

variable {source other : Snapshot}

theorem ofJson_of_depth_le (source : Snapshot) (h : source.depth ≤ maxDepth) :
    ofJson source.toJson = .ok source :=
  ofJson_print (by simp only [maxDepth, maxNesting] at *; omega)

/-- Different snapshots have different texts. -/
theorem toJson_eq_iff (hs : source.depth ≤ maxDepth) (ho : other.depth ≤ maxDepth) :
    source.toJson = other.toJson ↔ source = other := by
  constructor
  · intro h
    have hread : (Except.ok source : Except Json.Fault Snapshot) = .ok other := by
      rw [← source.ofJson_of_depth_le hs, ← other.ofJson_of_depth_le ho, h]
    exact Except.ok.inj hread
  · exact congrArg toJson

end Snapshot

namespace Engine

variable {e e' : Engine}

/-- What an engine answers is what its session copies. -/
theorem exists_snapshot_of_answer {arg : PathArg} {source : Snapshot}
    (h : e.answer (.snapshot arg) = (.ok (.snapshot source), e')) :
    ∃ s, e.session = some s ∧ s.snapshot arg = .ok source := by
  rw [show e.answer (.snapshot arg) = _
    from run_bind_pure (Engine.snapshot arg) Reply.snapshot e] at h
  cases hs : e.session with
  | none =>
    rw [show (Engine.snapshot arg).run.run e = _ from run_call_of_none hs _] at h
    cases h
  | some s =>
    rw [show (Engine.snapshot arg).run.run e = _ from run_ask hs (·.snapshot arg)] at h
    cases hq : s.snapshot arg with
    | error err =>
      rw [hq] at h
      cases h
    | ok copied =>
      rw [hq] at h
      cases h
      exact ⟨s, rfl, hq⟩

/-- Each snapshot of at most `Snapshot.maxDepth` levels is read back from its text, so that
snapshots with one text are the same, a value that is empty and one that is absent included.
Whatever operations were run, the copy that an engine answers has no more levels than that. -/
theorem snapshots_read_back :
    (∀ source : Snapshot, source.depth ≤ Snapshot.maxDepth →
      Snapshot.ofJson source.toJson = .ok source ∧
        ∀ other : Snapshot, other.depth ≤ Snapshot.maxDepth →
          (source.toJson = other.toJson ↔ source = other)) ∧
      ∀ (root : String) (loadPath : Option String) (flags : Flags) (operations : List Operation)
        (arg : PathArg) (source : Snapshot) (e : Engine),
        ((create root loadPath flags).after operations).answer (.snapshot arg) =
          (.ok (.snapshot source), e) → source.depth ≤ Snapshot.maxDepth := by
  refine ⟨fun source hs => ⟨source.ofJson_of_depth_le hs, fun other ho =>
      Snapshot.toJson_eq_iff hs ho⟩,
    fun root loadPath flags operations arg source e h => ?_⟩
  obtain ⟨s, hs, hsource⟩ := exists_snapshot_of_answer h
  obtain ⟨path, id, -, hid, hdepth, rfl⟩ := Session.snapshot_eq_ok_iff.mp hsource
  have hw := (holds_after_create root loadPath flags operations s hs).wellFormed
  have hmem : id ∈ s.resolve path := by simp [hid]
  rw [← hw.subtreeDepth_eq_depth (hw.contains_of_mem_resolve path hw.contains_root hmem)]
  exact hdepth

/-- The copy of a node with an empty value, and that of the same node without a value. -/
theorem snapshots_read_back_empty :
    let a : Path := ⟨"/files/a", true,
      [.select (.child (.exact "files")) [], .select (.child (.exact "a")) []]⟩
    let e := (create "/" none .none).after [.set (.compiled a) (some "")]
    let source : Snapshot := { label := "a", value := some "" }
    (∃ e', e.answer (.snapshot (.compiled a)) = (.ok (.snapshot source), e')) ∧
      source.depth ≤ Snapshot.maxDepth ∧ Snapshot.ofJson source.toJson = .ok source ∧
      source.toJson ≠ Snapshot.toJson { label := "a" } := by
  intro a e source
  have hanswer : e.answer (.snapshot (.compiled a)) = (.ok (.snapshot source), _) := rfl
  have hdepth : source.depth ≤ Snapshot.maxDepth :=
    snapshots_read_back.2 "/" none .none _ _ _ _ hanswer
  obtain ⟨hread, hsame⟩ := snapshots_read_back.1 source hdepth
  refine ⟨⟨_, hanswer⟩, hdepth, hread, fun h => ?_⟩
  have heq : source = { label := "a" } := (hsame _ (by decide)).mp h
  exact absurd (congrArg Snapshot.value heq) (by decide)

end Engine

end LabelTree
