import LabelTree.Proofs.Engine.Operations
import LabelTree.Proofs.Session.Files
import LabelTree.Proofs.Snapshot.RoundTrip

/-!
# Batch — a dump as the next seed

A run keeps all nodes below the root and no label empty, so the text that it dumps is read back as
the copy of the subtree that it was written from, whose labels are not empty. Whether it can be
planted in a new engine is then a matter of slashes: a label with a slash is refused, though paths
can make and name such labels; without one the new run dumps the same text
(`RunOptions.dump_as_seed`).
-/

namespace LabelTree

variable {good : String → Prop} {e e' : Engine} {source : Snapshot} {d : String}

/-! ## Labels -/

theorem isPlainLabel_eq_not_contains {label : String} (h : label ≠ "") :
    isPlainLabel label = !label.toList.contains '/' := by
  have hempty : label.isEmpty = false := by simpa using h
  rw [isPlainLabel, hempty]
  rfl

/-- Among labels that are not empty those with a slash are not plain. -/
theorem Snapshot.firstBadLabel_eq_find?_slash (h : ∀ l ∈ source.labelsBelow, l ≠ "") :
    source.firstBadLabel = source.labelsBelow.find? (·.toList.contains '/') := by
  have hcongr : source.labelsBelow.filter (fun l => !isPlainLabel l) =
      source.labelsBelow.filter (·.toList.contains '/') := by
    refine List.filter_congr fun l hl => ?_
    rw [isPlainLabel_eq_not_contains (h l hl), Bool.not_not]
  rw [firstBadLabel_eq_find?, ← List.head?_filter, hcongr, List.head?_filter]

namespace Batch

/-! ## What a run keeps -/

section Answers

variable {α β : Type} {P : β → Prop}

/-- That whatever engine a computation runs on, what it answers satisfies `P`. -/
def Answers (P : β → Prop) (c : StateM Engine β) : Prop :=
  ∀ e : Engine, P (c.run e).1

theorem Answers.pure {b : β} (h : P b) : Answers P (pure b : StateM Engine β) :=
  fun _ => h

theorem Answers.bind {c : StateM Engine α} {f : α → StateM Engine β} (hf : ∀ a, Answers P (f a)) :
    Answers P (c >>= f) :=
  fun e => hf (c.run e).1 (c.run e).2

end Answers

theorem preserves_runLines (hgood : ∀ l, l ≠ "" → good l) (echo : Bool) (n : Nat)
    (report : RunReport) (lines : List String) :
    Engine.Preserves (Session.Rooted good) (runLines echo n report lines) := by
  induction lines generalizing n report with
  | nil => exact Engine.Preserves.pure _
  | cons line rest ih =>
    unfold runLines
    refine Engine.Preserves.bind (Engine.preserves_runScript hgood line) fun r => ?_
    obtain ⟨outcome, printed⟩ := r
    cases outcome with
    | quit => exact Engine.Preserves.pure _
    | failed =>
      exact Engine.Preserves.bind (fun _ he => he) fun _ => Engine.Preserves.pure _
    | done executed => exact ih _ _

/-- Only taking a dump puts one into the report. -/
theorem dump_runLines (echo : Bool) (n : Nat) (report : RunReport) (lines : List String) :
    Answers (fun r => r.dump = report.dump) (runLines echo n report lines) := by
  induction lines generalizing n report with
  | nil => exact Answers.pure rfl
  | cons line rest ih =>
    unfold runLines
    refine Answers.bind fun r => ?_
    obtain ⟨outcome, printed⟩ := r
    cases outcome with
    | quit => exact Answers.pure rfl
    | failed => exact Answers.bind fun _ => Answers.pure rfl
    | done executed => exact ih _ _

theorem holds_plant (hgood : ∀ l, l ≠ "" → good l) {seed : Option String}
    (he : e.Holds (Session.Rooted good)) (h : plant seed e = .ok e') :
    e'.Holds (Session.Rooted good) := by
  unfold plant at h
  split at h
  · cases h
    exact he
  · split at h
    · cases h
    · rename_i source _
      have hnames : filesPath.Names good := trivial
      have hload : Engine.Preserves (Session.Rooted good) (Engine.load filesPath source).run :=
        Engine.preserves_call fun s hs => Edit.load_settles hs hgood hnames source
      split at h
      · cases h
      · rename_i hr
        cases h
        have := hload e he
        rw [hr] at this
        exact this

/-! ## Dumps -/

theorem takeDump_of_snapshot {s : Session} (he : e.session = some s)
    (h : s.snapshot filesPath = .ok source) : takeDump e = .ok source.toJson := by
  have hrun : (Engine.snapshot filesPath).run.run e = _ := Engine.run_ask he (·.snapshot filesPath)
  rw [takeDump, hrun, h]

/-- What is dumped is the text of a snapshot that is not too deep, of which no label is empty. -/
theorem exists_of_takeDump (he : e.Holds (Session.Rooted (· ≠ ""))) (h : takeDump e = .ok d) :
    ∃ source : Snapshot, d = source.toJson ∧ source.label = Session.filesLabel ∧
      source.depth ≤ Snapshot.maxDepth ∧ ∀ l ∈ source.labelsBelow, l ≠ "" := by
  obtain ⟨s, hs⟩ : ∃ s, e.session = some s := by
    cases hs : e.session with
    | some s => exact ⟨s, rfl⟩
    | none =>
      have hrun : (Engine.snapshot filesPath).run.run e = _ := Engine.run_call_of_none hs _
      rw [takeDump, hrun] at h
      cases h
  have hrooted := he s hs
  have hwf := hrooted.wellFormed
  have hrun : (Engine.snapshot filesPath).run.run e = _ := Engine.run_ask hs (·.snapshot filesPath)
  rw [takeDump, hrun] at h
  cases hsource : s.snapshot filesPath with
  | error err => rw [hsource] at h; cases h
  | ok source =>
    rw [hsource] at h
    cases h
    obtain ⟨id, hid, hdepth, rfl⟩ := Session.snapshot_filesPath_eq_ok_iff.mp hsource
    obtain ⟨hparent, hlabel⟩ := Session.of_resolve_filesPath hwf hid
    have hc : s.store.contains id = true := Store.contains_of_parent hparent
    refine ⟨s.store.snapshot id, rfl, ?_, ?_, ?_⟩
    · rw [hwf.snapshot_eq, Store.shownLabel, hlabel]
      rfl
    · rw [← hwf.subtreeDepth_eq_depth hc]
      exact hdepth
    · refine hwf.forall_labelsBelow_snapshot (fun j hj hcj => ?_) id
      obtain ⟨l, hl, hne⟩ := hrooted.exists_label hj hcj
      rw [Store.shownLabel, hl]
      exact hne

/-! ## Seeds -/

variable {root : String} {loadPath : Option String} {flags : Flags}

/-- A snapshot with a label that is not plain is refused. -/
theorem plant_bad {label : String} (hread : Snapshot.ofJson d = .ok source)
    (hbad : source.firstBadLabel = some label) :
    plant (some d) (.create root loadPath flags) =
      .error (.engine (.badArgument (.snapshotLabel label))) := by
  have hrun : (Engine.load filesPath source).run.run (.create root loadPath flags) = _ :=
    Engine.run_call_of_some rfl _
  rw [plant, hread]
  dsimp only
  rw [hrun, Edit.run_load_bad hbad]

/-- A snapshot with plain labels is planted in a new engine, and then it is what is dumped. -/
theorem exists_plant (hread : Snapshot.ofJson d = .ok source) (hplain : source.firstBadLabel = none)
    (hlabel : source.label = Session.filesLabel) (hdepth : source.depth ≤ Snapshot.maxDepth) :
    ∃ e, plant (some d) (.create root loadPath flags) = .ok e ∧ takeDump e = .ok source.toJson := by
  obtain ⟨id, hid, hvalue, hchildren⟩ := Session.exists_files_create root loadPath flags
  have hrooted : (Session.create root loadPath flags).store.Rooted fun _ => True :=
    Session.rooted_create (fun _ _ => trivial) root loadPath flags
  have hs := hrooted.wellFormed
  have hne : id ≠ Store.root := hs.ne_root_of_parent (Session.of_resolve_filesPath hs hid).1
  have hrun : (Engine.load filesPath source).run.run (.create root loadPath flags) = _ :=
    Engine.run_call_of_some rfl _
  rw [Edit.run_load hplain (Session.prepare_filesPath _) (Session.locate_filesPath hid) hne] at hrun
  rw [plant, hread]
  dsimp only
  rw [hrun]
  refine ⟨_, rfl, takeDump_of_snapshot rfl ?_⟩
  exact Session.snapshot_load hs hid hvalue hchildren hlabel hdepth (Session.store_touch _ _)

end Batch

/-! ## Runs -/

namespace RunOptions

/-- A run without a script is its seed and its dump. -/
theorem execute_eq (root : String) (loadPath : Option String) (flags : Flags) (d : String)
    (echo : Bool) :
    execute { root, loadPath, flags, seed := some d, echo, dump := true } =
      (Batch.plant (some d) (.create root loadPath flags)).bind fun e =>
        (Batch.takeDump e).map fun text => { dump := some text } := by
  rw [execute]
  cases Batch.plant (some d) (.create root loadPath flags) with
  | error err => rfl
  | ok e => rfl

/-- A dump is taken of an engine of which all nodes are below the root and no label is empty. -/
theorem exists_takeDump {o : RunOptions} {report : RunReport} (h : o.execute = .ok report)
    (hd : report.dump = some d) :
    ∃ e : Engine, e.Holds (Session.Rooted (· ≠ "")) ∧ Batch.takeDump e = .ok d := by
  unfold execute at h
  split at h
  · cases h
  · split at h
    · cases h
    · rename_i e hplant
      have he := Batch.holds_plant (fun _ h => h)
        (Engine.holds_create (fun _ h => h) o.root o.loadPath o.flags) hplant
      have hrun := Batch.preserves_runLines (fun _ h => h) o.echo 1 {} (Text.lines o.script) e he
      have hnone := Batch.dump_runLines o.echo 1 {} (Text.lines o.script) e
      generalize (Batch.runLines o.echo 1 {} (Text.lines o.script)).run e = r at h hrun hnone
      obtain ⟨final, e'⟩ := r
      dsimp only at h hrun hnone
      split at h
      · cases hdump : Batch.takeDump _ with
        | error err => rw [hdump] at h; cases h
        | ok text =>
          rw [hdump] at h
          cases h
          cases hd
          exact ⟨_, hrun, hdump⟩
      · cases h
        rw [hnone] at hd
        cases hd

/-- The dump of a run is read back, and it seeds the next run exactly when no label in it has a
slash. Then a run without a script dumps it again; else the first label with a slash is refused. -/
theorem dump_as_seed {o : RunOptions} {report : RunReport} (h : o.execute = .ok report)
    (hd : report.dump = some d) (root : String) (loadPath : Option String) (flags : Flags)
    (echo : Bool) :
    let next : RunOptions := { root, loadPath, flags, seed := some d, echo, dump := true }
    ∃ source, Snapshot.ofJson d = .ok source ∧
      ((∀ l ∈ source.labelsBelow, '/' ∉ l.toList) → next.execute = .ok { dump := some d }) ∧
      ∀ l, source.labelsBelow.find? (·.toList.contains '/') = some l →
        next.execute = .error (.engine (.badArgument (.snapshotLabel l))) := by
  obtain ⟨e, he, hdump⟩ := exists_takeDump h hd
  obtain ⟨source, rfl, hlabel, hdepth, hlabels⟩ := Batch.exists_of_takeDump he hdump
  have hread : Snapshot.ofJson source.toJson = .ok source := by
    refine Snapshot.ofJson_print ?_
    unfold Snapshot.maxDepth at hdepth
    unfold Snapshot.maxNesting
    omega
  have hbad := Snapshot.firstBadLabel_eq_find?_slash hlabels
  refine ⟨source, hread, fun hslash => ?_, fun l hl => ?_⟩
  · have hplain : source.firstBadLabel = none := by
      rw [hbad, List.find?_eq_none]
      simpa using hslash
    obtain ⟨e', hplant, hagain⟩ := Batch.exists_plant hread hplain hlabel hdepth
    rw [execute_eq, hplant]
    show (Batch.takeDump e').map _ = _
    rw [hagain]
    rfl
  · rw [execute_eq, Batch.plant_bad hread (hbad.trans hl)]
    rfl

/-- A run that makes one node, and the run that its dump seeds. -/
theorem dump_as_seed_node :
    ∃ d, execute { root := "/", script := "set /files/a 1", dump := true } =
        .ok { executed := 1, dump := some d } ∧
      execute { root := "/", seed := some d, dump := true } = .ok { dump := some d } := by
  have hrun : execute { root := "/", script := "set /files/a 1", dump := true } =
      .ok { executed := 1,
            dump := some (Snapshot.mk "files" none [⟨"a", some "1", []⟩]).toJson } := by
    decide +kernel
  obtain ⟨source, hread, hsame, -⟩ := dump_as_seed hrun rfl "/" none .none false
  rw [Snapshot.ofJson_print (by decide)] at hread
  cases hread
  exact ⟨_, hrun, hsame (by decide)⟩

/-- A label with a slash can be made by name, and then the dump is refused as a seed. -/
theorem dump_as_seed_slash :
    ∃ d, execute { root := "/", script := "set /files/a\\/b 1", dump := true } =
        .ok { executed := 1, dump := some d } ∧
      execute { root := "/", seed := some d, dump := true } =
        .error (.engine (.badArgument (.snapshotLabel "a/b"))) :=
  ⟨(Snapshot.mk "files" none [⟨"a/b", some "1", []⟩]).toJson, by decide +kernel, by decide +kernel⟩

end RunOptions

end LabelTree
