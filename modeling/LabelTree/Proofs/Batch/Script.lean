import LabelTree.Batch
import LabelTree.Proofs.Engine.Lines
import LabelTree.Proofs.Text.Lines
import Mathlib.Control.Monad.Basic

/-!
# Batch — line by line or all at once

A batch run hands its script to the engine line by line, where the engine cuts each line into lines
once more. The engine it starts with is ready, that is, open and without the record of a failure,
and stays so until a line fails; so the run takes the same turns as one run of the whole script, and
ends at the same line with the same engine (`RunOptions.execute_eq_runScript`).
-/

namespace LabelTree

open Engine (Turn Turns Ready)

variable {e e' : Engine} {line : String} {t : Turn} {report : RunReport}

@[simp] theorem ErrorInfo.isError_ofError (err : EngineError) : (ofError err).isError = true := by
  cases err <;> rfl

@[simp] theorem ErrorInfo.isError_default : ({} : ErrorInfo).isError = false :=
  rfl

theorem Outcome.eq_failed_of_status {outcome : Outcome} (h : outcome.status = -1) :
    outcome = .failed := by
  cases outcome with
  | failed => rfl
  | quit | done executed => cases h

/-! ## One line -/

namespace Engine

theorem run_runScript (he : e.Ready) (text : String) :
    (runScript text).run e = (runLines 0 "" (Text.lines text)).run e := by
  obtain ⟨⟨s, hs⟩, hrecord⟩ := And.intro (Option.isSome_iff_exists.mp he.isSome_session) he.record
  obtain ⟨session, record⟩ := e
  cases hs
  cases hrecord
  rfl

/-- A line that is run as a script takes its turn alone. -/
theorem run_runScript_line (he : e.Ready)
    (hline : Text.lines line = if line = "" then [] else [line]) (h : Turns line e t e') :
    (runScript line).run e =
      match t.outcome? with
      | none => ((.done t.executed, t.printed), e')
      | some outcome => ((outcome, ""), e') := by
  have hsingle : (runLines 0 "" (Text.lines line)).run e = (runLines 0 "" [line]).run e := by
    rw [hline]
    split
    · rename_i hempty
      have hblank : Command.parseLine "" = .ok none := by with_unfolding_all rfl
      rw [hempty]
      exact (run_runLines_cons (.passed hblank) 0 "" []).symm
    · rfl
  rw [run_runScript he, hsingle, run_runLines_cons h]
  cases t <;> rfl

end Engine

namespace Batch

/-- The report after a line that the run goes on after. -/
def passed (t : Turn) (report : RunReport) : RunReport :=
  { report with output := report.output ++ t.printed, executed := report.executed + t.executed }

/-- The report of a run that ends at the line with number `n`. -/
def stopped (n : Nat) (line : String) (t : Turn) (report : RunReport) : RunReport :=
  match t.outcome? with
  | some .failed =>
    { report with failure := some ⟨n, Text.trim line, t.error?.map ErrorInfo.ofError⟩ }
  | _ => { report with quit := true }

theorem run_runLines_cons (he : e.Ready)
    (hline : Text.lines line = if line = "" then [] else [line]) (h : Turns line e t e') (n : Nat)
    (report : RunReport) (rest : List String) :
    (runLines false n report (line :: rest)).run e =
      match t.outcome? with
      | none => (runLines false (n + 1) (passed t report) rest).run e'
      | some _ => (stopped n line t report, e') := by
  have hrun := Engine.run_runScript_line he hline h
  have hrecord := (he.of_turns h).2
  rw [runLines, StateT.run_bind, hrun]
  cases t with
  | passed | ran printed =>
    simp [Turn.outcome?, passed]
    rfl
  | quit =>
    show ({ report with output := report.output ++ "" ++ "", quit := true }, e') = _
    simp [stopped, Turn.outcome?]
  | refused | failed err =>
    show ({ report with
      output := report.output ++ "" ++ ""
      failure :=
        some ⟨n, Text.trim line, if e'.record.isError then some e'.record else none⟩ }, e') = _
    rw [hrecord]
    simp [stopped, Turn.outcome?, Turn.error?]

/-! ## All lines -/

/-- A batch run and a run over the same lines pass the same lines, or are ended by the same line,
whose turn is all that tells them apart. -/
theorem runLines_agree {lines : List String}
    (hlines : ∀ line ∈ lines, Text.lines line = if line = "" then [] else [line]) :
    ∀ {e : Engine} (n : Nat) (report : RunReport) {outcome : Outcome} {out : String} {e' : Engine},
      e.Ready →
      (Engine.runLines report.executed report.output lines).run e = ((outcome, out), e') →
      (∃ executed, outcome = .done executed ∧
        (runLines false n report lines).run e = ({ report with output := out, executed }, e')) ∨
      ∃ before line after executed e₁ t, lines = before ++ line :: after ∧
        (Engine.runLines report.executed report.output before).run e =
          ((.done executed, out), e₁) ∧
        Turns line e₁ t e' ∧ t.outcome? = some outcome ∧
        (runLines false n report lines).run e =
          (stopped (n + before.length) line t { report with output := out, executed }, e') := by
  induction lines with
  | nil =>
    intro e n report outcome out e' he h
    cases h
    exact .inl ⟨_, rfl, rfl⟩
  | cons line rest ih =>
    intro e n report outcome out e' he h
    have hline := hlines line List.mem_cons_self
    obtain ⟨t, e₁, ht⟩ := Engine.exists_turns line e
    rw [Engine.run_runLines_cons ht] at h
    rw [run_runLines_cons he hline ht]
    cases hend : t.outcome? with
    | some ending =>
      rw [hend] at h
      cases h
      exact .inr ⟨[], line, rest, _, e, t, rfl, rfl, ht, hend, rfl⟩
    | none =>
      rw [hend] at h
      have hready : e₁.Ready := he.turns ht hend
      have hrest := fun l hl => hlines l (List.mem_cons_of_mem line hl)
      rcases ih hrest (n + 1) (passed t report) hready h with
        ⟨executed, rfl, hrun⟩ |
        ⟨before, stop, after, executed, e₂, t', rfl, hbefore, hstop, hout, hrun⟩
      · exact .inl ⟨executed, rfl, hrun⟩
      · refine .inr ⟨line :: before, stop, after, executed, e₂, t', rfl, ?_, hstop, hout, ?_⟩
        · rw [Engine.run_runLines_cons ht, hend]
          exact hbefore
        · rw [List.length_cons, Nat.add_comm before.length, ← Nat.add_assoc]
          exact hrun

/-! ## Seeds -/

theorem ready_plant {seed : Option String} (he : e.Ready) (h : plant seed e = .ok e') :
    e'.Ready := by
  unfold plant at h
  split at h
  · cases h
    exact he
  · split at h
    · cases h
    · rename_i source _
      have hload := Engine.records_call (Edit.load filesPath source) e he.isSome_session
      split at h
      · cases h
      · rename_i hr
        cases h
        rw [show (Engine.call (Edit.load filesPath source)).run.run e = _ from hr] at hload
        exact ⟨hload.1, hload.2⟩

end Batch

/-- A batch run without echo and one run of its whole script from the same engine print the same,
count the same commands, and leave the same engine to take the dump of. Where they end before the
end of the script, they do so at the same line: all lines before it were passed, and the engine is
as that line leaves it, so that no later line has an effect. The line is a `quit`, or it is reported
as the one that failed, with a record if it is a command that failed and without one if it is no
command. -/
theorem RunOptions.execute_eq_runScript {o : RunOptions} (hecho : o.echo = false)
    (hinput : Text.isBlankText o.script = false ∨ o.dump = true)
    (hplant : Batch.plant o.seed (.create o.root o.loadPath o.flags) = .ok e)
    {outcome : Outcome} {out : String}
    (hrun : (Engine.runScript o.script).run e = ((outcome, out), e')) :
    ∃ report : RunReport,
      o.execute =
        (if o.dump then (Batch.takeDump e').map fun text => { report with dump := some text }
        else .ok report) ∧
      report.output = out ∧ (report.quit = true ↔ outcome.status = -2) ∧
      (report.failure.isSome = true ↔ outcome.status = -1) ∧
      (0 ≤ outcome.status → (report.executed : Int) = outcome.status) ∧
      (outcome.status < 0 → ∃ before line after e₁, Text.lines o.script = before ++ line :: after ∧
        (Engine.runLines 0 "" before).run e = ((.done report.executed, out), e₁) ∧
        (Command.parseLine line = .ok (some .quit) ∧ outcome = .quit ∧ e' = e₁ ∨
          ∃ error, report.failure = some ⟨before.length + 1, Text.trim line, error⟩ ∧
            ((∃ fault, Command.parseLine line = .error fault) ∧ error = none ∧ e' = e₁ ∨
              ∃ command err, Command.parseLine line = .ok (some command) ∧
                command.execute.run.run e₁ = (.error err, e') ∧ error = some (.ofError err)))) := by
  have hready : e.Ready := Batch.ready_plant ⟨rfl, rfl⟩ hplant
  rw [Engine.run_runScript hready] at hrun
  have hlines : ∀ line ∈ Text.lines o.script, Text.lines line = if line = "" then [] else [line] :=
    fun line => Text.lines_of_mem_lines
  have hexecute : ∀ report, (Batch.runLines false 1 {} (Text.lines o.script)).run e = (report, e') →
      o.execute =
        (if o.dump then (Batch.takeDump e').map fun text => { report with dump := some text }
        else .ok report) := by
    intro report h
    have hsome : (Text.isBlankText o.script && !o.dump) = false := by
      rcases hinput with h | h <;> simp [h]
    rw [execute, hsome, hplant, hecho]
    simp [h]
  rcases Batch.runLines_agree hlines 1 {} hready hrun with
    ⟨executed, rfl, h⟩ | ⟨before, line, after, executed, e₁, t, hsplit, hbefore, ht, hend, h⟩
  · refine ⟨_, hexecute _ h, rfl, ?_⟩
    simp [Outcome.status]
  · refine ⟨_, hexecute _ h, ?_⟩
    cases ht with
    | passed hparse | ran hparse hquit hfail => cases hend
    | quit hparse =>
      cases hend
      refine ⟨rfl, ⟨fun _ => rfl, fun _ => rfl⟩,
        by simp [Batch.stopped, Turn.outcome?, Outcome.status],
        fun h => absurd h (by decide), fun _ => ?_⟩
      exact ⟨before, line, after, e', hsplit, hbefore, .inl ⟨hparse, rfl, rfl⟩⟩
    | refused hparse =>
      cases hend
      refine ⟨rfl, by simp [Batch.stopped, Turn.outcome?, Outcome.status],
        ⟨fun _ => rfl, fun _ => rfl⟩, fun h => absurd h (by decide), fun _ => ?_⟩
      refine ⟨before, line, after, e', hsplit, hbefore,
        .inr ⟨none, ?_, .inl ⟨⟨_, hparse⟩, rfl, rfl⟩⟩⟩
      rw [Nat.add_comm]
      rfl
    | failed hparse hquit hfail =>
      cases hend
      refine ⟨rfl, by simp [Batch.stopped, Turn.outcome?, Outcome.status],
        ⟨fun _ => rfl, fun _ => rfl⟩, fun h => absurd h (by decide), fun _ => ?_⟩
      refine ⟨before, line, after, e₁, hsplit, hbefore,
        .inr ⟨_, ?_, .inr ⟨_, _, hparse, hfail, rfl⟩⟩⟩
      rw [Nat.add_comm]
      rfl

/-- The second of three lines is no command. -/
theorem RunOptions.execute_eq_runScript_refused :
    let o : RunOptions := { root := "/", script := "set /files/a 1\nrm\nset /files/b 2" }
    o.execute = .ok { executed := 1, failure := some ⟨2, "rm", none⟩ } ∧
      ((Engine.runScript o.script).run (.create o.root o.loadPath o.flags)).1 = (.failed, "") := by
  intro o
  have hexecute : o.execute = .ok { executed := 1, failure := some ⟨2, "rm", none⟩ } := by
    decide +kernel
  obtain ⟨report, hreport, hout, -, hfailed, -⟩ :=
    execute_eq_runScript (o := o) (e := .create o.root o.loadPath o.flags) rfl
      (.inl (by decide)) rfl rfl
  cases hexecute.symm.trans hreport
  exact ⟨hexecute, Prod.ext (Outcome.eq_failed_of_status (hfailed.mp rfl)) hout.symm⟩

end LabelTree
