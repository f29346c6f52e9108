import LabelTree.Proofs.Batch.Script
import LabelTree.Proofs.Engine.Operations
import LabelTree.Proofs.Engine.Steps

/-!
# Engine — the record of the last call

Callers decide from the record alone what to report, so what it says is fixed for every run: it is
the record of the last outcome, where a script counts as a success unless one of its commands fails
(`record_runLines`), and once the engine is closed nothing but the record of the refusal is written.
-/

namespace LabelTree

namespace ErrorInfo

/-- Only a path error has an offset. -/
theorem isSome_minor_ofResult {α : Type} (r : Except EngineError α) :
    (ofResult r).minor.isSome = true ↔ (ofResult r).code = .invalidPath := by
  cases r with
  | ok a => exact ⟨nofun, nofun⟩
  | error err => cases err <;> simp [ofResult, ofError, EngineError.code]

end ErrorInfo

namespace Engine

variable {e e' e₁ : Engine} {line : String} {lines before rest : List String} {t : Turn}
  {err : EngineError}

/-! ## Where a script stops -/

/-- No line ends a run as its last line does. -/
theorem Turn.outcome?_ne_done (t : Turn) (executed : Nat) : t.outcome? ≠ some (.done executed) := by
  cases t <;> simp [outcome?]

/-- A run over all of the lines goes on to the end. -/
def Passes (e : Engine) (lines : List String) (e' : Engine) : Prop :=
  ∃ executed out, (runLines 0 "" lines).run e = ((.done executed, out), e')

/-- A run over the lines stops at one whose command fails with the error. -/
def StopsWith (e : Engine) (lines : List String) (err : EngineError) : Prop :=
  ∃ before line after e₁ command, lines = before ++ line :: after ∧ e.Passes before e₁ ∧
    Command.parseLine line = .ok (some command) ∧ (command.execute.run.run e₁).1 = .error err

/-- What was run and printed before plays no part. -/
theorem passes_iff (executed : Nat) (out : String) :
    e.Passes lines e' ↔
      ∃ executed' out', (runLines executed out lines).run e = ((.done executed', out'), e') := by
  have hshift : ∀ {n n' : Nat} {o o' : String} {e : Engine},
      (∃ k p, (runLines n o lines).run e = ((.done k, p), e')) →
      ∃ k p, (runLines n' o' lines).run e = ((.done k, p), e') := by
    induction lines with
    | nil =>
      rintro n n' o o' e ⟨k, p, h⟩
      cases h
      exact ⟨n', o', rfl⟩
    | cons line rest ih =>
      rintro n n' o o' e ⟨k, p, h⟩
      obtain ⟨t, e₁, ht⟩ := exists_turns line e
      rw [run_runLines_cons ht] at h ⊢
      cases hend : t.outcome? with
      | none =>
        rw [hend] at h
        exact ih ⟨k, p, h⟩
      | some outcome =>
        rw [hend] at h
        cases h
        exact absurd hend (t.outcome?_ne_done k)
  exact ⟨hshift, hshift⟩

theorem passes_nil : e.Passes [] e' ↔ e' = e := by
  constructor
  · rintro ⟨executed, out, h⟩
    cases h
    rfl
  · rintro rfl
    exact ⟨0, "", rfl⟩

theorem passes_cons (ht : Turns line e t e₁) :
    e.Passes (line :: rest) e' ↔ t.outcome? = none ∧ e₁.Passes rest e' := by
  rw [Passes, run_runLines_cons ht]
  cases hend : t.outcome? with
  | none =>
    rw [passes_iff (0 + t.executed) ("" ++ t.printed)]
    simp
  | some outcome =>
    simp only [reduceCtorEq, false_and, iff_false]
    rintro ⟨executed, out, h⟩
    cases h
    exact t.outcome?_ne_done executed hend

theorem not_stopsWith_nil : ¬ e.StopsWith [] err := by
  rintro ⟨before, line, after, e₁, command, hlines, -⟩
  exact absurd hlines (by simp)

/-- A line whose command fails is the one that a run stops at, and any other that ends the run keeps
it from stopping later. -/
theorem stopsWith_cons (ht : Turns line e t e₁) :
    e.StopsWith (line :: rest) err ↔
      t.error? = some err ∨ t.outcome? = none ∧ e₁.StopsWith rest err := by
  constructor
  · rintro ⟨before, stop, after, e₂, command, hlines, hpasses, hparse, hrun⟩
    cases before with
    | nil =>
      cases hlines
      rw [passes_nil] at hpasses
      subst hpasses
      left
      cases ht with
      | refused hp | passed hp | quit hp =>
        cases hp.symm.trans hparse <;> cases hrun
      | failed hp hquit hr | ran hp hquit hr =>
        cases hp.symm.trans hparse
        rw [hr] at hrun
        cases hrun <;> rfl
    | cons first before =>
      cases hlines
      obtain ⟨hend, hpasses⟩ := (passes_cons ht).mp hpasses
      exact .inr ⟨hend, before, stop, after, e₂, command, rfl, hpasses, hparse, hrun⟩
  · rintro (hfails | ⟨hend, before, stop, after, e₂, command, rfl, hpasses, hparse, hrun⟩)
    · cases ht with
      | failed hparse hquit hrun =>
        cases hfails
        exact ⟨[], line, rest, e, _, rfl, passes_nil.mpr rfl, hparse, by rw [hrun]⟩
      | _ => cases hfails
    · exact ⟨line :: before, stop, after, e₂, command, rfl, (passes_cons ht).mpr ⟨hend, hpasses⟩,
        hparse, hrun⟩

/-- A run over lines leaves the record of the command that it stops at, or a clear one. -/
theorem record_runLines (he : e.Ready) (executed : Nat) (out : String) (lines : List String) :
    (∀ err, e.StopsWith lines err →
      ((runLines executed out lines).run e).2.record = .ofError err) ∧
    ((∀ err, ¬ e.StopsWith lines err) → ((runLines executed out lines).run e).2.record = {}) := by
  induction lines generalizing e executed out with
  | nil => exact ⟨fun err h => absurd h not_stopsWith_nil, fun _ => he.record⟩
  | cons line rest ih =>
    obtain ⟨t, e₁, ht⟩ := exists_turns line e
    simp only [stopsWith_cons ht, run_runLines_cons ht]
    cases hend : t.outcome? with
    | none =>
      have hnone : t.error? = none := by cases t <;> cases hend <;> rfl
      simpa [hnone] using ih (he.turns ht hend) _ _
    | some outcome =>
      have hrecord := (he.of_turns ht).2
      simp only [reduceCtorEq, false_and, or_false]
      constructor
      · intro err herr
        rw [hrecord, herr]
        rfl
      · intro hnone
        rw [hrecord, Option.eq_none_iff_forall_ne_some.mpr hnone]
        rfl

theorem isSome_session_runLines (he : e.Ready) (executed : Nat) (out : String)
    (lines : List String) :
    ((runLines executed out lines).run e).2.session.isSome = true := by
  induction lines generalizing e executed out with
  | nil => exact he.isSome_session
  | cons line rest ih =>
    obtain ⟨t, e₁, ht⟩ := exists_turns line e
    rw [run_runLines_cons ht]
    cases hend : t.outcome? with
    | none => exact ih (he.turns ht hend) _ _
    | some outcome => exact (he.of_turns ht).1

end Engine

/-! ## Operations -/

theorem Operation.records {operation : Operation} (hscript : ∀ text, operation ≠ .runScript text)
    (hclose : operation ≠ .close) : Engine.Records operation.call := by
  have hgood : ∀ l : String, l ≠ "" → True := fun _ _ => trivial
  rcases Operation.settled hgood fun arg _ => arg.names_any with ⟨α, m, g, hcall, -⟩ | ⟨text, h⟩ | h
  · rw [hcall]
    exact (Engine.records_call m).bind_pure g
  · exact absurd h (hscript text)
  · exact absurd h hclose

namespace Engine

variable {e : Engine} {operation : Operation}

/-- A closed engine refuses everything, a script by the way it ends. -/
theorem answer_of_closed (h : e.session = none) (operation : Operation) :
    e.answer operation =
      (match operation with
        | .runScript _ => .ok (.ran .failed "")
        | _ => .error .instanceClosed, { e with record := .ofError .instanceClosed }) := by
  obtain ⟨session, record⟩ := e
  cases h
  cases operation <;> rfl

/-- A script starts with a clear record. -/
theorem answer_runScript {s : Session} (h : e.session = some s) (text : String) :
    let ended := (runLines 0 "" (Text.lines text)).run { e with record := {} }
    e.answer (.runScript text) = (.ok (.ran ended.1.1 ended.1.2), ended.2) := by
  obtain ⟨session, record⟩ := e
  cases h
  rfl

theorem ready_clear {s : Session} (h : e.session = some s) :
    ({ e with record := {} } : Engine).Ready :=
  ⟨by rw [h]; rfl, rfl⟩

theorem record_answer (hscript : ∀ text, operation ≠ .runScript text) (e : Engine) :
    (e.answer operation).2.record = .ofResult (e.answer operation).1 := by
  cases hs : e.session with
  | none =>
    rw [answer_of_closed hs]
    cases operation with
    | runScript text => exact absurd rfl (hscript text)
    | _ => rfl
  | some s =>
    by_cases hclose : operation = .close
    · subst hclose
      rw [show e.answer .close = _ from Operation.run_close_of_some hs]
      rfl
    · exact (Operation.records hscript hclose e (by rw [hs]; rfl)).2

/-- Every record is that of an outcome. -/
theorem exists_record_answer (e : Engine) (operation : Operation) :
    ∃ r : Except EngineError Unit, (e.answer operation).2.record = .ofResult r := by
  by_cases hscript : ∃ text, operation = .runScript text
  · obtain ⟨text, rfl⟩ := hscript
    cases hs : e.session with
    | none => exact ⟨.error .instanceClosed, by rw [answer_of_closed hs]; rfl⟩
    | some s =>
      obtain ⟨hstops, hpasses⟩ := record_runLines (ready_clear hs) 0 "" (Text.lines text)
      rw [answer_runScript hs]
      by_cases herr : ∃ err, StopsWith { e with record := {} } (Text.lines text) err
      · obtain ⟨err, herr⟩ := herr
        exact ⟨.error err, hstops err herr⟩
      · exact ⟨.ok (), hpasses (not_exists.mp herr)⟩
  · refine ⟨(e.answer operation).1.map fun _ => (), ?_⟩
    rw [record_answer (not_exists.mp hscript)]
    cases (e.answer operation).1 <;> rfl

theorem isClosed_answer (e : Engine) (operation : Operation) :
    (e.answer operation).2.isClosed = true ↔ e.isClosed = true ∨ operation = .close := by
  cases hs : e.session with
  | none => simp [answer_of_closed hs, isClosed, hs]
  | some s =>
    by_cases hclose : operation = .close
    · subst hclose
      rw [show e.answer .close = _ from Operation.run_close_of_some hs]
      simp [isClosed]
    have hopen : (e.answer operation).2.session.isSome = true := by
      by_cases hscript : ∃ text, operation = .runScript text
      · obtain ⟨text, rfl⟩ := hscript
        rw [answer_runScript hs]
        exact isSome_session_runLines (ready_clear hs) 0 "" _
      · exact (Operation.records (not_exists.mp hscript) hclose e (by rw [hs]; rfl)).1
    simp [isClosed, hs, hclose, Option.isSome_iff_ne_none.mp hopen]

theorem isClosed_after (e : Engine) (operations : List Operation) :
    (e.after operations).isClosed = true ↔ e.isClosed = true ∨ .close ∈ operations := by
  induction operations generalizing e with
  | nil => simp [after]
  | cons operation rest ih =>
    rw [after_cons, ih, isClosed_answer, List.mem_cons, or_assoc, eq_comm (a := operation)]

theorem exists_record_after (h : ∃ r : Except EngineError Unit, e.record = .ofResult r)
    (operations : List Operation) :
    ∃ r : Except EngineError Unit, (e.after operations).record = .ofResult r := by
  induction operations generalizing e with
  | nil => exact h
  | cons operation rest ih => exact ih (exists_record_answer e operation)

/-- The record over a whole run: after an operation it is that of the operation's outcome, and after
a script it is that of the command that the script stopped at, if a command failed, and clear
otherwise. It has an offset exactly for a path error. The first close succeeds, and from then on
every operation fails in the same way, scripts too, and changes nothing but the record. -/
theorem record_of_run (root : String) (loadPath : Option String) (flags : Flags)
    (operations : List Operation) (operation : Operation) :
    let e := (create root loadPath flags).after operations
    let answered := e.answer operation
    ((∀ text, operation ≠ .runScript text) → answered.2.record = .ofResult answered.1) ∧
      (∀ text, operation = .runScript text → .close ∉ operations →
        (∀ err, StopsWith { e with record := {} } (Text.lines text) err →
          answered.2.record = .ofError err) ∧
        ((∀ err, ¬ StopsWith { e with record := {} } (Text.lines text) err) →
          answered.2.record = {})) ∧
      (e.record.minor.isSome = true ↔ e.record.code = .invalidPath) ∧
      (.close ∉ operations → (e.answer .close).1 = .ok .done) ∧
      (.close ∈ operations →
        answered.1 = (match operation with
          | .runScript _ => .ok (.ran .failed "")
          | _ => .error .instanceClosed) ∧
        answered.2 = { e with record := .ofError .instanceClosed } ∧ e.session = none) := by
  intro e answered
  have hclosed : e.isClosed = true ↔ .close ∈ operations :=
    (isClosed_after _ operations).trans (or_iff_right nofun)
  have hopen : .close ∉ operations → ∃ s, e.session = some s := by
    rw [← hclosed, isClosed, Option.isNone_iff_eq_none, ← ne_eq, Option.ne_none_iff_exists']
    exact id
  obtain ⟨r, hr⟩ := exists_record_after (e := create root loadPath flags) ⟨.ok (), rfl⟩ operations
  refine ⟨fun hscript => record_answer hscript e, ?_, ?_, ?_, ?_⟩
  · rintro text rfl hnot
    obtain ⟨s, hs⟩ := hopen hnot
    have hrecord := record_runLines (ready_clear hs) 0 "" (Text.lines text)
    rwa [show answered = _ from answer_runScript hs text]
  · rw [show e.record = _ from hr]
    exact ErrorInfo.isSome_minor_ofResult r
  · intro hnot
    obtain ⟨s, hs⟩ := hopen hnot
    rw [show e.answer .close = _ from Operation.run_close_of_some hs]
  · intro hclose
    have hs : e.session = none := Option.isNone_iff_eq_none.mp (hclosed.mpr hclose)
    rw [show answered = _ from answer_of_closed hs operation]
    exact ⟨rfl, rfl, hs⟩

/-- A script that saves and then asks for the root to be removed leaves the record of that. -/
theorem record_of_run_script :
    ((create "/" none .none).answer (.runScript "save\nrm /\nsave")).2.record =
      .ofError (.badArgument .rootRemoved) := by
  have hlines : Text.lines "save\nrm /\nsave" = ["save", "rm /", "save"] := by decide +kernel
  have hparse : Command.parseLine "rm /" = .ok (some (.rm "/")) := by decide +kernel
  have hpasses : (create "/" none .none).Passes ["save"]
      ((runLines 0 "" ["save"]).run (create "/" none .none)).2 :=
    ⟨1, "", by with_unfolding_all rfl⟩
  have hstops : StopsWith (create "/" none .none) (Text.lines "save\nrm /\nsave")
      (.badArgument .rootRemoved) :=
    ⟨["save"], "rm /", ["save"], _, _, hlines, hpasses, hparse, by with_unfolding_all rfl⟩
  exact ((record_of_run "/" none .none [] (.runScript _)).2.1 _ rfl nofun).1 _ hstops

end Engine

end LabelTree
