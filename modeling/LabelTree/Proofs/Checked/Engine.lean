import LabelTree.Checked.Engine
import LabelTree.Proofs.Checked.Edit
import LabelTree.Proofs.Engine.Lines
import LabelTree.Proofs.Engine.Operations

/-!
# Partial steps — engines

A call agrees with its edit and keeps a record that can always be made. Scripts are runs of calls,
so by induction over their lines they agree too, and with them every operation
(`mirrors_operationCall`). A session that an engine can have is sound, since its store is
well-formed.
-/

namespace LabelTree.Checked

variable {α β : Type}

/-! ## Calls -/

theorem recordOf_eq (e : EngineError) : recordOf e = some (.ofError e) := by
  rw [recordOf, details_eq]
  rfl

theorem recordOfResult_eq (result : Except EngineError α) :
    recordOfResult result = some (.ofResult result) := by
  cases result with
  | ok a => rfl
  | error e => exact recordOf_eq e

theorem run_refuse (e : Engine) :
    (refuse : Call α).run.run e =
      some (.error .instanceClosed, { e with record := .ofError .instanceClosed }) := by
  have hrun : (refuse : Call α).run.run e = (recordOf .instanceClosed).bind fun record =>
      some (.error .instanceClosed, { e with record }) := rfl
  rw [hrun, recordOf_eq, Option.bind_some]

theorem mirrors_call {c : Edit α} {m : LabelTree.Edit α} (h : Mirrors Sound c m) :
    Mirrors (Engine.Holds Sound) (call c) (Engine.call m) := by
  intro e he
  cases hs : e.session with
  | none =>
    have hrun : (call c).run.run e = refuse.run.run e := by
      obtain ⟨session, record⟩ := e
      cases hs
      rfl
    rw [hrun, run_refuse, Engine.run_call_of_none hs]
    exact ⟨rfl, he, fun _ _ => trivial⟩
  | some s =>
    obtain ⟨hm, hkeep, -⟩ := h s (he s hs)
    have hrun : (call c).run.run e =
        (c.run.run s).bind fun r => (recordOfResult r.1).bind fun record =>
          some (r.1, ⟨some r.2, record⟩) := by
      obtain ⟨session, record⟩ := e
      cases hs
      rfl
    rw [hrun, hm, Option.bind_some, recordOfResult_eq, Engine.run_call_of_some hs]
    refine ⟨rfl, fun t ht => ?_, fun _ _ => trivial⟩
    cases ht
    exact hkeep

theorem mirrors_question {question : Session → Answer α} {model : Session → Except EngineError α}
    (h : ∀ s, question s = answered (model s)) :
    Mirrors (Engine.Holds Sound) (ask question)
      (Engine.call (LabelTree.Edit.ask model)) :=
  mirrors_call (Edit.mirrors_ask h)

theorem mirrors_close : Mirrors (Engine.Holds Sound) close Engine.close := by
  intro e he
  obtain ⟨session, record⟩ := e
  cases session with
  | none => exact ⟨run_refuse _, he, fun _ h => nomatch h⟩
  | some s =>
    have hrun : close.run.run ⟨some s, record⟩ =
        (size s.store).bind fun _ => some (.ok (), ⟨none, {}⟩) := rfl
    rw [hrun, size_eq (he s rfl)]
    exact ⟨rfl, (fun _ h => nomatch h), fun _ _ => trivial⟩

/-! ## Scripts -/

theorem mirrors_execute (command : Command) :
    Mirrors (Engine.Holds Sound) (execute command) command.execute := by
  cases command with
  | get path =>
    refine (mirrors_question (entries_eq · _ .nodes)).bind fun found _ => ?_
    split
    · exact .pure trivial
    · exact (mirrors_question (readValue_eq · _)).map _
  | set path value => exact (mirrors_call (Edit.mirrors_set _ _)).map _
  | clear path => exact (mirrors_call (Edit.mirrors_set _ none)).map _
  | rm path => exact (mirrors_call (Edit.mirrors_remove _)).map _
  | mv src dst => exact (mirrors_call (Edit.mirrors_move _ _)).map _
  | «match» path value =>
    refine (mirrors_question (entries_eq · _ .nodes)).bind fun found _ => ?_
    dsimp only
    split <;> exact .pure trivial
  | ls path => exact (mirrors_question (entries_eq · _ .children)).map _
  | print path => exact (mirrors_question (entries_eq · _ .subtree)).map _
  | ins label before path => exact (mirrors_call (Edit.mirrors_insert _ label before)).map _
  | save => exact (mirrors_call Edit.mirrors_save).map _
  | quit => exact .pure trivial

/-- A command is run before the run goes on or ends. -/
theorem runLines_cons_command {command : Command} {line : String}
    (hparse : Command.parseLine line = .ok (some command)) (hquit : command ≠ .quit)
    (executed : Nat) (out : String) (rest : List String) :
    runLines executed out (line :: rest) = (execute command).run >>= fun
      | .error _ => pure (.failed, out)
      | .ok printed => runLines (executed + 1) (out ++ printed) rest := by
  rw [runLines, hparse]
  cases command with
  | quit => exact absurd rfl hquit
  | _ => rfl

theorem run_runLines (executed : Nat) (out : String) (lines : List String) {e : Engine}
    (he : e.Holds Sound) :
    (runLines executed out lines).run e = some ((Engine.runLines executed out lines).run e) ∧
      ((Engine.runLines executed out lines).run e).2.Holds Sound := by
  induction lines generalizing executed out e with
  | nil => exact ⟨rfl, he⟩
  | cons line rest ih =>
    cases hparse : Command.parseLine line with
    | error err =>
      rw [runLines, Engine.runLines, hparse]
      exact ⟨rfl, he⟩
    | ok parsed =>
      cases parsed with
      | none =>
        rw [runLines, Engine.runLines, hparse]
        exact ih executed out he
      | some command =>
        by_cases hquit : command = .quit
        · rw [runLines, Engine.runLines, hparse, hquit]
          exact ⟨rfl, he⟩
        · obtain ⟨hrun, hkeep, -⟩ := mirrors_execute command e he
          rw [runLines_cons_command hparse hquit, Engine.runLines_cons_command hparse hquit,
            StateT.run_bind, StateT.run_bind, hrun]
          generalize command.execute.run.run e = r at hkeep ⊢
          obtain ⟨_ | printed, t⟩ := r
          · exact ⟨rfl, hkeep⟩
          · exact ih _ _ hkeep

theorem run_runScript (text : String) {e : Engine} (he : e.Holds Sound) :
    (runScript text).run e = some ((Engine.runScript text).run e) ∧
      ((Engine.runScript text).run e).2.Holds Sound := by
  obtain ⟨session, record⟩ := e
  cases session with
  | none =>
    have hrun : (runScript text).run ⟨none, record⟩ =
        (recordOf .instanceClosed).bind fun record => some ((.failed, ""), ⟨none, record⟩) := rfl
    rw [hrun, recordOf_eq]
    exact ⟨rfl, he⟩
  | some s =>
    have hs : Engine.Holds Sound ⟨some s, {}⟩ := he
    exact run_runLines 0 "" (Text.lines text) hs

theorem mirrors_runScript (text : String) :
    Mirrors (Engine.Holds Sound) (ExceptT.lift (runScript text))
      (ExceptT.lift (Engine.runScript text)) := by
  intro e he
  obtain ⟨hrun, hkeep⟩ := run_runScript text he
  have hlift : (ExceptT.lift (runScript text) : Call _).run.run e =
      ((runScript text).run e).bind fun r => some (.ok r.1, r.2) := rfl
  rw [hlift, hrun]
  exact ⟨rfl, hkeep, fun _ _ => trivial⟩

/-! ## Operations -/

theorem mirrors_operationCall (operation : Operation) :
    Mirrors (Engine.Holds Sound) (operationCall operation) operation.call := by
  cases operation with
  | get path => exact (mirrors_question (readValue_eq · path)).map _
  | set path value => exact (mirrors_call (Edit.mirrors_set path value)).map _
  | setMany path values => exact (mirrors_call (Edit.mirrors_setMany path values)).map _
  | clear path => exact (mirrors_call (Edit.mirrors_set path none)).map _
  | remove path => exact (mirrors_call (Edit.mirrors_remove path)).map _
  | move src dst => exact (mirrors_call (Edit.mirrors_move src dst)).map _
  | insert path label before => exact (mirrors_call (Edit.mirrors_insert path label before)).map _
  | addresses path => exact ((mirrors_question (entries_eq · path .nodes)).map _).map _
  | entries path => exact (mirrors_question (entries_eq · path .nodes)).map _
  | children path => exact (mirrors_question (entries_eq · path .children)).map _
  | subtree path => exact (mirrors_question (entries_eq · path .subtree)).map _
  | save => exact (mirrors_call Edit.mirrors_save).map _
  | snapshot path => exact (mirrors_question (snapshot_eq · path)).map _
  | load path source => exact (mirrors_call (Edit.mirrors_load path source)).map _
  | runScript text => exact (mirrors_runScript text).bind fun _ _ => .pure trivial
  | close => exact mirrors_close.map _

theorem create_eq (root : String) (loadPath : Option String) (flags : Flags) :
    create root loadPath flags = some (.create root loadPath flags) := by
  rw [create, (createSession_eq root loadPath flags).1]
  rfl

/-- Whatever operations were run, the session is sound. -/
theorem sound_after_create (root : String) (loadPath : Option String) (flags : Flags)
    (operations : List Operation) :
    ((Engine.create root loadPath flags).after operations).Holds Sound := by
  have hcreate : (Engine.create root loadPath flags).Holds Sound := by
    intro s hs
    have heq : Session.create root loadPath flags = s := Option.some.inj hs
    rw [← heq]
    exact (createSession_eq root loadPath flags).2
  generalize Engine.create root loadPath flags = e at hcreate
  induction operations generalizing e with
  | nil => exact hcreate
  | cons operation operations ih => exact ih _ ((mirrors_operationCall operation).keeps hcreate)

/-! ## All steps -/

/-- No partial step is taken outside its domain. With such steps that answer nothing there in place
of the total ones, each of these still answers, and answers the same: reading lexemes at any cursor
and compiling any text; resolving and locating any path on any store; any change of a store that
changes lead to, whatever ids, indices and snapshots they name, and the count of its nodes; making
an engine, and any operation on an engine after any operations; and marking a path at any offset. -/
theorem partial_steps_defined :
    (∀ c : Cursor, next c = some c.next) ∧
      (∀ text, compile text = some (Path.compile text)) ∧
      (∀ (s : Store) path context,
        resolve s path context = some (s.resolve path context) ∧
          locate s path context = some (s.locate path context)) ∧
      (∀ changes change, let s := Store.new.applyAll changes
        apply s change = some (s.apply change) ∧ size s = some s.size) ∧
      (∀ root loadPath flags,
        create root loadPath flags = some (.create root loadPath flags)) ∧
      (∀ root loadPath flags operations operation,
        let e := (Engine.create root loadPath flags).after operations
        answer e operation = some (e.answer operation)) ∧
      (∀ path offset, markPath path offset = some (LabelTree.markPath path offset)) := by
  refine ⟨next_eq, compile_eq, fun s path context => ⟨resolve_eq s path context,
    locate_eq s path context⟩, fun changes change => ?_, create_eq, ?_, markPath_eq⟩
  · have hs := (Store.WellFormed.kept.applyAll Store.wellFormed_new changes).freeExact
    exact ⟨apply_eq hs change, size_eq hs⟩
  · intro root loadPath flags operations operation
    exact (mirrors_operationCall operation).run_eq
      (sound_after_create root loadPath flags operations)

end LabelTree.Checked
