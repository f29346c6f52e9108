import LabelTree.Proofs.Engine.Runs

/-!
# Engine — the lines of a script

A run over lines goes on after a line that is blank or runs a command, and ends at any other. A call
on an open engine leaves the record of its own outcome, and so does a command, which is a call or
two: after a command that succeeds the record is clear (`Turn.of_run`).
-/

namespace LabelTree

namespace Engine

/-! ## Records -/

section Records

variable {α β : Type}

/-- That a call leaves an open engine open, with the record of its outcome. -/
def Records (c : Call α) : Prop :=
  ∀ e : Engine, e.session.isSome = true →
    (c.run.run e).2.session.isSome = true ∧ (c.run.run e).2.record = .ofResult (c.run.run e).1

theorem records_call (m : Edit α) : Records (call m) := by
  intro e he
  obtain ⟨s, hs⟩ := Option.isSome_iff_exists.mp he
  rw [run_call_of_some hs]
  exact ⟨rfl, rfl⟩

namespace Records

variable {c : Call α} {f : α → Call β}

theorem bind_pure (hc : Records c) (g : α → β) : Records (c >>= fun a => pure (g a)) := by
  intro e he
  rw [run_bind_pure]
  obtain ⟨hopen, hrecord⟩ := hc e he
  refine ⟨hopen, hrecord.trans ?_⟩
  cases (c.run.run e).1 <;> rfl

/-- What follows a call that succeeds is a call too, or only answers. -/
theorem bind (hc : Records c) (hf : ∀ a, Records (f a) ∨ ∃ b, f a = pure b) :
    Records (c >>= f) := by
  intro e he
  obtain ⟨hopen, hrecord⟩ := hc e he
  show let r := ExceptT.bindCont f (c.run.run e).1 (c.run.run e).2
    r.2.session.isSome = true ∧ r.2.record = .ofResult r.1
  generalize c.run.run e = r at hopen hrecord
  obtain ⟨result, e'⟩ := r
  cases result with
  | error err => exact ⟨hopen, hrecord⟩
  | ok a =>
    rcases hf a with hfa | ⟨b, hb⟩
    · exact hfa e' hopen
    · dsimp only [ExceptT.bindCont]
      rw [hb]
      exact ⟨hopen, hrecord⟩

end Records

end Records

end Engine

open Engine (Records records_call)

theorem Command.records {command : Command} (h : command ≠ .quit) : Records command.execute := by
  cases command with
  | get path =>
    refine (records_call _).bind fun found => ?_
    split
    · exact .inr ⟨_, rfl⟩
    · exact .inl ((records_call _).bind_pure _)
  | set path value => exact (records_call _).bind_pure _
  | clear path => exact (records_call _).bind_pure _
  | rm path => exact (records_call _).bind_pure _
  | mv src dst => exact (records_call _).bind_pure _
  | «match» path value =>
    refine (records_call _).bind fun found => .inr ?_
    dsimp only
    split
    · exact ⟨_, rfl⟩
    · exact ⟨_, rfl⟩
  | ls path => exact (records_call _).bind_pure _
  | print path => exact (records_call _).bind_pure _
  | ins label before path => exact (records_call _).bind_pure _
  | save => exact (records_call _).bind_pure _
  | quit => exact absurd rfl h

namespace Engine

/-! ## Turns -/

/-- What a line of a script comes to. -/
inductive Turn where
  | passed
  | ran (printed : String)
  | quit
  /-- The line is no command. -/
  | refused
  | failed (error : EngineError)

namespace Turn

/-- How the run of a script ends at a line, unless it goes on. -/
def outcome? : Turn → Option Outcome
  | passed | ran _ => none
  | quit => some .quit
  | refused | failed _ => some .failed

def printed : Turn → String
  | ran printed => printed
  | _ => ""

/-- Number of commands that succeeded. -/
def executed : Turn → Nat
  | ran _ => 1
  | _ => 0

def error? : Turn → Option EngineError
  | failed error => some error
  | _ => none

end Turn

variable {e e' : Engine} {line : String} {t : Turn}

/-- What a line can come to. Only a command that is run changes the engine. -/
inductive Turns (line : String) (e : Engine) : Turn → Engine → Prop
  | refused {fault : CommandError} (hparse : Command.parseLine line = .error fault) :
    Turns line e .refused e
  | passed (hparse : Command.parseLine line = .ok none) : Turns line e .passed e
  | quit (hparse : Command.parseLine line = .ok (some .quit)) : Turns line e .quit e
  | failed {command : Command} {error : EngineError} {e' : Engine}
    (hparse : Command.parseLine line = .ok (some command)) (hquit : command ≠ .quit)
    (hrun : command.execute.run.run e = (.error error, e')) : Turns line e (.failed error) e'
  | ran {command : Command} {printed : String} {e' : Engine}
    (hparse : Command.parseLine line = .ok (some command)) (hquit : command ≠ .quit)
    (hrun : command.execute.run.run e = (.ok printed, e')) : Turns line e (.ran printed) e'

theorem exists_turns (line : String) (e : Engine) : ∃ t e', Turns line e t e' := by
  cases hparse : Command.parseLine line with
  | error fault => exact ⟨_, _, .refused hparse⟩
  | ok command? =>
    cases command? with
    | none => exact ⟨_, _, .passed hparse⟩
    | some command =>
      by_cases hquit : command = .quit
      · exact ⟨_, _, .quit (hquit ▸ hparse)⟩
      · cases hrun : command.execute.run.run e with
        | mk r e' =>
          cases r with
          | error err => exact ⟨_, _, .failed hparse hquit hrun⟩
          | ok printed => exact ⟨_, _, .ran hparse hquit hrun⟩

/-- A command is run before the run goes on or ends. -/
theorem runLines_cons_command {command : Command}
    (hparse : Command.parseLine line = .ok (some command))
    (hquit : command ≠ .quit) (executed : Nat) (out : String) (rest : List String) :
    runLines executed out (line :: rest) = command.execute.run >>= fun
      | .error _ => pure (.failed, out)
      | .ok printed => runLines (executed + 1) (out ++ printed) rest := by
  rw [runLines, hparse]
  cases command with
  | quit => exact absurd rfl hquit
  | _ => rfl

theorem run_runLines_cons (h : Turns line e t e') (executed : Nat) (out : String)
    (rest : List String) :
    (runLines executed out (line :: rest)).run e =
      match t.outcome? with
      | none => (runLines (executed + t.executed) (out ++ t.printed) rest).run e'
      | some outcome => ((outcome, out), e') := by
  cases h with
  | refused hparse =>
    rw [runLines, hparse]
    rfl
  | passed hparse =>
    rw [runLines, hparse]
    simp [Turn.outcome?, Turn.executed, Turn.printed]
  | quit hparse =>
    rw [runLines, hparse]
    rfl
  | failed hparse hquit hrun =>
    rw [runLines_cons_command hparse hquit, StateT.run_bind, hrun]
    rfl
  | ran hparse hquit hrun =>
    rw [runLines_cons_command hparse hquit, StateT.run_bind, hrun]
    rfl

/-- An open engine whose last call succeeded. -/
structure Ready (e : Engine) : Prop where
  isSome_session : e.session.isSome = true
  record : e.record = {}

namespace Ready

/-- A line leaves the record of the error that it fails with. -/
theorem of_turns (he : e.Ready) (h : Turns line e t e') :
    e'.session.isSome = true ∧ e'.record = t.error?.elim {} .ofError := by
  cases h with
  | refused hparse | passed hparse | quit hparse => exact ⟨he.isSome_session, he.record⟩
  | failed hparse hquit hrun | ran hparse hquit hrun =>
    have hrecords := Command.records hquit e he.isSome_session
    rw [hrun] at hrecords
    exact hrecords

/-- A line that the run goes on after leaves the engine ready. -/
theorem turns (he : e.Ready) (h : Turns line e t e') (hnext : t.outcome? = none) : e'.Ready := by
  obtain ⟨hopen, hrecord⟩ := he.of_turns h
  cases t with
  | passed | ran printed => exact ⟨hopen, hrecord⟩
  | quit | refused | failed err => cases hnext

end Ready

end Engine

end LabelTree
