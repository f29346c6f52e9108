import LabelTree.Proofs.Engine.Lines

/-!
# Engine — scripts as runs of operations

A command of a script is an operation with the paths given as text, so that what a script does to
the tree is done by the operations of the lines that it gets to. A run of operations is unfolded
into one without scripts (`Engine.unfolded`), which ends in the same session: an operation depends
on the session alone, not on the record.
-/

namespace LabelTree

namespace Engine

variable {e e' : Engine}

/-! ## Runs -/

theorem answer_congr (h : e.session = e'.session) (operation : Operation) :
    e.answer operation = e'.answer operation := by
  obtain ⟨session, record⟩ := e
  obtain ⟨session', record'⟩ := e'
  cases h
  cases operation with
  | runScript text => cases session <;> rfl
  | _ => rfl

theorem session_after_congr (h : e.session = e'.session) (operations : List Operation) :
    (e.after operations).session = (e'.after operations).session := by
  cases operations with
  | nil => exact h
  | cons operation rest =>
    show ((e.answer operation).2.after rest).session = _
    rw [answer_congr h]
    rfl

theorem after_append (e : Engine) (operations rest : List Operation) :
    e.after (operations ++ rest) = (e.after operations).after rest :=
  List.foldl_append

theorem after_cons (e : Engine) (operation : Operation) (rest : List Operation) :
    e.after (operation :: rest) = (e.answer operation).2.after rest :=
  rfl

/-- A closed engine stays closed. -/
theorem session_after_of_none (h : e.session = none) (operations : List Operation) :
    (e.after operations).session = none := by
  induction operations generalizing e with
  | nil => exact h
  | cons operation rest ih =>
    refine ih (e := (e.answer operation).2) ?_
    obtain ⟨session, record⟩ := e
    cases h
    cases operation <;> rfl

theorem exists_session {s : Session} {operations : List Operation}
    (h : (e.after operations).session = some s) : ∃ s, e.session = some s := by
  cases hs : e.session with
  | none =>
    rw [session_after_of_none hs] at h
    cases h
  | some s => exact ⟨s, rfl⟩

end Engine

/-! ## Commands -/

/-- The operation that a command is. Of the two calls of `get` neither changes anything, so that it
is the second one. -/
def Command.operation? : Command → Option Operation
  | get path => some (.get (.text path))
  | set path value => some (.set (.text path) (some value))
  | clear path => some (.clear (.text path))
  | rm path => some (.remove (.text path))
  | mv src dst => some (.move (.text src) (.text dst))
  | .match path _ => some (.entries (.text path))
  | ls path => some (.children (.text path))
  | print path => some (.subtree (.text (path.getD "/")))
  | ins label before path => some (.insert (.text path) label before)
  | save => some .save
  | quit => none

theorem Command.exists_operation {command : Command} (h : command ≠ .quit) :
    ∃ operation, command.operation? = some operation := by
  cases command with
  | quit => exact absurd rfl h
  | _ => exact ⟨_, rfl⟩

namespace Engine

variable {α β : Type} {e : Engine}

theorem session_ask (e : Engine) (question : Session → Except EngineError α) :
    ((call (Edit.ask question)).run.run e).2.session = e.session := by
  cases hs : e.session with
  | none => rw [run_call_of_none hs]; exact hs
  | some s => rw [run_ask hs]

/-- What follows a call leaves the session as the call does. -/
theorem session_bind {c : Call α} {f : α → Call β}
    (hf : ∀ a e, ((f a).run.run e).2.session = e.session) (e : Engine) :
    ((c >>= f).run.run e).2.session = (c.run.run e).2.session := by
  show (ExceptT.bindCont f (c.run.run e).1 (c.run.run e).2).2.session = _
  cases (c.run.run e).1 with
  | error err => rfl
  | ok a => exact hf a _

theorem session_bind_pure (c : Call α) (g : α → β) (e : Engine) :
    ((c >>= fun a => pure (g a)).run.run e).2.session = (c.run.run e).2.session :=
  session_bind (fun _ _ => rfl) e

theorem session_execute {command : Command} {operation : Operation}
    (h : command.operation? = some operation) (e : Engine) :
    (command.execute.run.run e).2.session = (e.answer operation).2.session := by
  cases command with
  | quit => cases h
  | get path =>
    cases h
    refine (session_bind (fun found e => ?_) e).trans ?_
    · split
      · rfl
      · exact (session_bind_pure _ _ e).trans (session_ask e _)
    · exact (session_ask e _).trans ((session_bind_pure _ _ e).trans (session_ask e _)).symm
  | «match» path value =>
    cases h
    refine (session_bind (fun found e => ?_) e).trans (session_bind_pure _ _ e).symm
    dsimp only
    split <;> rfl
  | _ =>
    cases h
    exact (session_bind_pure _ _ e).trans (session_bind_pure _ _ e).symm

/-! ## Scripts -/

/-- The operations of the lines that a run over lines gets to. -/
def ranBy (e : Engine) : List String → List Operation
  | [] => []
  | line :: rest =>
    match Command.parseLine line with
    | .error _ => []
    | .ok none => ranBy e rest
    | .ok (some command) =>
      match command.operation?, command.execute.run.run e with
      | none, _ => []
      | some operation, (.error _, _) => [operation]
      | some operation, (.ok _, e') => operation :: ranBy e' rest

theorem session_runLines (executed : Nat) (out : String) (lines : List String) (e : Engine) :
    ((runLines executed out lines).run e).2.session = (e.after (e.ranBy lines)).session := by
  induction lines generalizing executed out e with
  | nil => rfl
  | cons line rest ih =>
    obtain ⟨t, e', ht⟩ := exists_turns line e
    rw [run_runLines_cons ht, ranBy]
    cases ht with
    | refused hparse =>
      rw [hparse]
      rfl
    | passed hparse =>
      rw [hparse]
      exact ih _ _ e
    | quit hparse =>
      rw [hparse]
      rfl
    | failed hparse hquit hrun =>
      obtain ⟨operation, ho⟩ := Command.exists_operation hquit
      have hsession := session_execute ho e
      rw [hrun] at hsession
      simp only [hparse, ho, hrun]
      exact hsession
    | ran hparse hquit hrun =>
      obtain ⟨operation, ho⟩ := Command.exists_operation hquit
      have hsession := session_execute ho e
      rw [hrun] at hsession
      simp only [hparse, ho, hrun]
      rw [after_cons, ← session_after_congr hsession]
      exact ih _ _ e'

/-- What an operation does, without scripts. -/
def unfolding (e : Engine) : Operation → List Operation
  | .runScript text => if e.isClosed then [] else ranBy { e with record := {} } (Text.lines text)
  | operation => [operation]

/-- What a run of operations does, without scripts. -/
def unfolded (e : Engine) : List Operation → List Operation
  | [] => []
  | operation :: rest => e.unfolding operation ++ unfolded (e.answer operation).2 rest

theorem session_after_unfolding (e : Engine) (operation : Operation) :
    (e.after (e.unfolding operation)).session = (e.answer operation).2.session := by
  cases operation with
  | runScript text =>
    rw [unfolding]
    cases hs : e.session with
    | none =>
      obtain ⟨session, record⟩ := e
      cases hs
      rfl
    | some s =>
      obtain ⟨session, record⟩ := e
      cases hs
      have hrecord : (⟨some s, record⟩ : Engine).session = (⟨some s, {}⟩ : Engine).session := rfl
      exact (session_after_congr hrecord _).trans
        (session_runLines 0 "" (Text.lines text) ⟨some s, {}⟩).symm
  | _ => rfl

/-- A run and its unfolding end in the same session. -/
theorem session_after_unfolded (e : Engine) (operations : List Operation) :
    (e.after (e.unfolded operations)).session = (e.after operations).session := by
  induction operations generalizing e with
  | nil => rfl
  | cons operation rest ih =>
    rw [unfolded, after_append, after_cons, ← ih]
    exact session_after_congr (session_after_unfolding e operation) _

theorem not_mem_ranBy (text : String) (lines : List String) (e : Engine) :
    .runScript text ∉ e.ranBy lines := by
  induction lines generalizing e with
  | nil => simp [ranBy]
  | cons line rest ih =>
    rw [ranBy]
    split
    · simp
    · exact ih e
    · rename_i command _
      have hne : command.operation? ≠ some (.runScript text) := by
        cases command <;> simp [Command.operation?]
      split
      · simp
      · rename_i operation _ _ ho _
        rw [ho] at hne
        simpa using fun h => hne (congrArg some h.symm)
      · rename_i operation _ e' ho _
        rw [ho] at hne
        simpa [ih e'] using fun h => hne (congrArg some h.symm)

theorem not_mem_unfolding (text : String) (operation : Operation) (e : Engine) :
    .runScript text ∉ e.unfolding operation := by
  cases operation with
  | runScript text' =>
    rw [unfolding]
    split
    · simp
    · exact not_mem_ranBy text _ _
  | _ => simp [unfolding]

/-- What a run is unfolded to runs no script. -/
theorem not_mem_unfolded (text : String) (operations : List Operation) (e : Engine) :
    .runScript text ∉ e.unfolded operations := by
  induction operations generalizing e with
  | nil => simp [unfolded]
  | cons operation rest ih =>
    rw [unfolded, List.mem_append, not_or]
    exact ⟨not_mem_unfolding text operation e, ih _⟩

end Engine

end LabelTree
