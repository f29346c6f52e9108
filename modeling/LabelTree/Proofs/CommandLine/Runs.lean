import LabelTree.CommandLine.Run

/-!
# Runs from the command line

What a run reads, and how it ends. With its files and its input in memory a run is a function of
them: a name leads to a place of the tree or nowhere, no file is read but those that the arguments
name, and of the input nothing is taken or all of it. A run ends with status 0 exactly when it
prints no error, and that is when its script and its seed could be read and no command failed.
-/

namespace LabelTree.CommandLine

/-! ## Names -/

namespace FileTree

variable {t : FileTree} {place last above : List String} {name part : String}

theorem isPlace_iff : t.isPlace place = true ↔ place <+: t.workingDirectory ∨
    (∃ directory ∈ t.directories, place <+: directory) ∨ ∃ file ∈ t.files, place <+: file.1 := by
  simp [isPlace]

/-- What lies on the way to a place is one. -/
theorem isPlace_above (h : t.isPlace place = true) (habove : above <+: place) :
    t.isPlace above = true := by
  rw [isPlace_iff] at h ⊢
  rcases h with h | ⟨directory, hmem, h⟩ | ⟨file, hmem, h⟩
  · exact .inl (habove.trans h)
  · exact .inr (.inl ⟨directory, hmem, habove.trans h⟩)
  · exact .inr (.inr ⟨file, hmem, habove.trans h⟩)

theorem isPlace_workingDirectory (t : FileTree) : t.isPlace t.workingDirectory = true :=
  isPlace_iff.mpr (.inl (List.prefix_refl _))

theorem isPlace_top (t : FileTree) : t.isPlace [] = true :=
  isPlace_above t.isPlace_workingDirectory List.nil_prefix

/-- The parts of a name can be followed in two goes. -/
theorem follow_append (parts more : List String) :
    t.follow place (parts ++ more) = t.follow place parts >>= fun mid => t.follow mid more := by
  induction parts generalizing place with
  | nil => rfl
  | cons part rest ih =>
    simp only [List.cons_append, follow, ih]
    repeat' split
    all_goals rfl

/-- One part leads from a directory to it, to the one above, or to a place in it. -/
theorem follow_part (h : t.follow place [part] = .ok last) :
    t.isDirectory place = true ∧
      (last = place ∨ last = place.dropLast ∨ last = place ++ [part] ∧ t.isPlace last = true) := by
  simp only [follow] at h
  split at h
  · cases h
  rename_i hdirectory
  refine ⟨by simpa using hdirectory, ?_⟩
  split at h
  · cases h
    exact .inl rfl
  split at h
  · cases h
    exact .inr (.inl rfl)
  split at h
  · cases h
  split at h
  · rename_i hplace
    cases h
    exact .inr (.inr ⟨rfl, hplace⟩)
  · cases h

/-- Parts that are followed from a place lead to a place. -/
theorem isPlace_of_follow {parts : List String} (hplace : t.isPlace place = true)
    (h : t.follow place parts = .ok last) : t.isPlace last = true := by
  induction parts generalizing place with
  | nil =>
    cases h
    exact hplace
  | cons part rest ih =>
    rw [← List.singleton_append, follow_append] at h
    cases hpart : t.follow place [part] with
    | error error =>
      rw [hpart] at h
      cases h
    | ok next =>
      rw [hpart] at h
      obtain ⟨-, rfl | rfl | ⟨-, hnext⟩⟩ := follow_part hpart
      · exact ih hplace h
      · exact ih (isPlace_above hplace (List.dropLast_prefix _)) h
      · exact ih hnext h

/-- A name leads to a place of the tree or nowhere. -/
theorem isPlace_of_find (h : t.find name = .ok place) : t.isPlace place = true := by
  unfold find at h
  split at h
  · cases h
  split at h
  · cases h
  split at h
  · exact isPlace_of_follow t.isPlace_top h
  · exact isPlace_of_follow t.isPlace_workingDirectory h

/-- What a name reads as is an error, or the content of the file at the place it leads to. -/
theorem content_cases (t : FileTree) (name : String) :
    (∃ error, t.content name = .unreadable error) ∨
      ∃ place, t.find name = .ok place ∧ (place, t.content name) ∈ t.files := by
  unfold content
  cases t.find name with
  | error error => exact .inl ⟨error, rfl⟩
  | ok place =>
    cases hfile : t.files.lookup place with
    | none => exact .inl ⟨.isDirectory, by simp [hfile]⟩
    | some found =>
      obtain ⟨before, after, hfiles, -⟩ := List.lookup_eq_some_iff.mp hfile
      refine .inr ⟨place, rfl, ?_⟩
      dsimp only
      rw [hfile, hfiles]
      exact List.mem_append_right before List.mem_cons_self

end FileTree

/-! ## What is read -/

/-- The files that a run reads; no file with a script when there are words of a command. -/
def Arguments.filesRead (a : Arguments) : List String :=
  (if a.words = [] then (a.setting? .file).toList else []) ++ (a.setting? .tree).toList

section

variable {m : Type → Type} [Monad m] {env env' : Environment m} {a : Arguments}

theorem script_congr (hstdin : env.stdin = env'.stdin)
    (h : ∀ name ∈ a.filesRead, env.fileText name = env'.fileText name) :
    script env a = script env' a := by
  unfold script
  split
  · rename_i file hwords hfile
    exact h file (by simp [Arguments.filesRead, hwords, hfile])
  · exact hstdin
  · rfl

theorem seed_congr (h : ∀ name ∈ a.filesRead, env.fileText name = env'.fileText name) :
    seed env a = seed env' a := by
  unfold seed
  split
  · rename_i file hfile
    rw [h file (by simp [Arguments.filesRead, hfile])]
  · rfl

/-- A run is the same in two environments that tell the files that it reads alike. -/
theorem runArguments_congr (hstdin : env.stdin = env'.stdin)
    (hroot : env.defaultRoot = env'.defaultRoot)
    (h : ∀ name ∈ a.filesRead, env.fileText name = env'.fileText name) :
    runArguments env a = runArguments env' a := by
  have hoptions : runOptions env a = runOptions env' a := by
    funext text seed
    rw [runOptions, runOptions, hroot]
  rw [runArguments, runArguments, script_congr hstdin h, seed_congr h, hoptions]

end

/-- A run reads no file but those that its arguments name. -/
theorem run_eq_of_content {t u : FileTree} {args : List String} (root : Option String)
    (h : ∀ a, Arguments.parse args = .ok a → ∀ name ∈ a.filesRead,
      t.content name = u.content name) :
    run (t.environment root) args = run (u.environment root) args := by
  unfold run
  split
  · rfl
  · rfl
  · rfl
  · rename_i a hparse
    refine runArguments_congr rfl rfl fun name hname => ?_
    simp only [FileTree.environment, h a hparse name hname]

/-- What computations leave one after the other. -/
theorem run_bind {α β : Type} (m : StateM String α) (f : α → StateM String β) (input : String) :
    (m >>= f).run input = (f (m.run input).1).run (m.run input).2 :=
  rfl

/-- That a computation leaves its input as it was or takes the whole of it. -/
def TakesWhole {α : Type} (m : StateM String α) : Prop :=
  ∀ input, (m.run input).2 = input ∨ (m.run input).2 = ""

namespace TakesWhole

variable {α β : Type} {m : StateM String α} {f : α → StateM String β}

theorem pure (a : α) : TakesWhole (pure a) :=
  fun _ => .inl rfl

theorem takeInput : TakesWhole takeInput :=
  fun _ => .inr rfl

theorem bind (hm : TakesWhole m) (hf : ∀ a, TakesWhole (f a)) : TakesWhole (m >>= f) := by
  intro input
  rw [run_bind]
  rcases hm input with h | h
  · rw [h]
    exact hf _ input
  · rw [h]
    exact .inr ((or_self _).mp (hf _ ""))

end TakesWhole

section

variable (t : FileTree) (root : Option String)

theorem takesWhole_fileText (name : String) :
    TakesWhole ((t.environment root).fileText name) := by
  simp only [FileTree.environment]
  split
  · exact .pure _
  · exact .bind .takeInput fun _ => .pure _
  · exact .pure _

theorem takesWhole_script (a : Arguments) : TakesWhole (script (t.environment root) a) := by
  unfold script
  split
  · exact takesWhole_fileText t root _
  · exact .bind .takeInput fun _ => .pure _
  · exact .pure _

theorem takesWhole_seed (a : Arguments) : TakesWhole (seed (t.environment root) a) := by
  unfold seed
  split
  · exact .bind (takesWhole_fileText t root _) fun _ => .pure _
  · exact .pure _

/-- A run leaves its input as it was or takes the whole of it. -/
theorem takesWhole_run (args : List String) : TakesWhole (run (t.environment root) args) := by
  unfold run
  split
  · exact .pure _
  · exact .pure _
  · exact .pure _
  · refine .bind (takesWhole_script t root _) fun result => ?_
    split
    · exact .pure _
    · refine .bind (takesWhole_seed t root _) fun result => ?_
      split <;> exact .pure _

end

/-! ## How it ends -/

/-- A batch run succeeds when it can be run and no command of it fails. -/
theorem exit_ofOptions_eq_zero_iff (o : RunOptions) :
    (ofOptions o).exit = 0 ↔ ∃ report, o.execute = .ok report ∧ report.failure = none := by
  unfold ofOptions
  cases o.execute with
  | error error => simp
  | ok report => cases h : report.failure <;> simp [ofReport, h]

/-- That an outcome has the status 0 or 1, and 0 exactly when it prints no error. -/
def Outcome.Ends (outcome : Outcome) : Prop :=
  outcome.exit ≤ 1 ∧ (outcome.exit = 0 ↔ outcome.stderr = "")

theorem ends_ofFileError (error : FileError) : (ofFileError error).Ends := by
  simp [Outcome.Ends, ofFileError]

theorem ends_ofOptions (o : RunOptions) : (ofOptions o).Ends := by
  unfold ofOptions
  cases o.execute with
  | error error => simp [Outcome.Ends]
  | ok report => cases h : report.failure <;> simp [Outcome.Ends, ofReport, failureLine, h]

variable (env : Environment (StateM String)) (a : Arguments) (args : List String) (input : String)

theorem run_runArguments :
    ((runArguments env a).run input).1 =
      match ((script env a).run input).1 with
      | .error error => ofFileError error
      | .ok text =>
        match ((seed env a).run ((script env a).run input).2).1 with
        | .error error => ofFileError error
        | .ok source => ofOptions (runOptions env a text source) := by
  rw [runArguments, run_bind]
  cases ((script env a).run input).1 with
  | error error => rfl
  | ok text =>
    dsimp only
    rw [run_bind]
    cases ((seed env a).run ((script env a).run input).2).1 <;> rfl

/-- A run succeeds when its script and its seed can be read and the batch succeeds. -/
theorem exit_runArguments_eq_zero_iff :
    ((runArguments env a).run input).1.exit = 0 ↔
      ∃ text source report, ((script env a).run input).1 = .ok text ∧
        ((seed env a).run ((script env a).run input).2).1 = .ok source ∧
        (runOptions env a text source).execute = .ok report ∧ report.failure = none := by
  rw [run_runArguments]
  cases ((script env a).run input).1 with
  | error error => simp [ofFileError]
  | ok text =>
    cases ((seed env a).run ((script env a).run input).2).1 with
    | error error => simp [ofFileError]
    | ok source => simp [exit_ofOptions_eq_zero_iff]

theorem ends_runArguments : ((runArguments env a).run input).1.Ends := by
  rw [run_runArguments]
  split
  · exact ends_ofFileError _
  · split
    · exact ends_ofFileError _
    · exact ends_ofOptions _

/-- A run has the status 2 exactly when its arguments are not well formed, and 0 exactly when it
prints no error. -/
theorem exit_run :
    let outcome := ((run env args).run input).1
    outcome.exit ≤ 2 ∧ (outcome.exit = 2 ↔ Arguments.parse args = .error .usage) ∧
      (outcome.exit = 0 ↔ outcome.stderr = "") := by
  dsimp only
  unfold run
  cases Arguments.parse args with
  | error stop =>
    cases stop with
    | usage =>
      show 2 ≤ 2 ∧ (2 = 2 ↔ _) ∧ (2 = 0 ↔ usage = "")
      simp [usage]
    | help | version =>
      show 0 ≤ 2 ∧ (0 = 2 ↔ _) ∧ (0 = 0 ↔ "" = "")
      simp
  | ok a =>
    dsimp only
    obtain ⟨hle, hempty⟩ := ends_runArguments env a input
    refine ⟨by omega, ⟨fun h => ?_, nofun⟩, hempty⟩
    omega

end LabelTree.CommandLine
