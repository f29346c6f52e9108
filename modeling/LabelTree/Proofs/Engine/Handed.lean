import LabelTree.Proofs.Engine.Operations

/-!
# Engine — the paths that operations evaluate

An operation prepares its path arguments before it evaluates any: its source, which has to name
existing nodes, and its target, which may name a node yet to be made. The prepared paths are all
that it goes on with (`Operation.evaluatesHanded`). A source that itself ends in an append step is
refused. A context that ends in one is not, and only below such a context does an append step get
into a source or before the last step of a target (`Operation.append_steps_handed`).
-/

namespace LabelTree

/-! ## Edits that prepare a path -/

namespace Edit

variable {α : Type}

/-- That an edit first asks what its argument is prepared to and goes on with that path alone. -/
def Follows (prepare : Session → PathArg → Except EngineError Path) (m : PathArg → Edit α) : Prop :=
  ∃ f : Path → Edit α, ∀ arg, m arg = ask (prepare · arg) >>= f

theorem ask_follows (prepare : Session → PathArg → Except EngineError Path)
    (g : Session → Path → Except EngineError α) :
    Follows prepare fun arg => ask fun s => prepare s arg >>= g s :=
  ⟨_, fun arg => ask_bind (prepare · arg) g⟩

theorem get_follows : Follows Session.prepareExisting fun arg => ask (·.get arg) :=
  ask_follows _ _

theorem entries_follows (scope : Scope) :
    Follows Session.prepareExisting fun arg => ask (·.entries arg scope) :=
  ask_follows _ _

theorem snapshot_follows : Follows Session.prepareExisting fun arg => ask (·.snapshot arg) :=
  ask_follows _ _

theorem setMany_follows (first : Option String) (rest : List (Option String)) :
    Follows Session.prepare fun arg => setMany arg (first :: rest) :=
  ⟨_, fun _ => rfl⟩

theorem set_follows (value : Option String) : Follows Session.prepare fun arg => set arg value :=
  ⟨_, fun _ => bind_assoc _ _ _⟩

theorem remove_follows : Follows Session.prepareExisting remove :=
  ⟨_, fun _ => rfl⟩

/-- The source is prepared before the target, and both before any of them is evaluated. -/
theorem exists_move_eq : ∃ f : Path → Path → Edit Unit, ∀ src dst,
    move src dst =
      ask (·.prepareExisting src) >>= fun p => ask (·.prepare dst) >>= fun q => f p q :=
  ⟨_, fun _ _ => rfl⟩

theorem insert_follows {label : String} (h : isPlainLabel label = true) (before : Bool) :
    Follows Session.prepareExisting fun arg => insert arg label before := by
  unfold insert
  simp only [h]
  exact ⟨_, fun _ => rfl⟩

theorem load_follows {snapshot : Snapshot} (h : snapshot.firstBadLabel = none) :
    Follows Session.prepare fun arg => load arg snapshot := by
  unfold load
  simp only [h]
  exact ⟨_, fun _ => rfl⟩

end Edit

/-! ## Sources and targets -/

namespace Operation

/-- The path argument that has to name existing nodes. -/
def source? : Operation → Option PathArg
  | get path | remove path | insert path _ _ | addresses path | entries path | children path
  | subtree path | snapshot path => some path
  | move src _ => some src
  | set _ _ | setMany _ _ | clear _ | load _ _ | save | runScript _ | close => none

/-- The path argument that may name a node yet to be made. -/
def target? : Operation → Option PathArg
  | set path _ | setMany path _ | clear path | load path _ => some path
  | move _ dst => some dst
  | get _ | remove _ | insert _ _ _ | addresses _ | entries _ | children _ | subtree _ | snapshot _
  | save | runScript _ | close => none

theorem args_eq (operation : Operation) :
    operation.args = operation.source?.toList ++ operation.target?.toList := by
  cases operation <;> rfl

/-- The same operation on other paths. -/
def mapArgs (source target : PathArg → PathArg) : Operation → Operation
  | get path => get (source path)
  | set path value => set (target path) value
  | setMany path values => setMany (target path) values
  | clear path => clear (target path)
  | remove path => remove (source path)
  | move src dst => move (source src) (target dst)
  | insert path label before => insert (source path) label before
  | addresses path => addresses (source path)
  | entries path => entries (source path)
  | children path => children (source path)
  | subtree path => subtree (source path)
  | save => save
  | snapshot path => snapshot (source path)
  | load path tree => load (target path) tree
  | runScript text => runScript text
  | close => close

theorem mapArgs_id (operation : Operation) : operation.mapArgs id id = operation := by
  cases operation <;> rfl

/-- What is wrong with the arguments of an operation that it looks at before its paths. -/
def argumentFault? : Operation → Option ArgumentFault
  | setMany _ [] => some .noValues
  | insert _ label _ => if isPlainLabel label then none else some (.insertLabel label)
  | load _ tree => tree.firstBadLabel.map .snapshotLabel
  | _ => none

end Operation

/-- The paths that an operation has evaluated: its source and then its target, prepared. -/
def Session.handed (s : Session) (operation : Operation) :
    Except EngineError (Option Path × Option Path) := do
  let source ← operation.source?.mapM s.prepareExisting
  let target ← operation.target?.mapM s.prepare
  return (source, target)

/-! ## What is done with the paths -/

namespace Operation

variable {α : Type} {s : Session} {e : Engine} {arg src dst : PathArg} {operation : Operation}
  {path : Path} {source target : Option Path} {err : EngineError} {fault : ArgumentFault}

theorem handed_source (hs : operation.source? = some arg) (ht : operation.target? = none) :
    s.handed operation = s.prepareExisting arg >>= fun path => pure (some path, none) := by
  simp [Session.handed, hs, ht]

theorem handed_target (hs : operation.source? = none) (ht : operation.target? = some arg) :
    s.handed operation = s.prepare arg >>= fun path => pure (none, some path) := by
  simp [Session.handed, hs, ht]

theorem handed_move : s.handed (.move src dst) =
    s.prepareExisting src >>= fun p => s.prepare dst >>= fun q => pure (some p, some q) := by
  simp [Session.handed, source?, target?]

/-- That an operation prepares its paths and goes on with those alone: on other paths it goes on the
same way. -/
def EvaluatesHanded (operation : Operation) : Prop :=
  ∃ evaluate : Option Path × Option Path → Edit Reply, ∀ onSource onTarget,
    let other := operation.mapArgs onSource onTarget
    other.call = Engine.call (Edit.ask (·.handed other) >>= evaluate)

/-- Operations that run one edit on one path go on as the edit does. -/
theorem exists_evaluate {prepare : Session → PathArg → Except EngineError Path}
    {m : PathArg → Edit α} (hm : Edit.Follows prepare m) (hand : Path → Option Path × Option Path)
    (hhand : ∀ path, (hand path).1.or (hand path).2 = some path) (answer : α → Reply) :
    ∃ evaluate : Option Path × Option Path → Edit Reply, ∀ (operation : Operation) (arg : PathArg),
      (operation.call = Engine.call (m arg) >>= fun a => pure (answer a)) →
      (∀ s : Session, s.handed operation = prepare s arg >>= fun path => pure (hand path)) →
      operation.call = Engine.call (Edit.ask (·.handed operation) >>= evaluate) := by
  obtain ⟨f, hf⟩ := hm
  refine ⟨fun paths =>
    match paths.1.or paths.2 with
    | some path => f path >>= fun a => pure (answer a)
    | none => pure .done, fun operation arg hcall hhanded => ?_⟩
  simp only [hhanded]
  rw [hcall, Engine.call_bind_pure, hf, Edit.ask_bind, bind_assoc, bind_assoc]
  refine congrArg Engine.call (congrArg _ (funext fun path => ?_))
  show (f path >>= fun a => pure (answer a)) = (pure (hand path) >>= _)
  rw [pure_bind, hhand]

theorem exists_evaluate_source {m : PathArg → Edit α} (hm : Edit.Follows Session.prepareExisting m)
    (answer : α → Reply) :
    ∃ evaluate : Option Path × Option Path → Edit Reply, ∀ (operation : Operation) (arg : PathArg),
      (operation.call = Engine.call (m arg) >>= fun a => pure (answer a)) →
      operation.source? = some arg → operation.target? = none →
      operation.call = Engine.call (Edit.ask (·.handed operation) >>= evaluate) := by
  obtain ⟨evaluate, h⟩ := exists_evaluate hm (fun path => (some path, none)) (fun _ => rfl) answer
  exact ⟨evaluate,
    fun operation arg hcall hs ht => h operation arg hcall fun _ => handed_source hs ht⟩

theorem exists_evaluate_target {m : PathArg → Edit α} (hm : Edit.Follows Session.prepare m)
    (answer : α → Reply) :
    ∃ evaluate : Option Path × Option Path → Edit Reply, ∀ (operation : Operation) (arg : PathArg),
      (operation.call = Engine.call (m arg) >>= fun a => pure (answer a)) →
      operation.source? = none → operation.target? = some arg →
      operation.call = Engine.call (Edit.ask (·.handed operation) >>= evaluate) := by
  obtain ⟨evaluate, h⟩ := exists_evaluate hm (fun path => (none, some path)) (fun _ => rfl) answer
  exact ⟨evaluate,
    fun operation arg hcall hs ht => h operation arg hcall fun _ => handed_target hs ht⟩

theorem evaluatesHanded (hargs : operation.args ≠ []) (hfault : operation.argumentFault? = none) :
    operation.EvaluatesHanded := by
  cases operation with
  | get path =>
    obtain ⟨evaluate, h⟩ := exists_evaluate_source Edit.get_follows .value
    exact ⟨evaluate, fun onSource _ => h _ (onSource path) rfl rfl rfl⟩
  | set path value =>
    obtain ⟨evaluate, h⟩ := exists_evaluate_target (Edit.set_follows value) fun _ => .done
    exact ⟨evaluate, fun _ onTarget => h _ (onTarget path) rfl rfl rfl⟩
  | setMany path values =>
    cases values with
    | nil => cases hfault
    | cons first rest =>
      obtain ⟨evaluate, h⟩ := exists_evaluate_target (Edit.setMany_follows first rest) .count
      exact ⟨evaluate, fun _ onTarget => h _ (onTarget path) rfl rfl rfl⟩
  | clear path =>
    obtain ⟨evaluate, h⟩ := exists_evaluate_target (Edit.set_follows none) fun _ => .done
    exact ⟨evaluate, fun _ onTarget => h _ (onTarget path) rfl rfl rfl⟩
  | remove path =>
    obtain ⟨evaluate, h⟩ := exists_evaluate_source Edit.remove_follows .count
    exact ⟨evaluate, fun onSource _ => h _ (onSource path) rfl rfl rfl⟩
  | move src dst =>
    obtain ⟨f, hf⟩ := Edit.exists_move_eq
    refine ⟨fun paths =>
        (paths.1.bind fun p => paths.2.map (f p)).getD (pure ()) >>= fun _ => pure .done,
      fun onSource onTarget => ?_⟩
    show (Engine.call (Edit.move (onSource src) (onTarget dst)) >>= fun _ => pure Reply.done) = _
    rw [Engine.call_bind_pure, hf]
    simp only [mapArgs, handed_move, Edit.ask_bind, bind_assoc]
    rfl
  | insert path label before =>
    have hlabel : isPlainLabel label = true := by
      simpa [argumentFault?] using hfault
    obtain ⟨evaluate, h⟩ :=
      exists_evaluate_source (Edit.insert_follows hlabel before) fun _ => .done
    exact ⟨evaluate, fun onSource _ => h _ (onSource path) rfl rfl rfl⟩
  | addresses path =>
    obtain ⟨evaluate, h⟩ := exists_evaluate_source (Edit.entries_follows .nodes)
      fun entries => .paths (entries.map Entry.path)
    refine ⟨evaluate, fun onSource _ => h _ (onSource path) ?_ rfl rfl⟩
    simp [mapArgs, call, Engine.addresses, Engine.entries]
  | entries path =>
    obtain ⟨evaluate, h⟩ := exists_evaluate_source (Edit.entries_follows .nodes) .entries
    exact ⟨evaluate, fun onSource _ => h _ (onSource path) rfl rfl rfl⟩
  | children path =>
    obtain ⟨evaluate, h⟩ := exists_evaluate_source (Edit.entries_follows .children) .entries
    exact ⟨evaluate, fun onSource _ => h _ (onSource path) rfl rfl rfl⟩
  | subtree path =>
    obtain ⟨evaluate, h⟩ := exists_evaluate_source (Edit.entries_follows .subtree) .entries
    exact ⟨evaluate, fun onSource _ => h _ (onSource path) rfl rfl rfl⟩
  | save => exact absurd rfl hargs
  | snapshot path =>
    obtain ⟨evaluate, h⟩ := exists_evaluate_source Edit.snapshot_follows .snapshot
    exact ⟨evaluate, fun onSource _ => h _ (onSource path) rfl rfl rfl⟩
  | load path tree =>
    have htree : tree.firstBadLabel = none := by
      simpa [argumentFault?] using hfault
    obtain ⟨evaluate, h⟩ := exists_evaluate_target (Edit.load_follows htree) .count
    exact ⟨evaluate, fun _ onTarget => h _ (onTarget path) rfl rfl rfl⟩
  | runScript text => exact absurd rfl hargs
  | close => exact absurd rfl hargs

/-- An operation answers the same on other paths that are prepared to the same. -/
theorem EvaluatesHanded.answer_mapArgs (hop : operation.EvaluatesHanded) (he : e.session = some s)
    (onSource onTarget : PathArg → PathArg)
    (h : s.handed (operation.mapArgs onSource onTarget) = s.handed operation) :
    e.answer (operation.mapArgs onSource onTarget) = e.answer operation := by
  obtain ⟨evaluate, hcall⟩ := hop
  have hother := hcall onSource onTarget
  have hself := hcall id id
  rw [mapArgs_id] at hself
  rw [Engine.answer, Engine.answer, hother, hself, Engine.run_call_of_some he,
    Engine.run_call_of_some he]
  cases hhanded : s.handed operation with
  | error err =>
    rw [Edit.run_bind_error (Edit.run_ask_of_error (h.trans hhanded)),
      Edit.run_bind_error (Edit.run_ask_of_error hhanded)]
  | ok paths =>
    rw [Edit.run_bind_ok (Edit.run_ask_of_ok (h.trans hhanded)),
      Edit.run_bind_ok (Edit.run_ask_of_ok hhanded)]

/-! ## What fails before a path is evaluated -/

theorem answer_of_run_error {m : Edit α} {answer : α → Reply} (he : e.session = some s)
    (hcall : operation.call = Engine.call m >>= fun a => pure (answer a))
    (hm : m.run.run s = (.error err, s)) :
    e.answer operation = (.error err, ⟨some s, .ofError err⟩) := by
  rw [Engine.answer, hcall, Engine.run_bind_pure, Engine.run_call_of_some he, hm]
  rfl

theorem answer_of_argumentFault? (he : e.session = some s)
    (h : operation.argumentFault? = some fault) :
    e.answer operation =
      (.error (.badArgument fault), ⟨some s, .ofError (.badArgument fault)⟩) := by
  cases operation with
  | setMany path values =>
    cases values with
    | nil =>
      cases h
      exact answer_of_run_error (m := Edit.setMany path []) he rfl rfl
    | cons first rest => cases h
  | insert path label before =>
    cases hlabel : isPlainLabel label with
    | true => simp [argumentFault?, hlabel] at h
    | false =>
      simp only [argumentFault?, hlabel] at h
      cases h
      refine answer_of_run_error (m := Edit.insert path label before) he rfl ?_
      unfold Edit.insert
      simp only [hlabel]
      rfl
  | load path tree =>
    obtain ⟨label, hlabel, hfault⟩ := Option.map_eq_some_iff.mp h
    cases hfault
    refine answer_of_run_error (m := Edit.load path tree) he rfl ?_
    unfold Edit.load
    simp only [hlabel]
    rfl
  | _ => cases h

theorem EvaluatesHanded.answer_eq_error (hop : operation.EvaluatesHanded) (he : e.session = some s)
    (h : s.handed operation = .error err) :
    e.answer operation = (.error err, ⟨some s, .ofError err⟩) := by
  obtain ⟨evaluate, hcall⟩ := hop
  have hcall := hcall id id
  rw [mapArgs_id] at hcall
  rw [Engine.answer, hcall, Engine.run_call_of_some he,
    Edit.run_bind_error (Edit.run_ask_of_error h)]
  rfl

/-! ## The paths that are handed over -/

theorem mapM_eq_error {β : Type} {f : α → Except EngineError β} {o : Option α}
    (h : o.mapM f = .error err) : ∃ a, o = some a ∧ f a = .error err := by
  cases o with
  | none => cases h
  | some a =>
    cases ha : f a with
    | error e =>
      rw [Option.mapM_some, ha] at h
      cases h
      exact ⟨a, rfl, ha⟩
    | ok b => rw [Option.mapM_some, ha] at h; cases h

theorem mapM_eq_ok {β : Type} {f : α → Except EngineError β} {o : Option α} {b : β}
    (h : o.mapM f = .ok (some b)) : ∃ a, o = some a ∧ f a = .ok b := by
  cases o with
  | none => cases h
  | some a =>
    cases ha : f a with
    | error e => rw [Option.mapM_some, ha] at h; cases h
    | ok b' =>
      rw [Option.mapM_some, ha] at h
      cases h
      exact ⟨a, rfl, ha⟩

theorem handed_eq_error (h : s.handed operation = .error err) :
    (∃ src, operation.source? = some src ∧ s.prepareExisting src = .error err) ∨
      ∃ dst, operation.target? = some dst ∧ s.prepare dst = .error err := by
  rw [Session.handed] at h
  cases hs : operation.source?.mapM s.prepareExisting with
  | error e =>
    rw [hs] at h
    cases h
    exact .inl (mapM_eq_error hs)
  | ok source =>
    rw [hs] at h
    cases ht : operation.target?.mapM s.prepare with
    | error e =>
      rw [ht] at h
      cases h
      exact .inr (mapM_eq_error ht)
    | ok target => rw [ht] at h; cases h

theorem handed_eq_ok (h : s.handed operation = .ok (source, target)) :
    operation.source?.mapM s.prepareExisting = .ok source ∧
      operation.target?.mapM s.prepare = .ok target := by
  rw [Session.handed] at h
  cases hs : operation.source?.mapM s.prepareExisting with
  | error e => rw [hs] at h; cases h
  | ok source =>
    rw [hs] at h
    cases ht : operation.target?.mapM s.prepare with
    | error e => rw [ht] at h; cases h
    | ok target =>
      rw [ht] at h
      cases h
      exact ⟨rfl, rfl⟩

theorem handed_of_source_error (hs : operation.source? = some arg)
    (h : s.prepareExisting arg = .error err) : s.handed operation = .error err := by
  rw [Session.handed, hs, Option.mapM_some, h]
  rfl

theorem code_of_handed (h : s.handed operation = .error err) : err.code = .invalidPath := by
  rcases handed_eq_error h with ⟨src, -, hsrc⟩ | ⟨dst, -, hdst⟩
  · exact Session.code_of_prepareExisting hsrc
  · exact Session.code_of_prepare hdst

/-- What an operation with paths from texts has evaluated. It fails before when another argument of
it is wrong, or when a path cannot be prepared, which is an invalid path; so it does for a source
that ends in an append step. Otherwise a source has an append step, and a target has one before its
last, exactly when it was put below a context that ends in one. -/
theorem append_steps_handed (operation : Operation) (hargs : operation.args ≠ [])
    (hfrom : ∀ arg ∈ operation.args, arg.FromText) (s : Session) :
    (∀ fault, operation.argumentFault? = some fault → ∀ e : Engine, e.session = some s →
        e.answer operation =
          (.error (.badArgument fault), ⟨some s, .ofError (.badArgument fault)⟩)) ∧
      (operation.argumentFault? = none → operation.EvaluatesHanded ∧
        ∀ err, s.handed operation = .error err → err.code = .invalidPath ∧
          ∀ e : Engine, e.session = some s →
            e.answer operation = (.error err, ⟨some s, .ofError err⟩)) ∧
      (∀ arg own, operation.source? = some arg → Session.compileArg arg = .ok own →
        own.isAppend = true → ∃ offset, own.appendOffset? = some offset ∧
          s.handed operation = .error (.invalidPath own.text ⟨.appendNotAllowed, offset⟩)) ∧
      ∀ source target, s.handed operation = .ok (source, target) →
        (∀ path, source = some path → ∃ arg, operation.source? = some arg ∧
          ((∃ step ∈ path.steps, step.isAppend = true) ↔ s.AnchorsAtAppend arg)) ∧
        ∀ path, target = some path → ∃ arg, operation.target? = some arg ∧
          ((∃ step ∈ path.steps.dropLast, step.isAppend = true) ↔ s.AnchorsAtAppend arg) := by
  have hsource : ∀ arg, operation.source? = some arg → arg.FromText := by
    intro arg h
    exact hfrom arg (by simp [args_eq, h])
  have htarget : ∀ arg, operation.target? = some arg → arg.FromText := by
    intro arg h
    exact hfrom arg (by simp [args_eq, h])
  refine ⟨fun fault hfault e he => answer_of_argumentFault? he hfault, fun hfault => ?_, ?_, ?_⟩
  · have hop := evaluatesHanded hargs hfault
    exact ⟨hop, fun err h => ⟨code_of_handed h, fun e he => hop.answer_eq_error he h⟩⟩
  · intro arg own hs hown happend
    obtain ⟨offset, hoffset, hreject⟩ := Session.prepareExisting_of_isAppend (s := s) hown happend
    exact ⟨offset, hoffset, handed_of_source_error hs hreject⟩
  · intro source target h
    obtain ⟨hs, ht⟩ := handed_eq_ok h
    constructor
    · rintro path rfl
      obtain ⟨arg, harg, hpath⟩ := mapM_eq_ok hs
      exact ⟨arg, harg, Session.exists_append_of_prepareExisting (hsource arg harg) hpath⟩
    · rintro path rfl
      obtain ⟨arg, harg, hpath⟩ := mapM_eq_ok ht
      exact ⟨arg, harg, Session.exists_append_of_prepare (htarget arg harg) hpath⟩

/-- Below the first context a relative path appends with its last step only. -/
theorem append_steps_handed_move :
    let s := Session.create "/" none .none
    let operation := move (.text "a") (.text "b[last()+1]")
    ∃ src dst, s.handed operation = .ok (some src, some dst) ∧
      (∀ step ∈ src.steps, step.isAppend = false) ∧
      (∀ step ∈ dst.steps.dropLast, step.isAppend = false) ∧ dst.isAppend = true := by
  intro s operation
  let files : Path := ⟨"/files", true, [.select (.child (.exact "files")) []]⟩
  let a : Path := ⟨"a", false, [.select (.child (.exact "a")) []]⟩
  let b : Path := ⟨"b[last()+1]", false, [.append "b" 1]⟩
  have hfiles : Path.compile s.context = .ok files := by
    rw [show s.context = "/files" from rfl]
    with_unfolding_all rfl
  have ha : Session.compileArg (.text "a") = .ok a :=
    Session.compileArg_text_eq_ok_iff.mpr (by with_unfolding_all rfl)
  have hb : Session.compileArg (.text "b[last()+1]") = .ok b :=
    Session.compileArg_text_eq_ok_iff.mpr (by with_unfolding_all rfl)
  have hhanded : s.handed operation = .ok (some (a.rebase files), some (b.rebase files)) := by
    rw [handed_move, Session.prepareExisting_of_select ha rfl,
      Session.prepare_of_relative ha rfl hfiles, Session.prepare_of_relative hb rfl hfiles]
    rfl
  have hanchor : ∀ arg, ¬ s.AnchorsAtAppend arg := by
    rintro arg ⟨own, base, -, -, hbase, happend⟩
    cases hfiles.symm.trans hbase
    cases happend
  have hfrom : ∀ arg ∈ operation.args, arg.FromText := by
    intro arg harg
    simp only [operation, args, List.mem_cons, List.not_mem_nil, or_false] at harg
    rcases harg with rfl | rfl <;> trivial
  obtain ⟨-, -, -, hpaths⟩ := append_steps_handed operation (by simp [operation, args]) hfrom s
  obtain ⟨hsource, htarget⟩ := hpaths _ _ hhanded
  obtain ⟨_, -, hsrc⟩ := hsource _ rfl
  obtain ⟨_, -, hdst⟩ := htarget _ rfl
  refine ⟨_, _, hhanded, ?_, ?_, rfl⟩
  · intro step hstep
    exact Bool.eq_false_iff.mpr fun happend => hanchor _ (hsrc.mp ⟨step, hstep, happend⟩)
  · intro step hstep
    exact Bool.eq_false_iff.mpr fun happend => hanchor _ (hdst.mp ⟨step, hstep, happend⟩)

/-- The context may end in an append step, and a relative path then has it before its last step:
where existing nodes are to be named nothing is found, and a value makes the nodes. -/
theorem append_steps_handed_context :
    let configured : Path := ⟨"/augeas/context", true,
      [.select (.child (.exact "augeas")) [], .select (.child (.exact "context")) []]⟩
    let e := (Engine.create "/" none .none).after
      [.set (.compiled configured) (some "/files/x[last()+1]")]
    let path : Path := ⟨"/files/x[last()+1]/foo", true,
      [.select (.child (.exact "files")) [], .append "x" 8, .select (.child (.exact "foo")) []]⟩
    ∃ s, e.session = some s ∧ s.handed (get (.text "foo")) = .ok (some path, none) ∧
      (e.answer (get (.text "foo"))).1 = .ok (.value none) ∧
      s.handed (set (.text "foo") (some "1")) = .ok (none, some path) ∧
      (e.answer (set (.text "foo") (some "1"))).1 = .ok .done := by
  intro configured e path
  let base : Path :=
    ⟨"/files/x[last()+1]", true, [.select (.child (.exact "files")) [], .append "x" 8]⟩
  let foo : Path := ⟨"foo", false, [.select (.child (.exact "foo")) []]⟩
  obtain ⟨s, hs, hcontext⟩ : ∃ s, e.session = some s ∧ s.context = "/files/x[last()+1]" :=
    ⟨_, rfl, rfl⟩
  have hbase : Path.compile s.context = .ok base := by
    rw [hcontext]
    with_unfolding_all rfl
  have hfoo : Session.compileArg (.text "foo") = .ok foo :=
    Session.compileArg_text_eq_ok_iff.mpr (by with_unfolding_all rfl)
  have hprepare : s.prepare (.text "foo") = .ok path := by
    rw [Session.prepare_of_relative hfoo rfl hbase, show foo.rebase base = path by decide]
  have hexisting : s.prepareExisting (.text "foo") = .ok path :=
    (Session.prepareExisting_of_select hfoo rfl).trans hprepare
  have hget : s.handed (get (.text "foo")) = .ok (some path, none) := by
    rw [handed_source rfl rfl, hexisting]
    rfl
  have hset : s.handed (set (.text "foo") (some "1")) = .ok (none, some path) := by
    rw [handed_target rfl rfl, hprepare]
    rfl
  -- the prepared path itself is absolute and prepared to the same
  have hgets : (get (.text "foo")).EvaluatesHanded := evaluatesHanded (List.cons_ne_nil _ _) rfl
  have hsets : (set (.text "foo") (some "1")).EvaluatesHanded :=
    evaluatesHanded (List.cons_ne_nil _ _) rfl
  refine ⟨s, hs, hget, ?_, hset, ?_⟩
  · rw [← hgets.answer_mapArgs hs (fun _ => .compiled path) id hget.symm]
    rfl
  · rw [← hsets.answer_mapArgs hs id (fun _ => .compiled path) hset.symm]
    rfl

end Operation

end LabelTree
