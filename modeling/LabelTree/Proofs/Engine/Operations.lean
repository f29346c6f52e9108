import LabelTree.Proofs.Engine.Runs

/-!
# Engine — operations

Each operation is a call, or a script of calls, on the session of an engine. All of them keep all
nodes below the root, and those that fail leave the session as it was.
-/

namespace LabelTree

variable {good : String → Prop}

/-- The invariant of sessions: all nodes are below the root, and labels are good. -/
abbrev Session.Rooted (good : String → Prop) (s : Session) : Prop :=
  s.store.Rooted good

open Engine (Preserves Atomic Settled)
open Session (Rooted)

/-! ## Scripts -/

theorem Command.preserves (hgood : ∀ l, l ≠ "" → good l) (command : Command) :
    Preserves (Rooted good) command.execute.run := by
  have htext : ∀ text, (PathArg.text text).Names good := fun _ => trivial
  cases command with
  | get path =>
    refine Preserves.bind_call (Engine.preserves_call fun s hs => .ask hs _) fun found => ?_
    split
    · exact Preserves.pure _
    · exact (Settled.ask _ _).preserves
  | set path value =>
    exact (Settled.call (fun s hs => Edit.set_settles hs hgood (htext path) value) _).preserves
  | clear path =>
    exact (Settled.call (fun s hs => Edit.set_settles hs hgood (htext path) none) _).preserves
  | rm path => exact (Settled.call (fun s hs => Edit.remove_settles hs _) _).preserves
  | mv src dst =>
    exact (Settled.call (fun s hs => Edit.move_settles hs hgood (htext dst)) _).preserves
  | «match» path value =>
    refine Preserves.bind_call (Engine.preserves_call fun s hs => .ask hs _) fun found => ?_
    dsimp only
    split <;> exact Preserves.pure _
  | ls path => exact (Settled.ask _ _).preserves
  | print path => exact (Settled.ask _ _).preserves
  | ins label before path =>
    exact (Settled.call (fun s hs => Edit.insert_settles hs hgood _ label before) _).preserves
  | save => exact (Settled.call (fun s hs => Edit.save_settles hs hgood) _).preserves
  | quit => exact Preserves.pure _

namespace Engine

theorem preserves_runLines (hgood : ∀ l, l ≠ "" → good l) (executed : Nat) (out : String)
    (lines : List String) : Preserves (Rooted good) (runLines executed out lines) := by
  induction lines generalizing executed out with
  | nil => exact Preserves.pure _
  | cons line rest ih =>
    unfold runLines
    split
    · exact Preserves.pure _
    · exact ih executed out
    · exact Preserves.pure _
    · rename_i command _ _
      refine Preserves.bind (Command.preserves hgood command) fun r => ?_
      split
      · exact Preserves.pure _
      · exact ih _ _

theorem preserves_runScript (hgood : ∀ l, l ≠ "" → good l) (text : String) :
    Preserves (Rooted good) (runScript text) := by
  have hclear : ∀ f : Engine → Engine, (∀ e, (f e).session = e.session) →
      Preserves (Rooted good) (modifyThe Engine f) := by
    intro f hf e he s hs
    exact he s ((hf e).symm.trans hs)
  unfold runScript
  refine Preserves.bind (fun e he => he) fun e => ?_
  split
  · exact Preserves.bind (hclear _ fun _ => rfl) fun _ => Preserves.pure _
  · exact Preserves.bind (hclear _ fun _ => rfl) fun _ => preserves_runLines hgood 0 "" _

end Engine

/-! ## Operations -/

namespace Operation

/-- The path arguments of an operation. -/
def args : Operation → List PathArg
  | get path | set path _ | setMany path _ | clear path | remove path | insert path _ _
  | addresses path | entries path | children path | subtree path | snapshot path | load path _ =>
    [path]
  | move src dst => [src, dst]
  | save | runScript _ | close => []

variable {operation : Operation}

/-- An operation is a call of one edit, unless it runs a script or closes the engine. -/
theorem settled (hgood : ∀ l, l ≠ "" → good l) (hargs : ∀ arg ∈ operation.args, arg.Names good) :
    Settled (Rooted good) operation.call ∨ (∃ text, operation = .runScript text) ∨
      operation = .close := by
  cases operation with
  | get path => exact .inl (Settled.ask _ _)
  | set path value =>
    have harg := hargs path List.mem_cons_self
    exact .inl (Settled.call (fun s hs => Edit.set_settles hs hgood harg value) _)
  | setMany path values =>
    have harg := hargs path List.mem_cons_self
    exact .inl (Settled.call (fun s hs => Edit.setMany_settles hs hgood harg values) _)
  | clear path =>
    have harg := hargs path List.mem_cons_self
    exact .inl (Settled.call (fun s hs => Edit.set_settles hs hgood harg none) _)
  | remove path => exact .inl (Settled.call (fun s hs => Edit.remove_settles hs path) _)
  | move src dst =>
    have harg := hargs dst (List.mem_cons_of_mem src List.mem_cons_self)
    exact .inl (Settled.call (fun s hs => Edit.move_settles hs hgood harg) _)
  | insert path label before =>
    exact .inl (Settled.call (fun s hs => Edit.insert_settles hs hgood path label before) _)
  | addresses path => exact .inl ((Settled.ask _ _).map _)
  | entries path => exact .inl (Settled.ask _ _)
  | children path => exact .inl (Settled.ask _ _)
  | subtree path => exact .inl (Settled.ask _ _)
  | save => exact .inl (Settled.call (fun s hs => Edit.save_settles hs hgood) _)
  | snapshot path => exact .inl (Settled.ask _ _)
  | load path source =>
    have harg := hargs path List.mem_cons_self
    exact .inl (Settled.call (fun s hs => Edit.load_settles hs hgood harg source) _)
  | runScript text => exact .inr (.inl ⟨text, rfl⟩)
  | close => exact .inr (.inr rfl)

theorem run_close_of_none {e : Engine} (h : e.session = none) :
    close.call.run.run e =
      (.error .instanceClosed, { e with record := .ofError .instanceClosed }) := by
  obtain ⟨session, record⟩ := e
  cases h
  rfl

theorem run_close_of_some {e : Engine} {s : Session} (h : e.session = some s) :
    close.call.run.run e = (.ok .done, ⟨none, {}⟩) := by
  obtain ⟨session, record⟩ := e
  cases h
  rfl

theorem preserves (hgood : ∀ l, l ≠ "" → good l) (hargs : ∀ arg ∈ operation.args, arg.Names good) :
    Preserves (Rooted good) operation.call.run := by
  rcases settled hgood hargs with hc | ⟨text, rfl⟩ | rfl
  · exact hc.preserves
  · exact fun e he => Engine.preserves_runScript hgood text e he
  · intro e he
    cases hs : e.session with
    | none =>
      rw [run_close_of_none hs]
      exact he
    | some s =>
      rw [run_close_of_some hs]
      intro t ht
      cases ht

/-- A script answers what it did and never fails. -/
theorem atomic (hgood : ∀ l, l ≠ "" → good l) (hargs : ∀ arg ∈ operation.args, arg.Names good) :
    Atomic (Rooted good) operation.call := by
  rcases settled hgood hargs with hc | ⟨text, rfl⟩ | rfl
  · exact hc.atomic
  · intro e he err e' h
    cases h
  · intro e he err e' h
    cases hs : e.session with
    | none =>
      rw [run_close_of_none hs] at h
      cases h
      exact hs
    | some s =>
      rw [run_close_of_some hs] at h
      cases h

end Operation

/-! ## Runs -/

namespace Engine

theorem holds_create (hgood : ∀ l, l ≠ "" → good l) (root : String) (loadPath : Option String)
    (flags : Flags) : (create root loadPath flags).Holds (Rooted good) := by
  intro s hs
  have heq : Session.create root loadPath flags = s := Option.some.inj hs
  rw [← heq]
  exact Session.rooted_create hgood root loadPath flags

theorem holds_after (hgood : ∀ l, l ≠ "" → good l) {e : Engine} (he : e.Holds (Rooted good))
    (operations : List Operation)
    (hargs : ∀ operation ∈ operations, ∀ arg ∈ operation.args, arg.Names good) :
    (e.after operations).Holds (Rooted good) := by
  induction operations generalizing e with
  | nil => exact he
  | cons operation operations ih =>
    have hstep := Operation.preserves hgood (hargs operation List.mem_cons_self) e he
    exact ih hstep fun o ho => hargs o (List.mem_cons_of_mem operation ho)

/-- Whatever operations were run, with paths of any kind, all nodes are below the root. -/
theorem holds_after_create (root : String) (loadPath : Option String) (flags : Flags)
    (operations : List Operation) :
    ((create root loadPath flags).after operations).Holds (Rooted fun _ => True) :=
  holds_after (fun _ _ => trivial)
    (holds_create (fun _ _ => trivial) root loadPath flags) operations
    fun _ _ arg _ => arg.names_any

/-- A failed operation leaves the session as it was: its tree, its flags, its mark of pending
changes and its count of saves. -/
theorem session_eq_of_answer_error (root : String) (loadPath : Option String) (flags : Flags)
    (operations : List Operation) (operation : Operation) {err : EngineError} {e : Engine}
    (h : ((create root loadPath flags).after operations).answer operation = (.error err, e)) :
    e.session = ((create root loadPath flags).after operations).session := by
  exact Operation.atomic (fun _ _ => trivial) (fun arg _ => arg.names_any) _
    (holds_after_create root loadPath flags operations) err e h

/-- The root is found, so its value is refused before anything is made. -/
theorem session_eq_of_answer_error_load :
    let path : Path := ⟨"/files/a", true,
      [.select (.child (.exact "files")) [], .select (.child (.exact "a")) []]⟩
    let e := (create "/" none .none).after [.set (.compiled path) (some "1")]
    let failed := e.answer (.load (.compiled ⟨"/", true, []⟩) { value := some "x" })
    failed.1 = .error (.badArgument .rootValue) ∧ failed.2.session = e.session := by
  intro path e failed
  have hfail : failed.1 = .error (.badArgument .rootValue) := rfl
  exact ⟨hfail, session_eq_of_answer_error "/" none .none _ _ (Prod.ext hfail rfl)⟩

/-- Whatever operations were run, with paths that come from texts: all nodes are below the root, so
that its subtree is the whole store; the root has neither label nor value; and every other node has
a label that is not empty. -/
theorem tree_after_create (root : String) (loadPath : Option String) (flags : Flags)
    (operations : List Operation)
    (hpaths : ∀ operation ∈ operations, ∀ path, .compiled path ∈ operation.args → path.Compiled)
    {s : Session} (hs : ((create root loadPath flags).after operations).session = some s) :
    (∀ id, s.store.contains id = true → s.store.isWithin id Store.root = true) ∧
      s.store.size = s.store.subtreeSize Store.root ∧
      s.store.label Store.root = none ∧ s.store.value Store.root = none ∧
      ∀ id, id ≠ Store.root → s.store.contains id = true →
        ∃ l, s.store.label id = some l ∧ l ≠ "" := by
  have hne : ∀ l : String, l ≠ "" → l ≠ "" := fun _ h => h
  have hargs : ∀ operation ∈ operations, ∀ arg ∈ operation.args, arg.Names (· ≠ "") := by
    intro operation ho arg harg
    cases arg with
    | text text => trivial
    | compiled path => exact (hpaths operation ho path harg).names hne
  have h := holds_after hne (holds_create hne root loadPath flags) operations hargs s hs
  exact ⟨fun _ hid => h.isWithin_root hid, h.size_eq_subtreeSize, h.wellFormed.label_root,
    h.value_root, fun _ hid hc => h.exists_label hid hc⟩

/-- A node is moved to a place that is made for it, and its store still counts nine nodes. -/
theorem tree_after_create_move :
    let files : Path := ⟨"/files", true, [.select (.child (.exact "files")) []]⟩
    let a := Path.rebase ⟨"a", false, [.select (.child (.exact "a")) []]⟩ files
    let b := Path.rebase ⟨"b", false, [.select (.child (.exact "b")) []]⟩ files
    ∃ s, ((create "/" none .none).after
        [.set (.compiled a) (some "1"), .move (.compiled a) (.compiled b)]).session = some s ∧
      s.store.size = 9 ∧ s.store.subtreeSize Store.root = 9 := by
  intro files a b
  have hfiles : files.Compiled := by
    have hc : Path.compile "/files" = .ok files := by with_unfolding_all rfl
    exact .compile hc
  have ha : a.Compiled := by
    have hc : Path.compile "a" = .ok ⟨"a", false, [.select (.child (.exact "a")) []]⟩ := by
      with_unfolding_all rfl
    exact .rebase (.compile hc) hfiles
  have hb : b.Compiled := by
    have hc : Path.compile "b" = .ok ⟨"b", false, [.select (.child (.exact "b")) []]⟩ := by
      with_unfolding_all rfl
    exact .rebase (.compile hc) hfiles
  have hpaths :
      ∀ operation ∈ [Operation.set (.compiled a) (some "1"), .move (.compiled a) (.compiled b)],
        ∀ path, .compiled path ∈ operation.args → path.Compiled := by
    intro operation ho path hp
    rcases List.mem_cons.mp ho with rfl | ho
    · cases List.mem_singleton.mp hp
      exact ha
    · cases List.mem_singleton.mp ho
      rcases List.mem_cons.mp hp with hp | hp
      · cases hp
        exact ha
      · cases List.mem_singleton.mp hp
        exact hb
  obtain ⟨s, hs, hsize⟩ : ∃ s, ((create "/" none .none).after
      [.set (.compiled a) (some "1"), .move (.compiled a) (.compiled b)]).session = some s ∧
      s.store.size = 9 := ⟨_, rfl, rfl⟩
  have htree := tree_after_create "/" none .none _ hpaths hs
  exact ⟨s, hs, hsize, by rw [← htree.2.1, hsize]⟩

end Engine

end LabelTree
