import LabelTree.Checked.Session
import LabelTree.Proofs.Checked.Resolve
import LabelTree.Proofs.Checked.Store

/-!
# Partial steps — sessions

A session can be opened without an undefined step, and then its store has an exact free list.
Questions have no undefined step on any session.
-/

namespace LabelTree

theorem Store.FreeExact.withChild {s : Store} (hs : s.FreeExact) (parent : NodeId) (label : String)
    (value : Option String) : (s.withChild parent label value).FreeExact := by
  rw [Store.withChild]
  split
  · exact hs
  · rename_i ha
    exact FreeExact.kept.appendKeeps hs trivial ha

namespace Checked

variable {α β : Type} {s : Store}

/-! ## Opening -/

theorem withChild_eq (hs : s.FreeExact) (parent : NodeId) (label : String)
    (value : Option String) :
    withChild s parent label value = some (s.withChild parent label value) := by
  rw [withChild, Store.withChild, appendChild_eq hs]
  cases s.appendChild parent label <;> rfl

theorem foldlM_withChild (hs : s.FreeExact) (parent : NodeId) (label : String)
    (values : List String) :
    values.foldlM (fun s value => withChild s parent label (some value)) s =
      some (values.foldl (fun s value => s.withChild parent label (some value)) s) := by
  induction values generalizing s with
  | nil => rfl
  | cons value values ih =>
    rw [List.foldlM_cons, withChild_eq hs]
    exact ih (hs.withChild parent label (some value))

theorem freeExact_foldl_withChild (hs : s.FreeExact) (parent : NodeId) (label : String)
    (values : List String) :
    (values.foldl (fun s value => s.withChild parent label (some value)) s).FreeExact := by
  induction values generalizing s with
  | nil => exact hs
  | cons value values ih => exact ih (hs.withChild parent label (some value))

theorem configure_eq (hs : s.FreeExact) (node : NodeId) (root : String) (dirs : List String)
    (flags : Flags) :
    configure s node root dirs flags = some (Session.configure s node root dirs flags) ∧
      (Session.configure s node root dirs flags).FreeExact := by
  have h₁ := hs.withChild node "root" (some (Session.rootDirectory root))
  have h₂ := h₁.withChild node "save" (some (SaveMode.ofFlags flags).name)
  have h₃ := h₂.withChild node "context" (some ("/" ++ Session.filesLabel))
  have h₄ := h₃.withChild node "version" (some Session.version)
  unfold configure Session.configure
  simp only [withChild_eq hs, withChild_eq h₁, withChild_eq h₂, withChild_eq h₃, appendChild_eq h₄,
    Option.bind_eq_bind, Option.bind_some]
  revert h₄
  generalize Store.withChild _ node "version" _ = t
  intro ht
  cases ha : t.appendChild node "loadpath" with
  | none => exact ⟨rfl, ht⟩
  | some made =>
    obtain ⟨loadpath, u⟩ := made
    have hu : u.FreeExact := Store.FreeExact.kept.insertChild ht ha
    exact ⟨foldlM_withChild hu loadpath "path" dirs,
      freeExact_foldl_withChild hu loadpath "path" dirs⟩

theorem createSession_eq (root : String) (loadPath : Option String) (flags : Flags) :
    createSession root loadPath flags = some (.create root loadPath flags) ∧
      (Session.create root loadPath flags).store.FreeExact := by
  have hnew : Store.new.FreeExact := Store.wellFormed_new.freeExact
  simp only [createSession, Session.create, appendChild_eq hnew, Option.bind_eq_bind,
    Option.bind_some]
  generalize (loadPath.map (Text.fields ':')).getD [] = dirs
  cases ha : Store.new.appendChild Store.root metaLabel with
  | none =>
    refine ⟨?_, hnew.withChild Store.root Session.filesLabel none⟩
    simp [withChild_eq hnew]
  | some made =>
    obtain ⟨node, t⟩ := made
    obtain ⟨hrun, hconf⟩ :=
      configure_eq (Store.FreeExact.kept.insertChild hnew ha) node root dirs flags
    refine ⟨?_, hconf.withChild Store.root Session.filesLabel none⟩
    simp [hrun, withChild_eq hconf]

/-! ## Questions -/

/-- A question that asks another one first. -/
theorem answered_bind {answer : Except EngineError α} {f : α → Answer β}
    {g : α → Except EngineError β} (h : ∀ a, f a = answered (g a)) :
    answered answer >>= f = answered (answer >>= g) := by
  cases answer with
  | error e => rfl
  | ok a => exact h a

theorem compileText_eq (text : String) :
    compileText text = answered ((Path.compile text).mapError (.invalidPath text)) := by
  rw [compileText, compile_eq]
  rfl

theorem compileArg_eq (arg : PathArg) : compileArg arg = answered (Session.compileArg arg) := by
  cases arg with
  | compiled path => rfl
  | text text => exact compileText_eq _

theorem anchor_eq (s : Session) (path : Path) : anchor s path = answered (s.anchor path) := by
  rw [anchor, Session.anchor]
  split
  · rfl
  · rw [compileText_eq]
    cases Path.compile s.context <;> rfl

theorem prepare_eq (s : Session) (arg : PathArg) : prepare s arg = answered (s.prepare arg) := by
  rw [prepare, compileArg_eq]
  exact answered_bind fun path => anchor_eq s path

theorem prepareExisting_eq (s : Session) (arg : PathArg) :
    prepareExisting s arg = answered (s.prepareExisting arg) := by
  rw [prepareExisting, compileArg_eq]
  exact answered_bind fun path => answered_bind fun _ => anchor_eq s path

theorem resolveNodes_eq (s : Session) (path : Path) :
    resolveNodes s path = answered (.ok (s.resolve path)) := by
  rw [resolveNodes, resolve_eq]
  rfl

theorem resolveSingle_eq (s : Session) (path : Path) :
    resolveSingle s path = answered (s.resolveSingle path) := by
  rw [resolveSingle, resolveNodes_eq, Session.resolveSingle]
  match s.resolve path with
  | [] => rfl
  | [_] => rfl
  | _ :: _ :: _ => rfl

theorem locateNode_eq (s : Session) (path : Path) :
    locateNode s path = answered (s.locate path) := by
  rw [locateNode, locate_eq]
  rfl

theorem readValue_eq (s : Session) (arg : PathArg) : readValue s arg = answered (s.get arg) := by
  rw [readValue, prepareExisting_eq]
  refine answered_bind fun path => ?_
  rw [resolveNodes_eq]
  match s.resolve path with
  | [] => rfl
  | [_] => rfl
  | _ :: _ :: _ => rfl

theorem entries_eq (s : Session) (arg : PathArg) (scope : Scope) :
    entries s arg scope = answered (s.entries arg scope) := by
  rw [entries, prepareExisting_eq]
  refine answered_bind fun path => ?_
  rw [resolveNodes_eq]
  cases scope <;> rfl

theorem snapshot_eq (s : Session) (arg : PathArg) : snapshot s arg = answered (s.snapshot arg) := by
  rw [snapshot, prepareExisting_eq]
  refine answered_bind fun path => ?_
  rw [resolveSingle_eq]
  refine answered_bind fun id => ?_
  dsimp only
  split <;> rfl

end Checked

end LabelTree
