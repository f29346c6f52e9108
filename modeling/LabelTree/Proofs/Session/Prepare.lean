import LabelTree.Proofs.Path.Sound
import LabelTree.Session.Basic

/-!
# Session — path arguments

What becomes of a path argument before it is evaluated: text is compiled, a final append step is
refused where existing nodes have to be named, and a relative path is put below the context. All
that can fail there is an invalid path. The steps of the argument itself append with the final one
at most. But the context may end in an append step too, and then that one stands before the steps of
a relative path (`Session.exists_append_of_prepareExisting`).
-/

namespace LabelTree

/-! ## Errors -/

namespace Session

variable {s : Session} {arg : PathArg} {path own base : Path} {err : EngineError}

theorem code_of_compileArg (h : compileArg arg = .error err) : err.code = .invalidPath := by
  cases arg with
  | compiled path => cases h
  | text text =>
    rw [compileArg] at h
    cases hc : Path.compile (Text.trim text) with
    | error e =>
      rw [hc] at h
      cases h
      rfl
    | ok path => rw [hc] at h; cases h

theorem code_of_anchor (h : s.anchor own = .error err) : err.code = .invalidPath := by
  rw [anchor] at h
  split at h
  · cases h
  · cases hc : Path.compile s.context with
    | error e =>
      rw [hc] at h
      cases h
      rfl
    | ok base => rw [hc] at h; cases h

/-- A final append step is refused with the offset of its marker. -/
theorem rejectAppend_eq (path : Path) :
    (path.isAppend = false ∧ rejectAppend path = .ok ()) ∨
      ∃ offset, path.appendOffset? = some offset ∧ path.isAppend = true ∧
        rejectAppend path = .error (.invalidPath path.text ⟨.appendNotAllowed, offset⟩) := by
  rw [← Path.isSome_appendOffset?, rejectAppend]
  cases path.appendOffset? with
  | none => exact .inl ⟨rfl, rfl⟩
  | some offset => exact .inr ⟨offset, rfl, rfl, rfl⟩

theorem code_of_prepare (h : s.prepare arg = .error err) : err.code = .invalidPath := by
  rw [prepare] at h
  cases hc : compileArg arg with
  | error e =>
    rw [hc] at h
    cases h
    exact code_of_compileArg hc
  | ok own =>
    rw [hc] at h
    exact code_of_anchor h

/-! ## Prepared paths -/

theorem mapError_eq_ok_iff {ε ε' α : Type} {f : ε → ε'} {x : Except ε α} {a : α} :
    x.mapError f = .ok a ↔ x = .ok a := by
  cases x with
  | error e => exact ⟨nofun, nofun⟩
  | ok b => exact ⟨fun h => congrArg _ (Except.ok.inj h), fun h => congrArg _ (Except.ok.inj h)⟩

theorem map_eq_ok_iff {ε α β : Type} {f : α → β} {x : Except ε α} {b : β} :
    x.map f = .ok b ↔ ∃ a, x = .ok a ∧ f a = b := by
  cases x with
  | error e => simp [Except.map]
  | ok a => simp [Except.map]

theorem compileArg_text_eq_ok_iff {t : String} :
    compileArg (.text t) = .ok own ↔ Path.compile (Text.trim t) = .ok own := by
  rw [compileArg, mapError_eq_ok_iff]

theorem prepare_eq_ok_iff :
    s.prepare arg = .ok path ↔ ∃ own, compileArg arg = .ok own ∧ s.anchor own = .ok path := by
  rw [prepare]
  cases compileArg arg with
  | error e => simp [bind, Except.bind]
  | ok own => simp [bind, Except.bind]

theorem anchor_eq_ok_iff :
    s.anchor own = .ok path ↔
      own.absolute = true ∧ path = own ∨
      own.absolute = false ∧ ∃ base, Path.compile s.context = .ok base ∧
        path = own.rebase base := by
  rw [anchor]
  cases own.absolute with
  | true => simp [eq_comm]
  | false =>
    simp [map_eq_ok_iff, mapError_eq_ok_iff, eq_comm (b := path)]

theorem prepare_of_relative (hown : compileArg arg = .ok own) (hrel : own.absolute = false)
    (hbase : Path.compile s.context = .ok base) : s.prepare arg = .ok (own.rebase base) :=
  prepare_eq_ok_iff.mpr ⟨own, hown, anchor_eq_ok_iff.mpr (.inr ⟨hrel, base, hbase, rfl⟩)⟩

theorem prepareExisting_of_isAppend (hown : compileArg arg = .ok own)
    (happend : own.isAppend = true) :
    ∃ offset, own.appendOffset? = some offset ∧
      s.prepareExisting arg = .error (.invalidPath own.text ⟨.appendNotAllowed, offset⟩) := by
  rcases rejectAppend_eq own with ⟨hfalse, -⟩ | ⟨offset, hoffset, -, hreject⟩
  · cases hfalse.symm.trans happend
  · refine ⟨offset, hoffset, ?_⟩
    rw [prepareExisting, hown]
    show (rejectAppend own >>= fun _ => s.anchor own) = _
    rw [hreject]
    rfl

theorem prepareExisting_of_select (hown : compileArg arg = .ok own)
    (hselect : own.isAppend = false) :
    s.prepareExisting arg = s.prepare arg := by
  rcases rejectAppend_eq own with ⟨-, haccept⟩ | ⟨_, -, htrue, -⟩
  · rw [prepareExisting, prepare, hown]
    show (rejectAppend own >>= fun _ => s.anchor own) = s.anchor own
    rw [haccept]
    rfl
  · cases hselect.symm.trans htrue

theorem code_of_prepareExisting (h : s.prepareExisting arg = .error err) :
    err.code = .invalidPath := by
  cases hown : compileArg arg with
  | error e =>
    rw [prepareExisting, hown] at h
    cases h
    exact code_of_compileArg hown
  | ok own =>
    cases happend : own.isAppend with
    | true =>
      obtain ⟨offset, -, hreject⟩ := prepareExisting_of_isAppend (s := s) hown happend
      cases hreject.symm.trans h
      rfl
    | false =>
      rw [prepareExisting_of_select hown happend] at h
      exact code_of_prepare h

theorem prepareExisting_eq_ok (h : s.prepareExisting arg = .ok path) :
    s.prepare arg = .ok path ∧ ∃ own, compileArg arg = .ok own ∧ own.isAppend = false := by
  cases hown : compileArg arg with
  | error e =>
    rw [prepareExisting, hown] at h
    cases h
  | ok own =>
    cases happend : own.isAppend with
    | true =>
      obtain ⟨offset, -, hreject⟩ := prepareExisting_of_isAppend (s := s) hown happend
      cases hreject.symm.trans h
    | false => exact ⟨prepareExisting_of_select hown happend ▸ h, own, rfl, happend⟩

end Session

/-! ## Append steps in prepared paths -/

/-- That a path argument is text, or a path that was compiled from text. -/
def PathArg.FromText : PathArg → Prop
  | .text _ => True
  | .compiled path => ∃ text, Path.compile text = .ok path

namespace Session

variable {s : Session} {arg : PathArg} {path own base : Path} {text : String}

theorem exists_compile_of_compileArg (harg : arg.FromText) (h : compileArg arg = .ok own) :
    ∃ text, Path.compile text = .ok own := by
  cases arg with
  | compiled path =>
    cases h
    exact harg
  | text text => exact ⟨_, compileArg_text_eq_ok_iff.mp h⟩

/-- That an argument is a relative path and the context below which it is put ends in an append
step. -/
def AnchorsAtAppend (s : Session) (arg : PathArg) : Prop :=
  ∃ own base, compileArg arg = .ok own ∧ own.absolute = false ∧
    Path.compile s.context = .ok base ∧ base.isAppend = true

/-- An append step stands before the last of a prepared path exactly when the context ends in
one. -/
theorem exists_append_of_prepare (harg : arg.FromText) (h : s.prepare arg = .ok path) :
    (∃ step ∈ path.steps.dropLast, step.isAppend = true) ↔ s.AnchorsAtAppend arg := by
  obtain ⟨own, hown, hanchor⟩ := prepare_eq_ok_iff.mp h
  obtain ⟨text, htext⟩ := exists_compile_of_compileArg harg hown
  have hselect := Path.isAppend_of_compile htext
  have hanchors : s.AnchorsAtAppend arg ↔
      own.absolute = false ∧ ∃ base, Path.compile s.context = .ok base ∧ base.isAppend = true := by
    simp [AnchorsAtAppend, hown]
  rw [hanchors]
  rcases anchor_eq_ok_iff.mp hanchor with ⟨habsolute, rfl⟩ | ⟨hrel, base, hbase, rfl⟩
  · constructor
    · rintro ⟨step, hmem, happend⟩
      cases (hselect step hmem).symm.trans happend
    · rintro ⟨hrel, -⟩
      cases habsolute.symm.trans hrel
  · rw [Path.dropLast_steps_rebase hrel (Path.steps_ne_nil_of_compile htext hrel)]
    -- the steps of the argument itself do not append before the last
    have hsplit : (∃ step ∈ base.steps ++ own.steps.dropLast, step.isAppend = true) ↔
        ∃ step ∈ base.steps, step.isAppend = true := by
      constructor
      · rintro ⟨step, hmem, happend⟩
        rcases List.mem_append.mp hmem with hmem | hmem
        · exact ⟨step, hmem, happend⟩
        · cases (hselect step hmem).symm.trans happend
      · rintro ⟨step, hmem, happend⟩
        exact ⟨step, List.mem_append_left _ hmem, happend⟩
    rw [hsplit, Path.exists_append_iff_of_compile hbase]
    simp [hrel, hbase]

/-- A path prepared for existing nodes has an append step exactly when the context ends in one. -/
theorem exists_append_of_prepareExisting (harg : arg.FromText)
    (h : s.prepareExisting arg = .ok path) :
    (∃ step ∈ path.steps, step.isAppend = true) ↔ s.AnchorsAtAppend arg := by
  obtain ⟨hprepare, own, hown, hselect⟩ := prepareExisting_eq_ok h
  rw [← exists_append_of_prepare harg hprepare, Path.exists_append_iff, or_iff_left]
  rw [Bool.not_eq_true]
  obtain ⟨own', hown', hanchor⟩ := prepare_eq_ok_iff.mp hprepare
  cases hown.symm.trans hown'
  obtain ⟨text, htext⟩ := exists_compile_of_compileArg harg hown
  rcases anchor_eq_ok_iff.mp hanchor with ⟨-, rfl⟩ | ⟨hrel, base, -, rfl⟩
  · exact hselect
  · rw [Path.isAppend_rebase hrel (Path.steps_ne_nil_of_compile htext hrel), hselect]

end Session

end LabelTree
