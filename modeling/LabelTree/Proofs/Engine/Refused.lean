import LabelTree.Proofs.Engine.Handed
import LabelTree.Proofs.Engine.Record
import LabelTree.Proofs.Path.Faults
import LabelTree.Proofs.Path.Markers
import LabelTree.Proofs.Session.Moves

/-!
# Engine — where a refused marker stands

A path that has to name existing nodes is refused for its append marker before anything else is done
with it, with the text and the offset that it holds. All else that can fail there fails for another
reason. The offset is that of the marker in the text exactly when the path was compiled from the
text; in one that was put below another path it is that of the marker in the end of the text
(`Operation.append_refused_at_marker`).
-/

namespace LabelTree

/-! ## Edits that never fail for a reason -/

namespace Edit

variable {α β : Type} {code : ErrorCode} {m : Edit α} {f : α → Edit β} {s t : Session}

/-- That an edit never fails with an error of some kind. -/
def Avoids (code : ErrorCode) (m : Edit α) : Prop :=
  ∀ s t err, m.run.run s = (.error err, t) → err.code ≠ code

namespace Avoids

theorem pure (a : α) : Avoids code (Pure.pure a : Edit α) := by
  intro s t err h
  cases h

theorem throw {err : EngineError} (h : err.code ≠ code) :
    Avoids code (MonadExcept.throw err : Edit α) := by
  intro s t err' hrun
  cases hrun
  exact h

theorem bind (hm : m.Avoids code) (hf : ∀ a, (f a).Avoids code) : (m >>= f).Avoids code := by
  intro s t err h
  cases hrun : m.run.run s with
  | mk r u =>
    cases r with
    | error err' =>
      rw [run_bind_error hrun] at h
      cases h
      exact hm s t err hrun
    | ok a =>
      rw [run_bind_ok hrun] at h
      exact hf a u t err h

theorem ask {question : Session → Except EngineError α}
    (h : ∀ s err, question s = .error err → err.code ≠ code) : (Edit.ask question).Avoids code := by
  intro s t err hrun
  cases hq : question s with
  | ok a =>
    rw [run_ask_of_ok hq] at hrun
    cases hrun
  | error err' =>
    rw [run_ask_of_error hq] at hrun
    cases hrun
    exact h s err hq

theorem get : Avoids code (MonadState.get : Edit Session) := by
  intro s t err h
  cases h

theorem modify (g : Session → Session) : Avoids code (modify g : Edit Unit) := by
  intro s t err h
  cases h

theorem store : Avoids code Edit.store := by
  intro s t err h
  cases h

end Avoids

theorem removeAll_avoids (ids : List NodeId) : (removeAll ids).Avoids code := by
  induction ids with
  | nil => exact .pure 0
  | cons id rest ih =>
    refine .bind (.modify _) fun _ => .bind .store fun store => .bind (.modify _) fun _ => ?_
    exact .bind ih fun _ => .pure _

theorem cannotCreate_avoids (path : Path) (reason : CreationFault) :
    Avoids .invalidPath (MonadExcept.throw (.cannotCreate path.text reason) : Edit α) :=
  .throw nofun

theorem createBelow_avoids (path : Path) (parent : NodeId) (steps : List Step) :
    (createBelow path parent steps).Avoids .invalidPath := by
  induction steps generalizing parent with
  | nil => exact .pure parent
  | cons step rest ih =>
    rw [createBelow]
    cases step.newLabel? with
    | none => exact cannotCreate_avoids path _
    | some label =>
      refine .bind .store fun store => ?_
      cases store.appendAfterLabel parent label with
      | none => exact cannotCreate_avoids path _
      | some made => exact .bind (.modify _) fun _ => ih _

theorem reach_avoids (path : Path) (location : Location) :
    (reach path location).Avoids .invalidPath := by
  cases location with
  | found id => exact .pure id
  | missing anchor i =>
    exact .bind (createBelow_avoids path anchor _) fun id => .bind (.modify _) fun _ => .pure id

theorem replace_avoids (node target : NodeId) : (replace node target).Avoids code := by
  refine .bind .store fun _ => .bind (.modify _) fun _ => .bind .store fun s => ?_
  exact .bind (.modify _) fun _ => .modify _

/-! ## Edits that prepare a source -/

/-- That an edit first asks what its argument is prepared to, and that no later failure is an
invalid path. -/
def AsksPath (m : PathArg → Edit α) : Prop :=
  ∃ f : Path → Edit α, (∀ arg, m arg = Edit.ask (·.prepareExisting arg) >>= f) ∧
    ∀ path, (f path).Avoids .invalidPath

theorem AsksPath.prepareExisting_eq_error {m : PathArg → Edit α} {arg : PathArg} {err : EngineError}
    (hm : AsksPath m) (h : (m arg).run.run s = (.error err, t)) (hcode : err.code = .invalidPath) :
    s.prepareExisting arg = .error err := by
  obtain ⟨f, hf, havoids⟩ := hm
  rw [hf] at h
  rcases run_ask_bind_eq_error h with hprepare | ⟨path, -, hlater⟩
  · exact hprepare
  · exact absurd hcode (havoids path _ _ _ hlater)

theorem ask_asksPath {g : Session → Path → Except EngineError α}
    (hg : ∀ s path err, g s path = .error err → err.code ≠ .invalidPath) :
    AsksPath fun arg => ask fun s => s.prepareExisting arg >>= g s :=
  ⟨_, fun arg => ask_bind (·.prepareExisting arg) g, fun path => .ask fun s err => hg s path err⟩

theorem get_asksPath : AsksPath fun arg => ask (·.get arg) := by
  refine ask_asksPath fun s path err h => ?_
  split at h <;> cases h
  exact nofun

theorem entries_asksPath (scope : Scope) : AsksPath fun arg => ask (·.entries arg scope) := by
  refine ask_asksPath fun s path err h => ?_
  cases scope <;> cases h

theorem code_ne_of_resolveSingle {path : Path} {err : EngineError}
    (h : s.resolveSingle path = .error err) : err.code ≠ .invalidPath := by
  rcases Session.code_of_resolveSingle h with hcode | hcode <;> simp [hcode]

theorem code_ne_of_locate {path : Path} {err : EngineError} (h : s.locate path = .error err) :
    err.code ≠ .invalidPath := by
  rcases Session.code_of_locate h with hcode | hcode <;> simp [hcode]

theorem snapshot_asksPath : AsksPath fun arg => ask (·.snapshot arg) := by
  refine ask_asksPath fun s path err h => ?_
  cases hid : s.resolveSingle path with
  | error err' =>
    rw [hid] at h
    cases h
    exact code_ne_of_resolveSingle hid
  | ok id =>
    rw [hid] at h
    simp only [bind, Except.bind] at h
    split at h <;> cases h
    exact nofun

theorem remove_asksPath : AsksPath remove := by
  refine ⟨_, fun _ => rfl, fun path => .bind .get fun s => ?_⟩
  dsimp only
  split
  · exact .bind (.throw nofun) fun _ => removeAll_avoids _
  · exact .bind (.pure _) fun _ => removeAll_avoids _

theorem insert_asksPath {label : String} (h : isPlainLabel label = true) (before : Bool) :
    AsksPath fun arg => insert arg label before := by
  unfold insert
  simp only [h]
  refine ⟨_, fun _ => rfl,
    fun path => .bind (.ask fun s err => code_ne_of_resolveSingle) fun id => ?_⟩
  refine .bind .store fun s => ?_
  split
  · split
    · exact .pure _
    · exact .bind (.modify _) fun _ => .modify _
  · exact .throw nofun

/-- A move prepares its source and then its target, and no later failure is an invalid path. -/
theorem exists_move_avoids : ∃ f : Path → Path → Edit Unit,
    (∀ src dst, move src dst =
      ask (·.prepareExisting src) >>= fun p => ask (·.prepare dst) >>= fun q => f p q) ∧
    ∀ p q, (f p q).Avoids .invalidPath := by
  refine ⟨_, fun _ _ => rfl, fun p q => ?_⟩
  refine .bind (.ask fun s err => code_ne_of_resolveSingle) fun node => ?_
  refine .bind (.ask fun s err => code_ne_of_locate) fun location => ?_
  have hreplace : (reach q location >>= replace node).Avoids .invalidPath :=
    .bind (reach_avoids q location) fun target => replace_avoids node target
  have hguarded : Avoids .invalidPath (do
      if leadsInto (← store) node location then throw (.moveIntoDescendant p.text q.text)
      let target ← reach q location
      replace node target) := by
    refine .bind .store fun s => ?_
    dsimp only
    split
    · exact .bind (.throw nofun) fun _ => hreplace
    · exact hreplace
  dsimp only
  split
  · exact .bind (.throw nofun) fun _ => hguarded
  · exact hguarded

end Edit

/-! ## Sources that are refused -/

namespace Session

variable {s : Session} {arg : PathArg} {own path : Path} {text : String} {source : PathError}
  {offset : Nat}

theorem fault_of_compile {t : String}
    (h : (Path.compile t).mapError (EngineError.invalidPath t) =
      .error (.invalidPath text source)) :
    source.fault ≠ .appendNotAllowed := by
  cases hc : Path.compile t with
  | ok path => rw [hc] at h; cases h
  | error e =>
    rw [hc] at h
    cases h
    exact Path.fault_ne_appendNotAllowed hc

theorem fault_of_compileArg (h : compileArg arg = .error (.invalidPath text source)) :
    source.fault ≠ .appendNotAllowed := by
  cases arg with
  | compiled path => cases h
  | text t => exact fault_of_compile h

theorem fault_of_prepare (h : s.prepare arg = .error (.invalidPath text source)) :
    source.fault ≠ .appendNotAllowed := by
  rw [prepare] at h
  cases hown : compileArg arg with
  | error e =>
    rw [hown] at h
    cases h
    exact fault_of_compileArg hown
  | ok own =>
    rw [hown] at h
    have hanchor : s.anchor own = .error (.invalidPath text source) := h
    rw [anchor] at hanchor
    split at hanchor
    · cases hanchor
    · cases hbase : (Path.compile s.context).mapError (EngineError.invalidPath s.context) with
      | ok base => rw [hbase] at hanchor; cases hanchor
      | error e =>
        rw [hbase] at hanchor
        cases hanchor
        exact fault_of_compile hbase

/-- A marker is refused with the text and the offset that the path of the argument holds. -/
theorem exists_of_appendNotAllowed
    (h : s.prepareExisting arg = .error (.invalidPath text ⟨.appendNotAllowed, offset⟩)) :
    ∃ own, compileArg arg = .ok own ∧ own.text = text ∧ own.appendOffset? = some offset := by
  cases hown : compileArg arg with
  | error e =>
    rw [prepareExisting, hown] at h
    cases h
    exact absurd rfl (fault_of_compileArg hown)
  | ok own =>
    cases happend : own.isAppend with
    | false =>
      rw [prepareExisting_of_select hown happend] at h
      exact absurd rfl (fault_of_prepare h)
    | true =>
      obtain ⟨offset', hoffset, hreject⟩ := prepareExisting_of_isAppend (s := s) hown happend
      cases hreject.symm.trans h
      exact ⟨own, rfl, rfl, hoffset⟩

end Session

/-! ## Operations that are refused -/

namespace Path

variable {text : String} {offset : Nat}

/-- The mark is put before the marker. -/
theorem MarkedAt.exists_markPath (h : MarkedAt text offset) :
    ∃ before marker, text = before ++ marker ∧ IsMarker marker ∧
      markPath text offset = before ++ "|=|" ++ marker := by
  obtain ⟨before, marker, rfl, rfl, hmarker⟩ := h
  refine ⟨before, marker, rfl, hmarker, ?_⟩
  rw [markPath, String.toList_append, Text.splitAtByte_byteLength]
  simp

end Path

namespace Operation

variable {α : Type} {s : Session} {e : Engine} {operation : Operation} {arg : PathArg}
  {err : EngineError} {text : String} {offset : Nat}

theorem run_of_answer {m : Edit α} {answer : α → Reply} (he : e.session = some s)
    (hcall : operation.call = Engine.call m >>= fun a => pure (answer a))
    (h : (e.answer operation).1 = .error err) : m.run.run s = (.error err, (m.run.run s).2) := by
  rw [Engine.answer, hcall, Engine.run_call_bind_pure he] at h
  refine Prod.ext ?_ rfl
  cases hrun : (m.run.run s).1 with
  | ok a => rw [hrun] at h; cases h
  | error err' => rw [hrun] at h; cases h; rfl

theorem prepareExisting_of_answer {m : PathArg → Edit α} {answer : α → Reply} (hm : Edit.AsksPath m)
    (he : e.session = some s)
    (hcall : operation.call = Engine.call (m arg) >>= fun a => pure (answer a))
    (h : (e.answer operation).1 = .error err) (hcode : err.code = .invalidPath) :
    s.prepareExisting arg = .error err :=
  hm.prepareExisting_eq_error (run_of_answer he hcall h) hcode

/-- An operation on existing nodes fails for an invalid path where it prepares its paths and nowhere
else. -/
theorem prepare_of_answer (he : e.session = some s) (hsource : operation.source? = some arg)
    (h : (e.answer operation).1 = .error err) (hcode : err.code = .invalidPath) :
    s.prepareExisting arg = .error err ∨ ∃ dst, s.prepare dst = .error err := by
  cases operation <;> cases hsource
  case get => exact .inl (prepareExisting_of_answer Edit.get_asksPath he rfl h hcode)
  case remove => exact .inl (prepareExisting_of_answer Edit.remove_asksPath he rfl h hcode)
  case move dst =>
    obtain ⟨f, hf, havoids⟩ := Edit.exists_move_avoids
    have hrun := run_of_answer (m := Edit.move arg dst) he rfl h
    rw [hf] at hrun
    rcases Edit.run_ask_bind_eq_error hrun with hprepare | ⟨path, -, hlater⟩
    · exact .inl hprepare
    rcases Edit.run_ask_bind_eq_error hlater with hprepare | ⟨target, -, hlater⟩
    · exact .inr ⟨dst, hprepare⟩
    · exact absurd hcode (havoids path target _ _ _ hlater)
  case insert label before =>
    cases hlabel : isPlainLabel label with
    | true =>
      exact .inl (prepareExisting_of_answer (Edit.insert_asksPath hlabel before) he rfl h hcode)
    | false =>
      have hfault : (insert arg label before).argumentFault? = some (.insertLabel label) := by
        simp [argumentFault?, hlabel]
      rw [answer_of_argumentFault? he hfault] at h
      cases h
      cases hcode
  case addresses =>
    have hcall : (addresses arg).call = Engine.call (Edit.ask (·.entries arg .nodes)) >>=
        fun entries => pure (.paths (entries.map Entry.path)) := by
      simp [call, Engine.addresses, Engine.entries]
    exact .inl (prepareExisting_of_answer (Edit.entries_asksPath .nodes) he hcall h hcode)
  case entries =>
    exact .inl (prepareExisting_of_answer (Edit.entries_asksPath .nodes) he rfl h hcode)
  case children =>
    exact .inl (prepareExisting_of_answer (Edit.entries_asksPath .children) he rfl h hcode)
  case subtree =>
    exact .inl (prepareExisting_of_answer (Edit.entries_asksPath .subtree) he rfl h hcode)
  case snapshot => exact .inl (prepareExisting_of_answer Edit.snapshot_asksPath he rfl h hcode)

theorem ofError_appendNotAllowed (text : String) (offset : Nat) :
    ErrorInfo.ofError (.invalidPath text ⟨.appendNotAllowed, offset⟩) = ⟨.invalidPath,
      markPath text offset ++ " (last()+1 cannot be used with this operation)", some offset⟩ := by
  have hreason : " (" ++ PathFault.appendNotAllowed.message ++ ")" =
      " (last()+1 cannot be used with this operation)" := by decide +kernel
  rw [ErrorInfo.ofError, EngineError.details, ← hreason]
  simp only [String.append_assoc, EngineError.code]

/-- The refusal of a source that ends in an append step. Its text ends with the marker, and the
offset is that of the marker in the text exactly when the path was compiled from the text. The
record then has the offset, and the mark right before the bracket that opens the marker. For a path
that was put below another one it is the offset of the marker in the end of the text, where the text
that was compiled stands. -/
theorem append_refused_at_marker (hsource : operation.source? = some arg)
    (harg : ∀ path, arg = .compiled path → path.Compiled)
    (h : (e.answer operation).1 = .error (.invalidPath text ⟨.appendNotAllowed, offset⟩)) :
    (Path.MarkedAt text offset ↔ arg.FromText) ∧
      (∃ above own, text = above ++ own ∧ Path.MarkedAt own offset ∧
        Path.MarkedAt text (Text.byteLength above.toList + offset)) ∧
      (e.answer operation).2.record = ⟨.invalidPath,
        markPath text offset ++ " (last()+1 cannot be used with this operation)", some offset⟩ ∧
      (arg.FromText → ∃ before marker, text = before ++ marker ∧ Path.IsMarker marker ∧
        markPath text offset = before ++ "|=|" ++ marker) := by
  have hscript : ∀ script, operation ≠ .runScript script := by
    rintro script rfl
    cases hsource
  have hrecord := Engine.record_answer hscript e
  rw [h] at hrecord
  have hrecord := hrecord.trans (ofError_appendNotAllowed text offset)
  cases hs : e.session with
  | none =>
    rw [Engine.answer_of_closed hs] at h
    cases operation <;> cases h
  | some s =>
    obtain ⟨own, hown, rfl, hoffset⟩ : ∃ own, Session.compileArg arg = .ok own ∧ own.text = text ∧
        own.appendOffset? = some offset := by
      rcases prepare_of_answer hs hsource h rfl with hprepare | ⟨dst, hprepare⟩
      · exact Session.exists_of_appendNotAllowed hprepare
      · exact absurd rfl (Session.fault_of_prepare hprepare)
    have hcompiled : own.Compiled := by
      cases arg with
      | text text => exact .compile (Session.compileArg_text_eq_ok_iff.mp hown)
      | compiled path =>
        cases hown
        exact harg _ rfl
    have hfrom : (∃ text, Path.compile text = .ok own) ↔ arg.FromText := by
      refine ⟨fun hcompile => ?_, fun hfrom => Session.exists_compile_of_compileArg hfrom hown⟩
      cases arg with
      | text text => trivial
      | compiled path =>
        cases hown
        exact hcompile
    have hplace : Path.MarkedAt own.text offset ↔ arg.FromText :=
      (hcompiled.markedAt_iff hoffset).trans hfrom
    obtain ⟨above, last, htext, hlast, -⟩ := hcompiled.exists_own hoffset
    refine ⟨hplace, ⟨above, last, htext, hlast, ?_⟩, hrecord, fun harg => ?_⟩
    · rw [htext]
      exact hlast.append above
    · exact (hplace.mpr harg).exists_markPath

/-- The offset counts bytes, two for the letter. -/
theorem append_refused_at_marker_letter :
    ((Engine.create "/" none .none).answer (get (.text "é[last()+1]"))).1 =
        .error (.invalidPath "é[last()+1]" ⟨.appendNotAllowed, 2⟩) ∧
      Path.MarkedAt "é[last()+1]" 2 := by
  have harg : ∀ path, PathArg.text "é[last()+1]" = .compiled path → path.Compiled := by
    intro path h
    cases h
  have hown :
      Session.compileArg (.text "é[last()+1]") = .ok ⟨"é[last()+1]", false, [.append "é" 2]⟩ :=
    Session.compileArg_text_eq_ok_iff.mpr (by with_unfolding_all rfl)
  obtain ⟨offset, hoffset, hreject⟩ :=
    Session.prepareExisting_of_isAppend (s := .create "/" none .none) hown rfl
  cases hoffset
  have hop : (get (.text "é[last()+1]")).EvaluatesHanded :=
    evaluatesHanded (List.cons_ne_nil _ _) rfl
  have hanswer := congrArg Prod.fst
    (hop.answer_eq_error (e := Engine.create "/" none .none) rfl
      (handed_of_source_error rfl hreject))
  exact ⟨hanswer, (append_refused_at_marker rfl harg hanswer).1.mpr trivial⟩

/-- A path that is put below `/files` keeps its offset, which is then inside `files`. -/
theorem append_refused_at_marker_rebased :
    let files : Path := ⟨"/files", true, [.select (.child (.exact "files")) []]⟩
    let path := Path.rebase ⟨"a[last()+1]", false, [.append "a" 1]⟩ files
    let answered := (Engine.create "/" none .none).answer (get (.compiled path))
    path.Compiled ∧
      answered.1 = .error (.invalidPath "/files/a[last()+1]" ⟨.appendNotAllowed, 1⟩) ∧
      Path.MarkedAt "/files/a[last()+1]" 8 ∧ ¬ Path.MarkedAt "/files/a[last()+1]" 1 ∧
      answered.2.record = ⟨.invalidPath,
        "/|=|files/a[last()+1] (last()+1 cannot be used with this operation)", some 1⟩ := by
  intro files path answered
  have hpath : path.Compiled := by
    have ha : Path.compile "a[last()+1]" = .ok ⟨"a[last()+1]", false, [.append "a" 1]⟩ := by
      with_unfolding_all rfl
    have hfiles : Path.compile "/files" = .ok files := by with_unfolding_all rfl
    exact .rebase (.compile ha) (.compile hfiles)
  have hmarked : Path.MarkedAt "/files/a[last()+1]" 8 := by
    have hcompile : Path.compile "/files/a[last()+1]" =
        .ok ⟨"/files/a[last()+1]", true,
          [.select (.child (.exact "files")) [], .append "a" 8]⟩ := by
      with_unfolding_all rfl
    exact Path.markedAt_of_compile hcompile rfl
  have hreject : (Session.create "/" none .none).prepareExisting (.compiled path) =
      .error (.invalidPath "/files/a[last()+1]" ⟨.appendNotAllowed, 1⟩) := by
    rw [show path = ⟨"/files/a[last()+1]", true,
      [.select (.child (.exact "files")) [], .append "a" 1]⟩ by decide]
    rfl
  have hop : (get (.compiled path)).EvaluatesHanded := evaluatesHanded (List.cons_ne_nil _ _) rfl
  have hanswer : answered = _ :=
    hop.answer_eq_error (e := Engine.create "/" none .none) rfl (handed_of_source_error rfl hreject)
  have hmark : markPath "/files/a[last()+1]" 1 ++ " (last()+1 cannot be used with this operation)" =
      "/|=|files/a[last()+1] (last()+1 cannot be used with this operation)" := by decide +kernel
  rw [hanswer, ofError_appendNotAllowed, hmark]
  exact ⟨hpath, rfl, hmarked, fun h => absurd (h.unique hmarked) (by decide), rfl⟩

end Operation

end LabelTree
