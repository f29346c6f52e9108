import LabelTree.Proofs.Engine.Notice
import LabelTree.Proofs.Session.Saved

/-!
# Engine — which changes a save counts

A mark stays until a save succeeds (`pending_of_run`), and that save counts it. So a save counts
what was changed outside the meta subtree since the one before it, but for changes that were
overlooked (`save_counts_change`).
-/

namespace LabelTree

open Store (root)

/-! ## Sessions -/

namespace Session

variable {s t : Session} {operation : Operation}

/-- A mark outlasts all operations but saves. -/
theorem Edited.pending (h : s.Edited operation t) (hsave : operation ≠ .save)
    (hs : s.pending = true) :
    t.pending = true := by
  rw [← Bool.not_eq_false] at hs ⊢
  intro ht
  refine hs ?_
  cases h with
  | asked => exact ht
  | assigned hassigned hpath hlocation hroot hreach =>
    exact hreach.pending (pending_touch_eq_false_iff.mp ht).1
  | removed hpath hroot => exact pending_foldl_without ht
  | moved hsrc hdst hnode hlocation hroot hlroot hinto hreach =>
    exact hreach.pending (pending_touch_eq_false_iff.mp (pending_touch_eq_false_iff.mp ht).1).1
  | inserted => exact (pending_touch_eq_false_iff.mp ht).1
  | saved => exact absurd rfl hsave
  | loaded hpath hlocation hreach hroot => exact hreach.pending (pending_touch_eq_false_iff.mp ht).1

theorem Edited.eq_saved (h : s.Edited .save t) : t = s.saved := by
  cases h with
  | asked hasks => cases hasks
  | assigned hassigned => cases hassigned
  | saved => rfl

end Session

/-! ## Runs -/

namespace Engine

variable {e e' : Engine} {s t s₀ s₁ s₂ s₃ : Session} {operation change : Operation}
  {operations before between after : List Operation} {reply : Reply}

/-- Whether a save of a run succeeds. -/
def Saves (e : Engine) (operations : List Operation) : Prop :=
  ∃ before after reply, operations = before ++ .save :: after ∧
    ((e.after before).answer .save).1 = .ok reply

theorem saves_tail (h : (e.answer operation).2.Saves operations) :
    e.Saves (operation :: operations) := by
  obtain ⟨before, after, reply, rfl, hsave⟩ := h
  exact ⟨operation :: before, after, reply, rfl, hsave⟩

/-- A mark stays until a save succeeds. -/
theorem pending_of_run (he : e.Holds (Session.Rooted fun _ => True)) (hs : e.session = some s)
    (ht : (e.after operations).session = some t)
    (hscript : ∀ operation ∈ operations, ∀ text, operation ≠ .runScript text)
    (hsave : ¬ e.Saves operations) (hpending : s.pending = true) : t.pending = true := by
  induction operations generalizing e s with
  | nil =>
    cases hs.symm.trans ht
    exact hpending
  | cons operation rest ih =>
    rw [after_cons] at ht
    obtain ⟨u, hu⟩ := exists_session ht
    have hpreserved : (e.answer operation).2.Holds (Session.Rooted fun _ => True) :=
      Operation.preserves (fun _ _ => trivial) (fun arg _ => arg.names_any) e he
    have hmarked : u.pending = true := by
      rcases eq_or_edited he hs hu (hscript operation List.mem_cons_self) with
        rfl | ⟨hedited, reply, hok⟩
      · exact hpending
      · refine hedited.pending ?_ hpending
        rintro rfl
        exact hsave ⟨[], rest, reply, rfl, hok⟩
    exact ih hpreserved hu ht (fun o ho => hscript o (List.mem_cons_of_mem operation ho))
      (fun h => hsave (saves_tail h)) hmarked

/-- Whatever operations were run, scripts unfolded: the first save that succeeds after a change
outside the meta subtree counts it, and shows the number of counted saves when there is a meta node,
unless the change is one of those that are overlooked. Such a change alone is not counted. -/
theorem save_counts_change (root : String) (loadPath : Option String) (flags : Flags)
    (operations : List Operation) (he : e = create root loadPath flags)
    (hsplit : e.unfolded operations = before ++ change :: (between ++ .save :: after))
    (hs₀ : (e.after before).session = some s₀)
    (hs₁ : (e.after (before ++ [change])).session = some s₁)
    (hs₂ : (e.after (before ++ change :: between)).session = some s₂)
    (hbetween : ¬ (e.after (before ++ [change])).Saves between)
    (hsave : (e.after (before ++ change :: between)).answer .save = (.ok reply, e'))
    (hs₃ : e'.session = some s₃) (hchanged : s₁.store.outside ≠ s₀.store.outside) :
    (¬ s₀.Overlooks change → s₃.saves = s₂.saves + 1 ∧
      (s₃.metaNode?.isSome = true → s₃.shownSaves = some (toString s₃.saves))) ∧
    (s₀.Overlooks change → s₀.pending = false → between = [] → s₃.saves = s₂.saves) := by
  have hscript : ∀ o ∈ e.unfolded operations, ∀ text, o ≠ .runScript text := by
    rintro o ho text rfl
    exact not_mem_unfolded text operations e ho
  rw [hsplit] at hscript
  subst he
  have hholds := holds_after_create root loadPath flags
  have hstep : ((create root loadPath flags).after (before ++ [change])) =
      (((create root loadPath flags).after before).answer change).2 := by
    rw [after_append]
    rfl
  have hrun : (create root loadPath flags).after (before ++ change :: between) =
      ((create root loadPath flags).after (before ++ [change])).after between := by
    rw [← after_append, List.append_assoc, List.singleton_append]
  rw [hstep] at hs₁
  have hedited : s₀.Edited change s₁ := by
    rcases eq_or_edited (hholds before) hs₀ hs₁ (hscript change (by simp)) with rfl | ⟨hedited, -⟩
    · exact absurd rfl hchanged
    · exact hedited
  rw [← hstep] at hs₁
  have hs₂' := hs₂
  rw [hrun] at hs₂'
  obtain rfl : s₃ = s₂.saved := by
    refine (edited_of_answer hs₂ hs₃ (hholds _ _ hs₂).wellFormed ?_ hsave).eq_saved
    exact fun _ h => by cases h
  refine ⟨fun hseen => ?_, fun hoverlooked hpending hnone => ?_⟩
  · have hmarked := hedited.noticed (hholds before s₀ hs₀) hchanged hseen
    have hlater : ∀ o ∈ between, ∀ text, o ≠ .runScript text := fun o ho => hscript o (by simp [ho])
    have hcounted := pending_of_run (hholds _) hs₁ hs₂' hlater hbetween hmarked
    refine ⟨by rw [Session.saves_saved, if_pos hcounted], fun hm => ?_⟩
    obtain ⟨m, hm⟩ := Option.isSome_iff_exists.mp hm
    exact Session.shownSaves_saved (hholds _ s₂ hs₂).wellFormed hm
  · subst hnone
    cases hs₁.symm.trans hs₂'
    have hsame := (hedited.overlooked (hholds before s₀ hs₀) hoverlooked).2
    rw [Session.saves_saved, hsame, hpending]
    rfl

/-- A value is set, asked for and saved. -/
theorem save_counts_change_set :
    let path : PathArg := .compiled ⟨"/files/a", true,
      [.select (.child (.exact "files")) [], .select (.child (.exact "a")) []]⟩
    let e := create "/" none .none
    ∃ s₀ s₁ s₂, e.session = some s₀ ∧ (e.after [.set path (some "1")]).session = some s₁ ∧
      s₁.store.outside ≠ s₀.store.outside ∧
      (e.after [.set path (some "1"), .get path, .save]).session = some s₂ ∧ s₂.saves = 1 ∧
      s₂.shownSaves = some "1" := by
  intro path e
  let s₀ : Session := e.session.getD (.create "" none .none)
  let s₁ : Session := (e.after [.set path (some "1")]).session.getD s₀
  let s₂ : Session := (e.after [.set path (some "1"), .get path]).session.getD s₀
  let s₃ : Session := (e.after [.set path (some "1"), .get path, .save]).session.getD s₀
  have hchanged : s₁.store.outside ≠ s₀.store.outside := by
    intro heq
    have hdepth := congrArg Snapshot.depth heq
    revert hdepth
    decide +kernel
  have hseen : ¬ s₀.Overlooks (.set path (some "1")) := by
    intro h
    cases h with
    | siblings hassigned => cases hassigned
    | newSiblings hassigned => cases hassigned
  have hnone : ¬ (e.after [.set path (some "1")]).Saves [.get path] := by
    rintro ⟨before, after, reply, hsplit, -⟩
    cases before with
    | nil => cases hsplit
    | cons first before => simp at hsplit
  have hsplit : e.unfolded [.set path (some "1"), .get path, .save] =
      [] ++ .set path (some "1") :: ([.get path] ++ .save :: []) := rfl
  have hs₀ : (e.after []).session = some s₀ := rfl
  have hs₁ : (e.after ([] ++ [.set path (some "1")])).session = some s₁ := rfl
  have hs₂ : (e.after ([] ++ .set path (some "1") :: [.get path])).session = some s₂ := rfl
  have hsave : (e.after ([] ++ .set path (some "1") :: [.get path])).answer .save =
      (.ok (.mode .overwrite), ⟨some s₃, {}⟩) := rfl
  have hcount :=
    (save_counts_change "/" none .none _ rfl hsplit hs₀ hs₁ hs₂ hnone hsave rfl hchanged).1
  obtain ⟨hsaves, hshown⟩ := hcount hseen
  have hone : s₃.saves = 1 := hsaves
  have hshown := hshown rfl
  rw [hone] at hshown
  exact ⟨s₀, s₁, s₃, rfl, rfl, hchanged, rfl, hone, hshown⟩

/-- Two values at the meta node: the second one makes a node outside, which the save does not
count. -/
theorem save_counts_change_siblings :
    let e := create "/" none .none
    let change : Operation := .setMany (.text "/augeas") [some "1", some "2"]
    ∃ s₀ s₁ s₂, e.session = some s₀ ∧ (e.after [change]).session = some s₁ ∧
      s₁.store.outside ≠ s₀.store.outside ∧
      ((e.after [change]).answer .save).1 = .ok (.mode .overwrite) ∧
      (e.after [change, .save]).session = some s₂ ∧ s₂.saves = s₁.saves ∧
      s₂.shownSaves = some "0" := by
  intro e change
  let s₀ : Session := e.session.getD (.create "" none .none)
  let s₁ : Session := (e.after [change]).session.getD s₀
  let s₂ : Session := (e.after [change, .save]).session.getD s₀
  have hchanged : s₁.store.outside ≠ s₀.store.outside := by
    intro heq
    have hcount := congrArg (fun copy : Snapshot => copy.children.length) heq
    revert hcount
    decide +kernel
  refine ⟨s₀, s₁, s₂, ?_, ?_, hchanged, ?_, ?_, ?_, ?_⟩
  · rfl
  · with_unfolding_all rfl
  · with_unfolding_all rfl
  · with_unfolding_all rfl
  · decide +kernel
  · decide +kernel

end Engine

end LabelTree
