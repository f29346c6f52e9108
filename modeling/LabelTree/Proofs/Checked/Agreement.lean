import LabelTree.Error

/-!
# Partial steps — agreement

A computation with partial steps agrees with one without them when it answers and does the same. The
states that are met on the way matter, since a step may be defined on some states only; so agreement
carries an invariant of the states, and what is known of the answers.
-/

namespace LabelTree.Checked

variable {α β σ : Type} {I : σ → Prop} {P : α → Prop} {Q : β → Prop}

/-- On a state with `I` the computation `c` is defined and does what `m` does, which keeps `I` and
answers something with `P`, if anything. -/
def Agrees (I : σ → Prop) (P : α → Prop) (c : ExceptT EngineError (StateT σ Option) α)
    (m : ExceptT EngineError (StateM σ) α) : Prop :=
  ∀ s, I s → c.run.run s = some (m.run.run s) ∧ I (m.run.run s).2 ∧
    ∀ a, (m.run.run s).1 = .ok a → P a

/-- Agreement on the states with `I`, whatever is answered. -/
abbrev Mirrors (I : σ → Prop) (c : ExceptT EngineError (StateT σ Option) α)
    (m : ExceptT EngineError (StateM σ) α) : Prop :=
  Agrees I (fun _ => True) c m

namespace Agrees

variable {c : ExceptT EngineError (StateT σ Option) α} {m : ExceptT EngineError (StateM σ) α}

theorem run_eq (h : Agrees I P c m) {s : σ} (hs : I s) : c.run.run s = some (m.run.run s) :=
  (h s hs).1

theorem keeps (h : Agrees I P c m) {s : σ} (hs : I s) : I (m.run.run s).2 :=
  (h s hs).2.1

theorem pure {a : α} (h : P a) : Agrees I P (Pure.pure a) (Pure.pure a) := by
  refine fun s hs => ⟨rfl, hs, fun b hb => ?_⟩
  cases hb
  exact h

theorem throw (e : EngineError) :
    Agrees I P (MonadExcept.throw e) (MonadExcept.throw e) :=
  fun _ hs => ⟨rfl, hs, fun _ h => nomatch h⟩

theorem throw_bind {e : EngineError} {f : α → ExceptT EngineError (StateT σ Option) β}
    {g : α → ExceptT EngineError (StateM σ) β} :
    Agrees I Q (MonadExcept.throw e >>= f) (MonadExcept.throw e >>= g) :=
  fun _ hs => ⟨rfl, hs, fun _ h => nomatch h⟩

theorem bind {f : α → ExceptT EngineError (StateT σ Option) β}
    {g : α → ExceptT EngineError (StateM σ) β} (h : Agrees I P c m)
    (hf : ∀ a, P a → Agrees I Q (f a) (g a)) : Agrees I Q (c >>= f) (m >>= g) := by
  intro s hs
  obtain ⟨hrun, hkeep, hans⟩ := h s hs
  have hc : (c >>= f).run.run s =
      (c.run.run s).bind fun r => ExceptT.bindCont f r.1 r.2 := rfl
  have hm : (m >>= g).run.run s = ExceptT.bindCont g (m.run.run s).1 (m.run.run s).2 := rfl
  rw [hc, hm, hrun, Option.bind_some]
  cases hr : (m.run.run s).1 with
  | error e => exact ⟨rfl, hkeep, fun _ h => nomatch h⟩
  | ok a => exact hf a (hans a hr) _ hkeep

/-- What is made of an answer has no partial steps. -/
theorem map (h : Agrees I P c m) (g : α → β) :
    Mirrors I (c >>= fun a => Pure.pure (g a)) (m >>= fun a => Pure.pure (g a)) :=
  h.bind fun _ _ => pure trivial

end Agrees

end LabelTree.Checked
