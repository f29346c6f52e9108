import LabelTree.Session.Edit

/-!
# Session — how edits run

Two judgements about an edit and the session it starts on. `Yields`: it succeeds, and its answer and
the session after it are as said. `Settles`: if it succeeds they are as said, and if it fails the
session is what it was. An edit settles when what may fail comes first and what changes the session
yields, which is what the rules for sequences say.
-/

namespace LabelTree

namespace Edit

variable {α β : Type} {s : Session} {m : Edit α} {f : α → Edit β} {e : EngineError}
  {Q R : α → Session → Prop} {P : β → Session → Prop}

/-! ## What a run is -/

theorem ext_run {m m' : Edit α} (h : ∀ s, m.run.run s = m'.run.run s) : m = m' :=
  funext h

theorem run_pure (a : α) (s : Session) : (pure a : Edit α).run.run s = (.ok a, s) := rfl

theorem run_bind_ok {a : α} {t : Session} (h : m.run.run s = (.ok a, t)) (f : α → Edit β) :
    (m >>= f).run.run s = (f a).run.run t := by
  show ExceptT.bindCont f (m.run.run s).1 (m.run.run s).2 = _
  rw [h]
  rfl

theorem run_bind_error {t : Session} (h : m.run.run s = (.error e, t)) (f : α → Edit β) :
    (m >>= f).run.run s = (.error e, t) := by
  show ExceptT.bindCont f (m.run.run s).1 (m.run.run s).2 = _
  rw [h]
  rfl

/-! ## Judgements -/

def Yields (m : Edit α) (s : Session) (Q : α → Session → Prop) : Prop :=
  ∃ a t, m.run.run s = (.ok a, t) ∧ Q a t

def Settles (m : Edit α) (s : Session) (Q : α → Session → Prop) : Prop :=
  match m.run.run s with
  | (.ok a, t) => Q a t
  | (.error _, t) => t = s

namespace Yields

theorem mono (h : Yields m s Q) (hq : ∀ a t, Q a t → R a t) : Yields m s R := by
  obtain ⟨a, t, hm, ha⟩ := h
  exact ⟨a, t, hm, hq a t ha⟩

theorem pure {a : α} (h : Q a s) : Yields (pure a) s Q :=
  ⟨a, s, rfl, h⟩

theorem bind (h : Yields m s Q) (hf : ∀ a t, Q a t → Yields (f a) t P) :
    Yields (m >>= f) s P := by
  obtain ⟨a, t, hm, ha⟩ := h
  obtain ⟨b, u, hb, hp⟩ := hf a t ha
  exact ⟨b, u, (run_bind_ok hm f).trans hb, hp⟩

theorem step {a : α} {t : Session} (h : m.run.run s = (.ok a, t)) (hf : Yields (f a) t P) :
    Yields (m >>= f) s P := by
  obtain ⟨b, u, hb, hp⟩ := hf
  exact ⟨b, u, (run_bind_ok h f).trans hb, hp⟩

theorem of_run {a : α} {t : Session} (h : m.run.run s = (.ok a, t)) (hq : Q a t) : Yields m s Q :=
  ⟨a, t, h, hq⟩

theorem settles (h : Yields m s Q) : Settles m s Q := by
  obtain ⟨a, t, hm, ha⟩ := h
  rw [Settles, hm]
  exact ha

end Yields

namespace Settles

theorem throw : Settles (throw e : Edit α) s Q :=
  rfl

theorem throw_bind {g : β → Edit α} : Settles ((MonadExcept.throw e : Edit β) >>= g) s Q :=
  rfl

/-- A step that changes nothing. -/
theorem step {a : α} (h : m.run.run s = (.ok a, s)) (hf : Settles (f a) s P) :
    Settles (m >>= f) s P := by
  rw [Settles, run_bind_ok h]
  exact hf

/-- What comes after a change must succeed. -/
theorem bind (h : Settles m s Q) (hf : ∀ a t, Q a t → Yields (f a) t P) :
    Settles (m >>= f) s P := by
  unfold Settles at h
  split at h
  · rename_i a t hm
    obtain ⟨b, u, hb, hp⟩ := hf a t h
    rw [Settles, run_bind_ok hm, hb]
    exact hp
  · rename_i e t hm
    rw [Settles, run_bind_error hm]
    exact h

end Settles

/-! ## Single steps -/

theorem run_get (s : Session) : (get : Edit Session).run.run s = (.ok s, s) := rfl

theorem run_modify (g : Session → Session) (s : Session) :
    (modify g : Edit Unit).run.run s = (.ok (), g s) := rfl

theorem run_store (s : Session) : store.run.run s = (.ok s.store, s) := rfl

theorem run_setStore (store : Store) (s : Session) :
    (setStore store).run.run s = (.ok (), { s with store }) := rfl

theorem run_touch (id : NodeId) (s : Session) : (touch id).run.run s = (.ok (), s.touch id) := rfl

theorem run_assign (id : NodeId) (value : Option String) (s : Session) :
    (assign id value).run.run s =
      (.ok (), { s with store := (s.store.setValue id value).getD s.store }) := rfl

theorem run_ask_of_ok {question : Session → Except EngineError α} {a : α}
    (h : question s = .ok a) : (ask question).run.run s = (.ok a, s) := by
  rw [ask, run_bind_ok (run_get s), h]
  rfl

theorem run_ask_of_error {question : Session → Except EngineError α}
    (h : question s = .error e) : (ask question).run.run s = (.error e, s) := by
  rw [ask, run_bind_ok (run_get s), h]
  rfl

/-- A question that asks another one first. -/
theorem ask_bind (question : Session → Except EngineError α)
    (g : Session → α → Except EngineError β) :
    (ask fun s => question s >>= g s) = ask question >>= fun a => ask (g · a) := by
  refine ext_run fun s => ?_
  cases hq : question s with
  | error err =>
    have hbind : question s >>= g s = .error err := by rw [hq]; rfl
    rw [run_bind_error (run_ask_of_error hq), run_ask_of_error hbind]
  | ok a =>
    have hbind : question s >>= g s = g s a := by rw [hq]; rfl
    rw [run_bind_ok (run_ask_of_ok hq)]
    cases hg : g s a with
    | error err => rw [run_ask_of_error (hbind.trans hg), run_ask_of_error hg]
    | ok b => rw [run_ask_of_ok (hbind.trans hg), run_ask_of_ok hg]

theorem Settles.ask_bind {question : Session → Except EngineError α}
    (hf : ∀ a, question s = .ok a → Settles (f a) s P) : Settles (ask question >>= f) s P := by
  unfold Settles
  cases h : question s with
  | error e => rw [run_bind_error (run_ask_of_error h)]
  | ok a =>
    rw [run_bind_ok (run_ask_of_ok h)]
    exact hf a h

/-- A question changes nothing. -/
theorem Settles.ask {I : Session → Prop} (h : I s) (question : Session → Except EngineError α) :
    Settles (ask question) s fun _ t => I t := by
  unfold Settles
  cases hq : question s with
  | ok a =>
    rw [run_ask_of_ok hq]
    exact h
  | error e => rw [run_ask_of_error hq]

end Edit

end LabelTree
