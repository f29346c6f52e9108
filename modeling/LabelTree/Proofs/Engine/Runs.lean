import LabelTree.Operation
import LabelTree.Proofs.Session.Edits

/-!
# Engine — what a run of operations keeps

An invariant of sessions that every edit settles into holds after every operation, failed or not,
and a failed operation leaves the session as it was. Scripts are runs of calls, so they keep the
invariant too. The invariant that is kept is that all nodes are below the root
(`Operation.preserves`).
-/

namespace LabelTree

namespace Engine

variable {α β : Type} {I : Session → Prop}

/-- That an engine is closed or its session satisfies `I`. -/
def Holds (I : Session → Prop) (e : Engine) : Prop :=
  ∀ s, e.session = some s → I s

/-- That `I` holds after a computation on an engine if it holds before. -/
def Preserves (I : Session → Prop) (c : StateM Engine α) : Prop :=
  ∀ e : Engine, e.Holds I → (c.run e).2.Holds I

/-- That a call that fails on an engine where `I` holds leaves the session as it was. -/
def Atomic (I : Session → Prop) (c : Call α) : Prop :=
  ∀ e : Engine, e.Holds I → ∀ err e', c.run.run e = (.error err, e') → e'.session = e.session

/-! ## Sequences -/

theorem Preserves.pure (a : α) : Preserves I (pure a : StateM Engine α) :=
  fun _ h => h

theorem Preserves.bind {c : StateM Engine α} {f : α → StateM Engine β} (hc : Preserves I c)
    (hf : ∀ a, Preserves I (f a)) : Preserves I (c >>= f) :=
  fun e he => hf _ _ (hc e he)

theorem Preserves.bind_call {c : Call α} {f : α → Call β} (hc : Preserves I c.run)
    (hf : ∀ a, Preserves I (f a).run) : Preserves I (c >>= f).run := by
  show Preserves I (c.run >>= ExceptT.bindCont f)
  refine Preserves.bind hc fun r => ?_
  cases r with
  | ok a => exact hf a
  | error e => exact Preserves.pure _

theorem ext_run {c c' : Call α} (h : ∀ e, c.run.run e = c'.run.run e) : c = c' :=
  funext h

/-- What is made of an answer leaves the engine as it is. -/
theorem run_bind_pure (c : Call α) (g : α → β) (e : Engine) :
    (c >>= fun a => pure (g a)).run.run e = ((c.run.run e).1.map g, (c.run.run e).2) := by
  show ExceptT.bindCont (fun a => (pure (g a) : Call _)) (c.run.run e).1 (c.run.run e).2 = _
  cases (c.run.run e).1 <;> rfl

/-! ## Calls -/

variable {m : Edit α} {e : Engine} {s : Session}

theorem run_call_of_some (h : e.session = some s) (m : Edit α) :
    (call m).run.run e =
      ((m.run.run s).1, ⟨some (m.run.run s).2, .ofResult (m.run.run s).1⟩) := by
  obtain ⟨session, record⟩ := e
  cases h
  rfl

/-- A call of one edit, and what is made of its answer. -/
theorem run_call_bind_pure (h : e.session = some s) (m : Edit α) (g : α → β) :
    (call m >>= fun a => pure (g a)).run.run e =
      ((m.run.run s).1.map g, ⟨some (m.run.run s).2, .ofResult (m.run.run s).1⟩) := by
  rw [run_bind_pure, run_call_of_some h]

theorem run_call_of_none (h : e.session = none) (m : Edit α) :
    (call m).run.run e =
      (.error .instanceClosed, { e with record := .ofError .instanceClosed }) := by
  obtain ⟨session, record⟩ := e
  cases h
  rfl

/-- What is made of the answer of an edit can be made within the call. -/
theorem call_bind_pure (m : Edit α) (g : α → β) :
    (call m >>= fun a => pure (g a)) = call (m >>= fun a => pure (g a)) := by
  refine ext_run fun e => ?_
  rw [run_bind_pure]
  cases hs : e.session with
  | none =>
    rw [run_call_of_none hs, run_call_of_none hs]
    rfl
  | some s =>
    rw [run_call_of_some hs, run_call_of_some hs]
    rcases hm : m.run.run s with ⟨err | a, t⟩
    · rw [Edit.run_bind_error hm]
      rfl
    · rw [Edit.run_bind_ok hm]
      rfl

/-- A question leaves the session as it is. -/
theorem run_ask (h : e.session = some s) (question : Session → Except EngineError α) :
    (call (Edit.ask question)).run.run e = (question s, ⟨some s, .ofResult (question s)⟩) := by
  rw [run_call_of_some h]
  cases hq : question s with
  | ok a => rw [Edit.run_ask_of_ok hq]
  | error err => rw [Edit.run_ask_of_error hq]

theorem preserves_call (hm : ∀ s, I s → m.Settles s fun _ t => I t) :
    Preserves I (call m).run := by
  intro e he
  cases hs : e.session with
  | none =>
    rw [run_call_of_none hs]
    exact he
  | some s =>
    rw [run_call_of_some hs]
    have h := hm s (he s hs)
    unfold Edit.Settles at h
    intro t ht
    cases ht
    split at h
    · rename_i a u hr
      rw [hr]
      exact h
    · rename_i err u hr
      rw [hr]
      exact h ▸ he s hs

theorem atomic_call (hm : ∀ s, I s → m.Settles s fun _ t => I t) : Atomic I (call m) := by
  intro e he err e' h
  cases hs : e.session with
  | none =>
    rw [run_call_of_none hs] at h
    cases h
    exact hs
  | some s =>
    rw [run_call_of_some hs] at h
    have hsettles := hm s (he s hs)
    unfold Edit.Settles at hsettles
    split at hsettles
    · rename_i a u hr
      rw [hr] at h
      cases h
    · rename_i err u hr
      rw [hr, hsettles] at h
      cases h
      rfl

/-! ## Calls of one edit -/

/-- A call that runs one edit, which settles into `I`, and answers something made of what it
answers. -/
def Settled (I : Session → Prop) (c : Call β) : Prop :=
  ∃ (α : Type) (m : Edit α) (g : α → β), c = (call m >>= fun a => Pure.pure (g a)) ∧
    ∀ s, I s → m.Settles s fun _ t => I t

namespace Settled

variable {c : Call α}

theorem call (hm : ∀ s, I s → m.Settles s fun _ t => I t) (g : α → β) :
    Settled I (Engine.call m >>= fun a => Pure.pure (g a)) :=
  ⟨α, m, g, rfl, hm⟩

theorem ask (question : Session → Except EngineError α) (g : α → β) :
    Settled I (Engine.call (Edit.ask question) >>= fun a => Pure.pure (g a)) :=
  call (fun _ h => Edit.Settles.ask h question) g

theorem map (hc : Settled I c) (g : α → β) : Settled I (c >>= fun a => Pure.pure (g a)) := by
  obtain ⟨α, m, f, rfl, hm⟩ := hc
  refine ⟨α, m, g ∘ f, ?_, hm⟩
  simp

theorem preserves (hc : Settled I c) : Preserves I c.run := by
  obtain ⟨α, m, g, rfl, hm⟩ := hc
  exact Preserves.bind_call (preserves_call hm) fun _ => Preserves.pure _

theorem atomic (hc : Settled I c) : Atomic I c := by
  obtain ⟨α, m, g, rfl, hm⟩ := hc
  intro e he err e' h
  rw [run_bind_pure, Prod.mk.injEq] at h
  obtain ⟨hfail, rfl⟩ := h
  -- the answer is a failure because that of the edit is one
  cases hr : ((Engine.call m).run.run e).1 with
  | ok a => rw [hr] at hfail; cases hfail
  | error err' => exact atomic_call hm e he err' _ (Prod.ext hr rfl)

end Settled

end Engine

end LabelTree
