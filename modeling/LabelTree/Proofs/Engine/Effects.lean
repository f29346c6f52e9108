import LabelTree.Proofs.Engine.Operations
import LabelTree.Proofs.Engine.Steps
import LabelTree.Proofs.Session.Effects

/-!
# Engine — what an operation that succeeds has done

All that an operation other than a script can do to a session, in one statement (`Session.Edited`):
what it was asked to change was found in the session before, and the session after it is made of
that. What holds after every operation is read off these cases.
-/

namespace LabelTree

open Store (root)

namespace Operation

/-- The path argument and the values of an operation that assigns values. -/
def assigned? : Operation → Option (PathArg × List (Option String))
  | set path value => some (path, [value])
  | setMany path values => some (path, values)
  | clear path => some (path, [none])
  | _ => none

/-- Whether an operation only asks. -/
def asks : Operation → Bool
  | get _ | addresses _ | entries _ | children _ | subtree _ | snapshot _ => true
  | _ => false

end Operation

/-- What an operation that succeeds makes of a session that stays open. -/
inductive Session.Edited (s : Session) : Operation → Session → Prop
  | asked {operation : Operation} (hasks : operation.asks = true) : Edited s operation s
  | assigned {operation : Operation} {arg : PathArg} {first : Option String}
    {rest : List (Option String)} {path : Path} {location : Location} {id : NodeId} {u : Session}
    (hassigned : operation.assigned? = some (arg, first :: rest)) (hpath : s.prepare arg = .ok path)
    (hlocation : s.locate path = .ok location) (hroot : location ≠ .found root)
    (hreach : s.Reaches path location id u) :
    Edited s operation ({ u with store := u.store.withValues id first rest }.touch id)
  | removed {arg : PathArg} {path : Path} (hpath : s.prepareExisting arg = .ok path)
    (hroot : root ∉ s.resolve path) :
    Edited s (.remove arg) ((s.resolve path).foldl Session.without s)
  | moved {src dst : PathArg} {srcPath dstPath : Path} {node target : NodeId} {location : Location}
    {u : Session} (hsrc : s.prepareExisting src = .ok srcPath) (hdst : s.prepare dst = .ok dstPath)
    (hnode : s.resolve srcPath = [node]) (hlocation : s.locate dstPath = .ok location)
    (hroot : node ≠ root) (hlroot : location ≠ .found root)
    (hinto : Edit.leadsInto s.store node location = false)
    (hreach : s.Reaches dstPath location target u) :
    Edited s (.move src dst)
      ({ u.touch node with store := u.store.takePlace node target }.touch node)
  | inserted {arg : PathArg} {label : String} {before : Bool} {path : Path} {sibling p id : NodeId}
    {i : Nat} {store : Store} (hpath : s.prepareExisting arg = .ok path)
    (hsibling : s.resolve path = [sibling]) (hparent : s.store.parent sibling = some p)
    (hindex : s.store.indexInParent sibling = some i)
    (hinsert : s.store.insertChild p (if before then i else i + 1) label = some (id, store)) :
    Edited s (.insert arg label before) ({ s with store }.touch id)
  | saved : Edited s .save s.saved
  | loaded {arg : PathArg} {source : Snapshot} {path : Path} {location : Location} {id : NodeId}
    {u : Session} (hpath : s.prepare arg = .ok path) (hlocation : s.locate path = .ok location)
    (hreach : s.Reaches path location id u) (hroot : source.value.isSome = true → id ≠ root) :
    Edited s (.load arg source)
      ({ u with store := ((Edit.valued u.store id source).graft id source).2 }.touch id)

namespace Engine

variable {α β : Type} {e e' : Engine} {s t : Session} {operation : Operation} {reply : Reply}

/-- The session after a call of one edit is the one after the edit. -/
theorem run_eq_ok_of_call {m : Edit α} {g : α → β} {b : β} (hs : e.session = some s)
    (ht : e'.session = some t) (h : (call m >>= fun a => pure (g a)).run.run e = (.ok b, e')) :
    ∃ a, m.run.run s = (.ok a, t) := by
  rw [run_call_bind_pure hs] at h
  cases hm : m.run.run s with
  | mk r u =>
    rw [hm] at h
    cases r with
    | error err => cases h
    | ok a =>
      cases h
      cases ht
      exact ⟨a, rfl⟩

theorem session_answer_of_asks (hasks : operation.asks = true) (e : Engine) :
    (e.answer operation).2.session = e.session := by
  cases operation with
  | get path | entries path | children path | subtree path | snapshot path =>
    exact (session_bind_pure _ _ e).trans (session_ask e _)
  | addresses path =>
    exact (session_bind_pure _ _ e).trans ((session_bind_pure _ _ e).trans (session_ask e _))
  | _ => cases hasks

theorem edited_of_asks (hasks : operation.asks = true) (hs : e.session = some s)
    (ht : e'.session = some t) (h : e.answer operation = (.ok reply, e')) :
    s.Edited operation t := by
  have hsame := session_answer_of_asks hasks e
  rw [h, ht, hs] at hsame
  cases hsame
  exact .asked hasks

theorem edited_of_setMany {arg : PathArg} {values : List (Option String)} {n : Nat}
    (hassigned : operation.assigned? = some (arg, values))
    (h : (Edit.setMany arg values).run.run s = (.ok n, t)) : s.Edited operation t := by
  obtain ⟨first, rest, path, location, id, u, rfl, hpath, hlocation, hroot, hreach, rfl⟩ :=
    Edit.setMany_of_run h
  exact .assigned hassigned hpath hlocation hroot hreach

theorem edited_of_answer (hs : e.session = some s) (ht : e'.session = some t)
    (hw : s.store.WellFormed) (hscript : ∀ text, operation ≠ .runScript text)
    (h : e.answer operation = (.ok reply, e')) : s.Edited operation t := by
  cases operation with
  | runScript text => exact absurd rfl (hscript text)
  | close =>
    rw [show e.answer .close = _ from Operation.run_close_of_some hs] at h
    cases h
    cases ht
  | get path | addresses path | entries path | children path | subtree path | snapshot path =>
    exact edited_of_asks rfl hs ht h
  | set path value | clear path =>
    obtain ⟨a, ha⟩ := run_eq_ok_of_call hs ht h
    obtain ⟨n, hn⟩ := Edit.set_of_run ha
    exact edited_of_setMany rfl hn
  | setMany path values =>
    obtain ⟨n, hn⟩ := run_eq_ok_of_call hs ht h
    exact edited_of_setMany rfl hn
  | remove path =>
    obtain ⟨n, hn⟩ := run_eq_ok_of_call hs ht h
    obtain ⟨p, hp, hroot, rfl⟩ := Edit.remove_of_run hn
    exact .removed hp hroot
  | move src dst =>
    obtain ⟨a, ha⟩ := run_eq_ok_of_call hs ht h
    obtain ⟨p, q, node, location, target, u, hp, hq, hnode, hl, hroot, hlroot, hinto,
        hreach, rfl⟩ :=
      Edit.move_of_run ha
    exact .moved hp hq hnode hl hroot hlroot hinto hreach
  | insert path label before =>
    obtain ⟨a, ha⟩ := run_eq_ok_of_call hs ht h
    obtain ⟨p, sibling, q, i, id, store, hp, hsibling, hq, hi, hins, rfl⟩ :=
      Edit.insert_of_run hw ha
    exact .inserted hp hsibling hq hi hins
  | save =>
    obtain ⟨mode, hmode⟩ := run_eq_ok_of_call hs ht h
    cases Edit.save_of_run hmode
    exact .saved
  | load path source =>
    obtain ⟨n, hn⟩ := run_eq_ok_of_call hs ht h
    obtain ⟨-, p, location, id, u, hp, hl, hreach, hroot, rfl⟩ := Edit.load_of_run hn
    exact .loaded hp hl hreach hroot

/-- One operation that runs no script: it succeeds, or leaves the session as it was. -/
theorem eq_or_edited (he : e.Holds (Session.Rooted fun _ => True)) (hs : e.session = some s)
    (ht : (e.answer operation).2.session = some t) (hscript : ∀ text, operation ≠ .runScript text) :
    t = s ∨ s.Edited operation t ∧ ∃ reply, (e.answer operation).1 = .ok reply := by
  cases h : e.answer operation with
  | mk result e' =>
    rw [h] at ht
    cases result with
    | ok reply =>
      exact .inr ⟨edited_of_answer hs ht (he s hs).wellFormed hscript h, reply, rfl⟩
    | error err =>
      have hsame := Operation.atomic (fun _ _ => trivial) (fun arg _ => arg.names_any) e he err e' h
      rw [ht, hs] at hsame
      exact .inl (Option.some.inj hsame)

end Engine

end LabelTree
