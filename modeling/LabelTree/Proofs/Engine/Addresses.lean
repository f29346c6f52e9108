import LabelTree.Proofs.Address.Resolve
import LabelTree.Proofs.Address.Trimmed
import LabelTree.Proofs.Engine.Operations
import LabelTree.Proofs.Session.Read

/-!
# Engine — giving addresses back

Text given as a path is trimmed before it is compiled. An address that does not end in a blank stays
as it is and leads to its node; one that ends in a blank is refused, since only the blank goes and
not the backslash before it (`addresses_given_back`).
-/

namespace LabelTree

/-! ## Reading operations -/

namespace Engine

variable {e : Engine} {s : Session}

theorem answer_get (h : e.session = some s) (arg : PathArg) :
    e.answer (.get arg) = ((s.get arg).map .value, ⟨some s, .ofResult (s.get arg)⟩) := by
  have hrun : (Engine.get arg).run.run e = _ := run_ask h (·.get arg)
  exact (run_bind_pure (Engine.get arg) Reply.value e).trans (by rw [hrun])

theorem answer_entries (h : e.session = some s) (arg : PathArg) :
    e.answer (.entries arg) =
      ((s.entries arg .nodes).map .entries, ⟨some s, .ofResult (s.entries arg .nodes)⟩) := by
  have hrun : (Engine.entries arg).run.run e = _ := run_ask h (·.entries arg .nodes)
  exact (run_bind_pure (Engine.entries arg) Reply.entries e).trans (by rw [hrun])

theorem answer_addresses (h : e.session = some s) (arg : PathArg) :
    e.answer (.addresses arg) =
      ((s.entries arg .nodes).map fun entries => .paths (entries.map Entry.path),
        ⟨some s, .ofResult (s.entries arg .nodes)⟩) := by
  have hrun : (Engine.entries arg).run.run e = _ := run_ask h (·.entries arg .nodes)
  have hpaths := run_bind_pure (Engine.entries arg) (List.map Entry.path) e
  rw [hrun] at hpaths
  refine (run_bind_pure (Engine.addresses arg) Reply.paths e).trans ?_
  rw [show (Engine.addresses arg).run.run e = _ from hpaths]
  cases s.entries arg .nodes <;> rfl

end Engine

/-! ## Addresses as text -/

namespace Engine

variable {e : Engine} {s : Session} {id : NodeId}

/-- An address that is not trimmed leads back to its node. -/
theorem answers_address (he : e.session = some s) (hs : s.store.Rooted (· ≠ ""))
    (hfit : s.store.PositionsFit) (hid : s.store.contains id = true)
    (hblank : Text.endsInBlank (s.store.address id) = false) :
    let t := s.store.address id
    (∃ path, Session.compileArg (.text t) = .ok path ∧ s.resolve path = [id]) ∧
      (e.answer (.addresses (.text t))).1 = .ok (.paths [t]) ∧
      (e.answer (.get (.text t))).1 = .ok (.value (s.store.value id)) ∧
      (e.answer (.entries (.text t))).1 = .ok (.entries [s.store.entry id]) := by
  intro t
  have htrim : Text.trim t = t := Store.trim_address hblank
  have hcompile := hs.wellFormed.compile_address hs.good_label hfit hid
  have hresolve : s.resolve ⟨t, true, s.store.leadingSteps id⟩ = [id] :=
    hs.wellFormed.foldl_leadingSteps hid (hs.isWithin_root hid)
  have hprepare : s.prepareExisting (.text t) = .ok ⟨t, true, s.store.leadingSteps id⟩ := by
    refine Session.prepareExisting_text (htrim.symm ▸ hcompile) rfl ?_
    exact Path.appendOffset?_eq_none (s.store.isAppend_leadingSteps id)
  have hentries := Session.entries_of_prepare hprepare
  rw [hresolve] at hentries
  refine ⟨⟨_, by rw [Session.compileArg, htrim, hcompile]; rfl, hresolve⟩, ?_, ?_, ?_⟩
  · rw [answer_addresses he, hentries]
    rfl
  · rw [answer_get he, Session.get_of_resolve hprepare hresolve]
    rfl
  · rw [answer_entries he, hentries]
    rfl

/-- An address that is trimmed is refused. -/
theorem refuses_address (he : e.session = some s) (hs : s.store.Rooted (· ≠ ""))
    (hfit : s.store.PositionsFit) (hid : s.store.contains id = true)
    (hblank : Text.endsInBlank (s.store.address id) = true) :
    let t := s.store.address id
    ∃ offset, ∀ operation ∈ [Operation.addresses (.text t), .get (.text t), .entries (.text t)],
      (e.answer operation).1 = .error (.invalidPath (Text.trim t) ⟨.danglingEscape, offset⟩) := by
  intro t
  obtain ⟨offset, hcompile⟩ := hs.wellFormed.compile_trim_address hs.good_label hfit hid hblank
  have hprepare := Session.prepareExisting_text_error (s := s) hcompile
  have hget := Session.get_of_prepare_error hprepare
  have hentries := Session.entries_of_prepare_error hprepare
  refine ⟨offset, fun operation ho => ?_⟩
  simp only [List.mem_cons, List.not_mem_nil, or_false] at ho
  rcases ho with rfl | rfl | rfl
  · rw [answer_addresses he, hentries]
    rfl
  · rw [answer_get he, hget]
    rfl
  · rw [answer_entries he, hentries]
    rfl

/-- Whatever operations were run, with paths that come from texts, all nodes are below the root and
no label is empty. -/
theorem rooted_after_create (root : String) (loadPath : Option String) (flags : Flags)
    (operations : List Operation)
    (hpaths : ∀ operation ∈ operations, ∀ path, .compiled path ∈ operation.args → path.Compiled)
    (hs : ((create root loadPath flags).after operations).session = some s) :
    s.store.Rooted (· ≠ "") := by
  have hargs : ∀ operation ∈ operations, ∀ arg ∈ operation.args, arg.Names (· ≠ "") := by
    intro operation ho arg harg
    cases arg with
    | text text => trivial
    | compiled path => exact (hpaths operation ho path harg).names fun _ h => h
  exact holds_after (fun _ h => h)
    (holds_create (fun _ h => h) root loadPath flags) operations hargs s hs

/-- Whatever operations were run, an address that the engine shows for a node can be given back as
text exactly when it does not end in a blank. Then it leads to that node alone; else it is refused,
because of an escape with nothing to escape. -/
theorem addresses_given_back (root : String) (loadPath : Option String) (flags : Flags)
    (operations : List Operation)
    (hpaths : ∀ operation ∈ operations, ∀ path, .compiled path ∈ operation.args → path.Compiled)
    (hs : ((create root loadPath flags).after operations).session = some s)
    (hfit : s.store.PositionsFit) {arg : PathArg} {texts : List String}
    (h : ((create root loadPath flags).after operations).answer (.addresses arg) =
      (.ok (.paths texts), e)) :
    e.session = some s ∧ ∃ ids : List NodeId, texts = ids.map s.store.address ∧ ∀ id ∈ ids,
      let t := s.store.address id
      (Text.endsInBlank t = false →
        (∃ path, Session.compileArg (.text t) = .ok path ∧ s.resolve path = [id]) ∧
          (e.answer (.addresses (.text t))).1 = .ok (.paths [t]) ∧
          (e.answer (.get (.text t))).1 = .ok (.value (s.store.value id)) ∧
          (e.answer (.entries (.text t))).1 = .ok (.entries [s.store.entry id])) ∧
      (Text.endsInBlank t = true →
        ∃ offset, ∀ operation ∈ [Operation.addresses (.text t), .get (.text t), .entries (.text t)],
          (e.answer operation).1 =
            .error (.invalidPath (Text.trim t) ⟨.danglingEscape, offset⟩)) := by
  have hrooted : s.store.Rooted (· ≠ "") :=
    rooted_after_create root loadPath flags operations hpaths hs
  rw [answer_addresses hs, Prod.mk.injEq] at h
  obtain ⟨hanswer, rfl⟩ := h
  cases hentries : s.entries arg .nodes with
  | error err =>
    rw [hentries] at hanswer
    cases hanswer
  | ok entries =>
    obtain ⟨path, hpath, rfl⟩ := Session.exists_path_of_entries hentries
    rw [hentries] at hanswer
    cases hanswer
    refine ⟨rfl, s.resolve path, List.map_map, fun id hid => ?_⟩
    have hc : s.store.contains id = true := hrooted.wellFormed.contains_of_mem_resolve path
      hrooted.wellFormed.contains_root hid
    exact ⟨fun hblank => answers_address rfl hrooted hfit hc hblank,
      fun hblank => refuses_address rfl hrooted hfit hc hblank⟩

/-- The addresses of two siblings that are labelled alike are given back. -/
theorem addresses_given_back_siblings :
    let files : Path := ⟨"/files", true, [.select (.child (.exact "files")) []]⟩
    let e := (create "/" none .none).after [.insert (.compiled files) "files" false]
    ∃ texts e', e.answer (.addresses (.compiled files)) = (.ok (.paths texts), e') ∧
      texts = ["/files[1]", "/files[2]"] ∧
      (e'.answer (.addresses (.text "/files[2]"))).1 = .ok (.paths ["/files[2]"]) := by
  intro files e
  have hpaths : ∀ operation ∈ [Operation.insert (.compiled files) "files" false],
      ∀ path, .compiled path ∈ operation.args → path.Compiled := by
    intro operation ho path hp
    cases List.mem_singleton.mp ho
    cases List.mem_singleton.mp hp
    have hc : Path.compile "/files" = .ok files := by with_unfolding_all rfl
    exact .compile hc
  obtain ⟨s, hs, hsize, texts, e', h, htexts⟩ : ∃ s, e.session = some s ∧ s.store.slots.size = 9 ∧
      ∃ texts e', e.answer (.addresses (.compiled files)) = (.ok (.paths texts), e') ∧
        texts = ["/files[1]", "/files[2]"] := ⟨_, rfl, rfl, _, _, rfl, rfl⟩
  have hrooted := rooted_after_create "/" none .none _ hpaths hs
  have hfit : s.store.PositionsFit := hrooted.wellFormed.positionsFit (by rw [hsize]; decide)
  obtain ⟨-, ids, hids, hback⟩ := addresses_given_back "/" none .none _ hpaths hs hfit h
  obtain ⟨id, hid, haddress⟩ : ∃ id ∈ ids, s.store.address id = "/files[2]" := by
    have hmem : "/files[2]" ∈ ids.map s.store.address := by rw [← hids, htexts]; simp
    obtain ⟨id, hid, h⟩ := List.mem_map.mp hmem
    exact ⟨id, hid, h⟩
  have hopen := (hback id hid).1
  rw [haddress] at hopen
  exact ⟨texts, e', h, htexts, (hopen (by decide)).2.1⟩

/-- The address of a node labelled `a` and a blank is refused when it is given back. -/
theorem addresses_given_back_blank :
    let files : Path := ⟨"/files", true, [.select (.child (.exact "files")) []]⟩
    let e := (create "/" none .none).after [.insert (.compiled files) "a " false]
    ∃ texts e', e.answer (.addresses (.compiled ⟨"/*", true, [.select (.child .any) []]⟩)) =
        (.ok (.paths texts), e') ∧ "/a\\ " ∈ texts ∧
      (e'.answer (.addresses (.text "/a\\ "))).1 =
        .error (.invalidPath "/a\\" ⟨.danglingEscape, 2⟩) ∧
      (e'.answer (.get (.text "/a\\ "))).1 = .error (.invalidPath "/a\\" ⟨.danglingEscape, 2⟩) ∧
      (e'.answer (.entries (.text "/a\\ "))).1 =
        .error (.invalidPath "/a\\" ⟨.danglingEscape, 2⟩) := by
  intro files e
  refine ⟨_, _, rfl, by decide, ?_, ?_, ?_⟩
  · with_unfolding_all rfl
  · with_unfolding_all rfl
  · with_unfolding_all rfl

end Engine

end LabelTree
