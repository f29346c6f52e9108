import LabelTree.Proofs.Resolve.Locate

/-!
# Resolve — locating against resolving

Locating follows the same steps as resolving and stops where resolving comes to nothing, with the
last set of nodes it had. So it finds a node exactly when resolving gives that node alone, and what
it answers otherwise is said by the nodes that the longest initial part of the path leads to
(`Store.locate_refines_resolve`).
-/

namespace LabelTree

namespace Store

/-- That the first `i` steps of a path lead to `nodes`, of which there is one at least, and no
longer initial part of the path leads to any. -/
structure LeadsAtMostTo (s : Store) (path : Path) (context : NodeId) (i : Nat)
    (nodes : List NodeId) :
    Prop where
  le_length : i ≤ path.steps.length
  resolve_take : s.resolve { path with steps := path.steps.take i } context = nodes
  ne_nil : nodes ≠ []
  resolve_longer : ∀ j, i < j → j ≤ path.steps.length →
    s.resolve { path with steps := path.steps.take j } context = []

variable {s : Store} {id anchor context : NodeId} {path : Path} {i j k : Nat}
  {nodes : List NodeId} {steps done missing : List Step} {step : Step} {fault : StepFault}

/-! ## The first step that cannot be made -/

theorem firstFault?_eq_some (h : s.firstFault? anchor i missing = some (j, fault)) :
    ∃ made step rest, missing = made ++ step :: rest ∧ j = i + made.length ∧ s.CanMake anchor made ∧
      step.creationFault? (s.siblingsMet anchor made.length) = some fault := by
  rw [firstFault?, List.findSome?_eq_some_iff] at h
  obtain ⟨before, next, after, hsplit, hfault, hbefore⟩ := h
  obtain ⟨made, below, rfl, rfl, hbelow⟩ := List.zipIdx_eq_append_iff.mp hsplit
  obtain ⟨step, rest, rfl, heq, -⟩ := List.zipIdx_eq_cons_iff.mp hbelow.symm
  cases heq
  obtain ⟨fault, hfault, heq⟩ := Option.map_eq_some_iff.mp hfault
  cases heq
  rw [siblingsMet_eq] at hfault
  exact ⟨made, step, rest, rfl, rfl,
    firstFault?_eq_none_iff.mp (List.findSome?_eq_none_iff.mpr hbefore), hfault⟩

/-! ## Following the same steps -/

theorem advance_nil (step : Step) : s.advance [] step = [] := by
  unfold advance
  dsimp only
  split <;> rfl

theorem foldl_advance_nil (steps : List Step) : steps.foldl s.advance [] = [] := by
  induction steps with
  | nil => rfl
  | cons step steps ih => rw [List.foldl_cons, advance_nil, ih]

theorem locateFrom_cons (missing : List Step) (h : s.advance nodes step ≠ []) :
    s.locateFrom nodes i (step :: missing) =
      s.locateFrom (s.advance nodes step) (i + 1) missing := by
  cases hnext : s.advance nodes step with
  | nil => contradiction
  | cons a rest => simp only [locateFrom, hnext]

theorem locateFrom_append (missing : List Step) (h : done.foldl s.advance nodes ≠ []) :
    s.locateFrom nodes i (done ++ missing) =
      s.locateFrom (done.foldl s.advance nodes) (i + done.length) missing := by
  induction done generalizing nodes i with
  | nil => rfl
  | cons step done ih =>
    rw [List.foldl_cons] at h ⊢
    -- the nodes in between are no empty set, or nothing would be left in the end
    have hnext : s.advance nodes step ≠ [] := by
      intro hnone
      rw [hnone, foldl_advance_nil] at h
      exact h rfl
    rw [List.cons_append, locateFrom_cons _ hnext, ih h, List.length_cons, Nat.add_assoc,
      Nat.add_comm 1]

theorem locateFrom_nil (h : nodes.length ≠ 1) :
    s.locateFrom nodes i [] = .error (.multipleMatches nodes.length) := by
  match nodes with
  | [] => rfl
  | [_] => exact absurd rfl h
  | _ :: _ :: _ => rfl

theorem locateFrom_stuck (h : s.advance nodes step = []) (hlength : nodes.length ≠ 1) :
    s.locateFrom nodes i (step :: missing) = .error (.multipleMatches nodes.length) := by
  match nodes with
  | [] => simp only [locateFrom, h]
  | [_] => exact absurd rfl hlength
  | _ :: _ :: _ => simp only [locateFrom, h]

theorem locateFrom_missing (h : s.advance [anchor] step = [])
    (hfault : s.firstFault? anchor i (step :: missing) = none) :
    s.locateFrom [anchor] i (step :: missing) = .ok (.missing anchor i) := by
  simp only [locateFrom, h, hfault]

theorem locateFrom_fault (h : s.advance [anchor] step = [])
    (hfault : s.firstFault? anchor i (step :: missing) = some (j, fault)) :
    s.locateFrom [anchor] i (step :: missing) = .error (.cannotCreate j fault) := by
  simp only [locateFrom, h, hfault]

/-- Where nodes come to nothing, there is a last set of them and a step that leads nowhere from
it. -/
theorem exists_last_nodes (hnodes : nodes ≠ []) (h : steps.foldl s.advance nodes = []) :
    ∃ done step rest, steps = done ++ step :: rest ∧ done.foldl s.advance nodes ≠ [] ∧
      s.advance (done.foldl s.advance nodes) step = [] := by
  induction steps generalizing nodes with
  | nil => exact absurd h hnodes
  | cons step steps ih =>
    by_cases hnext : s.advance nodes step = []
    · exact ⟨[], step, steps, rfl, hnodes, hnext⟩
    · obtain ⟨done, next, rest, rfl, hdone, hnone⟩ := ih hnext h
      exact ⟨step :: done, next, rest, rfl, hdone, hnone⟩

/-! ## The answer by the nodes led to -/

theorem locate_of_resolve_ne_nil (h : s.resolve path context ≠ []) :
    s.locate path context = s.locateFrom (s.resolve path context) path.steps.length [] := by
  rw [locate, ← List.append_nil path.steps, locateFrom_append [] h, List.append_nil, Nat.zero_add]
  rfl

theorem locate_eq_found_iff :
    s.locate path context = .ok (.found id) ↔ s.resolve path context = [id] := by
  refine ⟨resolve_of_locate_found, fun h => ?_⟩
  rw [locate_of_resolve_ne_nil (by simp [h]), h]
  rfl

theorem locate_of_many (h : 2 ≤ (s.resolve path context).length) :
    s.locate path context = .error (.multipleMatches (s.resolve path context).length) := by
  have hne : s.resolve path context ≠ [] := List.ne_nil_of_length_pos (by omega)
  rw [locate_of_resolve_ne_nil hne, locateFrom_nil (by omega)]

/-- Where a path leads to nothing, locating stops after the longest initial part that leads to
nodes. -/
theorem exists_leadsAtMostTo (h : s.resolve path context = []) :
    ∃ i nodes step rest, s.LeadsAtMostTo path context i nodes ∧ i < path.steps.length ∧
      path.steps.drop i = step :: rest ∧ s.advance nodes step = [] ∧
      s.locate path context = s.locateFrom nodes i (step :: rest) := by
  obtain ⟨done, step, rest, hsteps, hdone, hnone⟩ := exists_last_nodes (List.cons_ne_nil _ _) h
  have hlength : done.length < path.steps.length := by simp [hsteps]
  refine ⟨done.length, done.foldl s.advance [start path context], step, rest, ?_, hlength, ?_,
    hnone, ?_⟩
  · refine ⟨Nat.le_of_lt hlength, ?_, hdone, fun j hlt _ => ?_⟩
    · rw [hsteps, List.take_left]
      rfl
    · obtain ⟨n, rfl⟩ := Nat.exists_eq_add_of_lt hlt
      rw [hsteps, Nat.add_assoc, List.take_length_add_append, List.take_succ_cons, resolve,
        List.foldl_append, List.foldl_cons]
      show (rest.take n).foldl s.advance
        (s.advance (done.foldl s.advance [start path context]) step) = []
      rw [hnone, foldl_advance_nil]
  · rw [hsteps, List.drop_left]
  · rw [locate, hsteps, locateFrom_append _ hdone, Nat.zero_add]

/-- The set of nodes that locating stops with is never empty. -/
theorem two_le_of_locate (h : s.locate path context = .error (.multipleMatches k)) : 2 ≤ k := by
  by_cases hnil : s.resolve path context = []
  · obtain ⟨i, nodes, step, rest, hleads, -, -, hnone, hlocate⟩ := exists_leadsAtMostTo hnil
    rw [hlocate] at h
    by_cases hone : nodes.length = 1
    · obtain ⟨anchor, rfl⟩ := List.length_eq_one_iff.mp hone
      cases hfault : s.firstFault? anchor i (step :: rest) with
      | none => cases (locateFrom_missing hnone hfault).symm.trans h
      | some found => cases (locateFrom_fault hnone hfault).symm.trans h
    · cases (locateFrom_stuck hnone hone).symm.trans h
      have hpos := List.length_pos_iff.mpr hleads.ne_nil
      omega
  · have hpos := List.length_pos_iff.mpr hnil
    by_cases hone : (s.resolve path context).length = 1
    · obtain ⟨id, hid⟩ := List.length_eq_one_iff.mp hone
      cases (locate_eq_found_iff.mpr hid).symm.trans h
    · cases (locate_of_many (by omega)).symm.trans h
      omega

/-- What locating answers, by what resolving gives. The set of nodes that it stops with is not
empty, so no answer counts fewer than two of them. -/
theorem locate_refines_resolve (s : Store) (path : Path) (context : NodeId) :
    (∀ id, s.locate path context = .ok (.found id) ↔ s.resolve path context = [id]) ∧
      (2 ≤ (s.resolve path context).length →
        s.locate path context = .error (.multipleMatches (s.resolve path context).length)) ∧
      (s.resolve path context = [] →
        ∃ i nodes, s.LeadsAtMostTo path context i nodes ∧ i < path.steps.length ∧
          (1 < nodes.length → s.locate path context = .error (.multipleMatches nodes.length)) ∧
          ∀ anchor, nodes = [anchor] →
            (s.locate path context = .ok (.missing anchor i) ↔
              s.CanMake anchor (path.steps.drop i)) ∧
            (¬ s.CanMake anchor (path.steps.drop i) →
              ∃ made step rest fault, path.steps.drop i = made ++ step :: rest ∧
                s.CanMake anchor made ∧ ¬ step.Creatable (s.siblingsMet anchor made.length) ∧
                step.creationFault? (s.siblingsMet anchor made.length) = some fault ∧
                s.locate path context = .error (.cannotCreate (i + made.length) fault))) ∧
      ∀ k, s.locate path context = .error (.multipleMatches k) → 2 ≤ k := by
  refine ⟨fun id => locate_eq_found_iff, locate_of_many, fun h => ?_, fun k => two_le_of_locate⟩
  obtain ⟨i, nodes, step, rest, hleads, hlength, hdrop, hnone, hlocate⟩ := exists_leadsAtMostTo h
  refine ⟨i, nodes, hleads, hlength, fun hmany => ?_, ?_⟩
  · rw [hlocate, locateFrom_stuck hnone (by omega)]
  · rintro anchor rfl
    rw [hlocate, hdrop, ← firstFault?_eq_none_iff (i := i)]
    cases hfault : s.firstFault? anchor i (step :: rest) with
    | none =>
      rw [locateFrom_missing hnone hfault]
      simp
    | some found =>
      obtain ⟨j, fault⟩ := found
      rw [locateFrom_fault hnone hfault]
      obtain ⟨made, next, below, hsplit, rfl, hmade, hnext⟩ := firstFault?_eq_some hfault
      have hnot : ¬ next.Creatable (s.siblingsMet anchor made.length) := by
        rw [Step.creatable_iff, hnext]
        simp
      exact ⟨by simp, fun _ => ⟨made, next, below, fault, hsplit, hmade, hnot, hnext, rfl⟩⟩

/-- A second sibling can be made, with a child of its own. -/
theorem locate_refines_resolve_second :
    let s := new.applyAll [.appendChild root "a"]
    let path : Path :=
      ⟨"/a[2]/b", true,
        [.select (.child (.exact "a")) [.position 2], .select (.child (.exact "b")) []]⟩
    s.resolve path root = [] ∧ s.CanMake root path.steps ∧
      s.locate path root = .ok (.missing root 0) := by
  intro s path
  have hnone : s.resolve path root = [] := by decide
  have hfault : s.firstFault? root 0 path.steps = none := by decide
  have hmake := firstFault?_eq_none_iff.mp hfault
  obtain ⟨-, -, hstop, -⟩ := locate_refines_resolve s path root
  obtain ⟨i, nodes, hleads, hlt, -, hone⟩ := hstop hnone
  match i, hlt with
  | 0, _ =>
    have hroot : nodes = [root] := hleads.resolve_take.symm
    exact ⟨hnone, hmake, (hone root hroot).1.mpr hmake⟩
  | 1, _ =>
    -- the second sibling is not there yet
    have htake : nodes = [] := hleads.resolve_take.symm
    exact absurd htake hleads.ne_nil

end Store

end LabelTree
