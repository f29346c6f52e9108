import LabelTree.Locate
import LabelTree.Proofs.Resolve.Meaning

/-!
# Resolve — where a path points

A path points to the node that it leads to alone, or to a place below the one node that its first
steps lead to, where the next step leads nowhere. Steps that are missing there are steps that can be
made.
-/

namespace LabelTree

/-! ## Steps that can be made -/

/-- The steps that a node can be made for, where `existing` counts the siblings it would have with a
label. -/
inductive Step.Creatable (existing : String → Nat) : Step → Prop
  | append (label : String) (offset : Nat) : Creatable existing (.append label offset)
  | plain (label : String) : Creatable existing (.select (.child (.exact label)) [])
  | position (label : String) :
    Creatable existing (.select (.child (.exact label)) [.position (existing label + 1)])

theorem Step.creatable_iff {existing : String → Nat} {step : Step} :
    step.Creatable existing ↔ step.creationFault? existing = none := by
  constructor
  · rintro (_ | _ | label)
    · rfl
    · rfl
    · exact if_pos rfl
  · intro h
    unfold creationFault? at h
    split at h
    · exact .append ..
    · split at h
      · exact .plain _
      · split at h
        · rename_i hn
          subst hn
          exact .position _
        · cases h
      · cases h
    · cases h
    · cases h

/-- Missing steps have labels, one each. -/
theorem Step.exists_labels {steps : List Step} (h : ∀ step ∈ steps, ∃ l, step.newLabel? = some l) :
    ∃ labels : List String, steps.map Step.newLabel? = labels.map some := by
  induction steps with
  | nil => exact ⟨[], rfl⟩
  | cons step rest ih =>
    obtain ⟨l, hl⟩ := h step List.mem_cons_self
    obtain ⟨labels, hlabels⟩ := ih fun step hstep => h step (List.mem_cons_of_mem _ hstep)
    exact ⟨l :: labels, by rw [List.map_cons, List.map_cons, hl, hlabels]⟩

theorem Step.labels_ne_nil {steps : List Step} {labels : List String} (hne : steps ≠ [])
    (h : steps.map Step.newLabel? = labels.map some) : labels ≠ [] := by
  rintro rfl
  exact hne (by simpa using h)

theorem Step.Creatable.exists_newLabel {existing : String → Nat} {step : Step}
    (h : step.Creatable existing) : ∃ l, step.newLabel? = some l := by
  cases h with
  | append label offset => exact ⟨label, rfl⟩
  | plain label => exact ⟨label, rfl⟩
  | position label => exact ⟨label, rfl⟩

namespace Store

/-- Number of nodes labelled `label` that the `k`th of some missing steps meets, when the first is
missing below `anchor`: only that one can meet any. -/
def siblingsMet (s : Store) (anchor : NodeId) : Nat → String → Nat
  | 0 => s.countLabelled anchor
  | _ + 1 => fun _ => 0

/-- That missing steps can be made one below the other, the first of them below `anchor`. -/
def CanMake (s : Store) (anchor : NodeId) (missing : List Step) : Prop :=
  ∀ (k : Nat) (step : Step), missing[k]? = some step → step.Creatable (s.siblingsMet anchor k)

variable {s : Store} {id anchor context : NodeId} {path : Path} {i j : Nat}
  {missing : List Step}

theorem siblingsMet_eq (n : Nat) :
    (fun label => if i + n = i then s.countLabelled anchor label else 0) =
      s.siblingsMet anchor n := by
  cases n <;> simp [siblingsMet]

theorem firstFault?_eq_none_iff :
    s.firstFault? anchor i missing = none ↔ s.CanMake anchor missing := by
  rw [firstFault?, List.findSome?_eq_none_iff]
  constructor
  · intro h n step hget
    have hmem : (step, i + n) ∈ missing.zipIdx i := by
      rw [List.mk_mem_zipIdx_iff_le_and_getElem?_sub, Nat.add_sub_cancel_left]
      exact ⟨Nat.le_add_right i n, hget⟩
    have hfault := h _ hmem
    rw [Option.map_eq_none_iff, siblingsMet_eq] at hfault
    exact Step.creatable_iff.mpr hfault
  · rintro h ⟨step, j⟩ hmem
    obtain ⟨hle, hget⟩ := List.mk_mem_zipIdx_iff_le_and_getElem?_sub.mp hmem
    obtain ⟨n, rfl⟩ := Nat.exists_eq_add_of_le hle
    rw [Nat.add_sub_cancel_left] at hget
    rw [Option.map_eq_none_iff, siblingsMet_eq]
    exact Step.creatable_iff.mp (h n step hget)

/-- Steps without fault have labels to be made with. -/
theorem newLabel?_of_firstFault? (h : s.firstFault? anchor i missing = none) :
    ∀ step ∈ missing, ∃ l, step.newLabel? = some l := by
  intro step hstep
  obtain ⟨k, hk⟩ := List.mem_iff_getElem?.mp hstep
  exact (firstFault?_eq_none_iff.mp h k step hk).exists_newLabel

/-! ## Following the steps -/

theorem locateFrom_eq_found {nodes : List NodeId} {steps : List Step}
    (h : s.locateFrom nodes i steps = .ok (.found id)) : steps.foldl s.advance nodes = [id] := by
  induction steps generalizing nodes i with
  | nil =>
    unfold locateFrom at h
    split at h
    · cases h
      rfl
    · cases h
  | cons step steps ih =>
    unfold locateFrom at h
    split at h
    · split at h
      · split at h <;> cases h
      · cases h
    · exact ih h

theorem locateFrom_eq_missing {nodes : List NodeId} {steps : List Step}
    (h : s.locateFrom nodes i steps = .ok (.missing anchor j)) :
    ∃ done step rest, steps = done ++ step :: rest ∧ j = i + done.length ∧
      done.foldl s.advance nodes = [anchor] ∧ s.advance [anchor] step = [] ∧
      s.firstFault? anchor j (step :: rest) = none := by
  induction steps generalizing nodes i with
  | nil =>
    unfold locateFrom at h
    split at h <;> cases h
  | cons step steps ih =>
    unfold locateFrom at h
    split at h
    · rename_i hnone
      split at h
      · split at h
        · rename_i hfault
          cases h
          exact ⟨[], step, steps, rfl, rfl, rfl, hnone, hfault⟩
        · cases h
      · cases h
    · obtain ⟨done, next, rest, rfl, rfl, hdone, hnone, hfault⟩ := ih h
      refine ⟨step :: done, next, rest, rfl, ?_, hdone, hnone, hfault⟩
      rw [List.length_cons]
      omega

/-! ## Where a path points -/

theorem resolve_of_locate_found (h : s.locate path context = .ok (.found id)) :
    s.resolve path context = [id] :=
  locateFrom_eq_found h

namespace WellFormed

theorem contains_of_mem_resolve (hs : s.WellFormed) (path : Path)
    (hc : s.contains context = true) (h : id ∈ s.resolve path context) : s.contains id = true := by
  obtain ⟨k, hk⟩ := hs.resolve_sublist_level path hc
  exact hs.contains_of_mem_level (hs.contains_top (hs.contains_start path hc)) id (hk.subset h)

theorem contains_of_locate_found (hs : s.WellFormed) (hc : s.contains context = true)
    (h : s.locate path context = .ok (.found id)) : s.contains id = true := by
  refine hs.contains_of_mem_resolve path hc ?_
  rw [resolve_of_locate_found h]
  exact List.mem_singleton_self id

/-- Missing steps are missing below a node, there is at least one, and each names a label. -/
theorem of_locate_missing (hs : s.WellFormed) (hc : s.contains context = true)
    (h : s.locate path context = .ok (.missing anchor i)) :
    s.contains anchor = true ∧ path.steps.drop i ≠ [] ∧
      ∀ step ∈ path.steps.drop i, ∃ l, step.newLabel? = some l := by
  obtain ⟨done, step, rest, hsteps, hi, hdone, -, hfault⟩ := locateFrom_eq_missing h
  have hdrop : path.steps.drop i = step :: rest := by
    rw [hsteps, hi, Nat.zero_add, List.drop_left]
  refine ⟨?_, by simp [hdrop], hdrop ▸ newLabel?_of_firstFault? hfault⟩
  -- the anchor is what a shorter path leads to
  refine hs.contains_of_mem_resolve { path with steps := done } hc ?_
  show anchor ∈ done.foldl s.advance [start path context]
  rw [hdone]
  exact List.mem_singleton_self anchor

end WellFormed

end Store

end LabelTree
