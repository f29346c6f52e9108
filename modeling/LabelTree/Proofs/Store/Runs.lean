import LabelTree.Proofs.Snapshot.Graft
import LabelTree.Proofs.Store.Preservation
import LabelTree.Proofs.Store.Size
import LabelTree.Store.Change

/-!
# Store — what a run of changes leaves

One step: what each operation keeps (`Kept`) a change keeps, whichever ids and indices it is given.
A run is the fold of such steps. Operations keep a store well-formed, so every reachable store is
well-formed (`Reachable.wellFormed`), and what that says of links, labels and free slots holds after
any run (`consistent_applyAll_new`).
-/

namespace LabelTree.Store

variable {s s' : Store} {id p : NodeId} {i : Nat} {l : String}

/-- What holds of a store and of the outcome of a change holds after the change, refused or not. -/
theorem getD_keeps {P : Store → Prop} {outcome : Option Store} (hs : P s)
    (h : ∀ t, outcome = some t → P t) : P (outcome.getD s) := by
  cases ho : outcome with
  | none => exact hs
  | some t => exact h t ho

theorem getD_map_keeps {α : Type} {P : Store → Prop} {outcome : Option (α × Store)} (hs : P s)
    (h : ∀ a t, outcome = some (a, t) → P t) : P ((outcome.map Prod.snd).getD s) := by
  refine getD_keeps hs fun t ht => ?_
  obtain ⟨⟨a, u⟩, hu, rfl⟩ := Option.map_eq_some_iff.mp ht
  exact h a u hu

/-! ## One change -/

/-- What each operation keeps, with whatever ids. -/
structure Kept (P : Store → Prop) : Prop where
  setValue : ∀ {s s' : Store} {id v}, P s → s.setValue id v = some s' → P s'
  setLabel : ∀ {s s' : Store} {id l}, P s → s.setLabel id l = some s' → P s'
  insertChild : ∀ {s s' : Store} {p i l id}, P s → s.insertChild p i l = some (id, s') → P s'
  detach : ∀ {s s' : Store} {id pi}, P s → s.detach id = some (pi, s') → P s'
  attach : ∀ {s s' : Store} {id p i}, P s → s.attach id p i = some s' → P s'
  remove : ∀ {s : Store} (id : NodeId), P s → P (s.remove id).2

namespace Kept

variable {P : Store → Prop}

theorem appendKeeps (hP : Kept P) : AppendKeeps P fun _ => True := by
  intro s p l v id s' hs _ h
  have hs' : P s' := hP.insertChild hs h
  exact getD_keeps hs' fun _ => hP.setValue hs'

theorem apply (hP : Kept P) (hs : P s) (change : Change) : P (s.apply change) := by
  cases change with
  | insertChild parent index label => exact getD_map_keeps hs fun _ _ => hP.insertChild hs
  | appendChild parent label => exact getD_map_keeps hs fun _ _ => hP.insertChild hs
  | appendAfterLabel parent label => exact getD_map_keeps hs fun _ _ => hP.insertChild hs
  | setValue id value => exact getD_keeps hs fun _ => hP.setValue hs
  | setLabel id label => exact getD_keeps hs fun _ => hP.setLabel hs
  | detach id => exact getD_map_keeps hs fun _ _ => hP.detach hs
  | attach id parent index => exact getD_keeps hs fun _ => hP.attach hs
  | remove id => exact hP.remove id hs
  | graft parent source => exact graft_keeps hP.appendKeeps hs fun _ _ => trivial

theorem applyAll (hP : Kept P) (hs : P s) (changes : List Change) : P (s.applyAll changes) := by
  induction changes generalizing s with
  | nil => exact hs
  | cons change changes ih => exact ih (hP.apply hs change)

end Kept

/-- What changes of slots keep every operation keeps. -/
theorem SlotKept.kept {P : Store → Prop} (hP : SlotKept P) : Kept P where
  setValue := hP.setValue
  setLabel := hP.setLabel
  insertChild := hP.insertChild
  detach := hP.detach
  attach := hP.attach
  remove id hs := hP.remove hs id

/-! ## Well-formed stores -/

namespace WellFormed

theorem insertChild (hs : s.WellFormed) (h : s.insertChild p i l = some (id, s')) :
    s'.WellFormed :=
  hs.inserts (hs.freeExact.inserts h) (FreeExact.slotKept.insertChild hs.freeExact h)

theorem detach {pi : NodeId × Nat} (hs : s.WellFormed) (h : s.detach id = some (pi, s')) :
    s'.WellFormed :=
  hs.detaches (Store.detaches h) (FreeExact.slotKept.detach hs.freeExact h)

theorem attach (hs : s.WellFormed) (h : s.attach id p i = some s') : s'.WellFormed :=
  hs.attaches (Store.attaches h) (FreeExact.slotKept.attach hs.freeExact h)

theorem remove (hs : s.WellFormed) (id : NodeId) : (s.remove id).2.WellFormed := by
  by_cases hid : id = root ∨ ¬ s.contains id = true
  · rw [Store.remove, if_pos hid]
    exact hs
  · rw [not_or, Decidable.not_not] at hid
    exact (hs.removes hid.1 hid.2).2

theorem kept : Kept WellFormed where
  setValue hs h := hs.setValue h
  setLabel hs h := hs.setLabel h
  insertChild hs h := hs.insertChild h
  detach hs h := hs.detach h
  attach hs h := hs.attach h
  remove id hs := hs.remove id

end WellFormed

theorem Reachable.wellFormed (h : s.Reachable) : s.WellFormed := by
  obtain ⟨changes, rfl⟩ := h
  exact WellFormed.kept.applyAll wellFormed_new changes

/-- What a store shows after any run of changes, with whatever ids and indices: child lists hold
nodes, none twice, and agree with the parent links; climbing ends; the root is a node without parent
and label, and every other node has a label; the free list names each empty slot once, so that the
size is the number of nodes. -/
theorem consistent_applyAll_new (changes : List Change) :
    let s := new.applyAll changes
    (∀ p c, c ∈ s.children p → s.contains p = true ∧ s.contains c = true) ∧
      (∀ p, (s.children p).Nodup) ∧
      (∀ p c, c ∈ s.children p ↔ s.parent c = some p) ∧
      (∀ id, ∃ n, s.climb n id = none) ∧
      (s.contains root = true ∧ s.parent root = none ∧ s.label root = none) ∧
      (∀ id, id ≠ root → s.contains id = true → (s.label id).isSome = true) ∧
      (s.free.Nodup ∧ ∀ i, i ∈ s.free ↔ ∃ generation, s.slots[i]? = some ⟨generation, none⟩) ∧
      (s.nodes.Nodup ∧ (∀ id, id ∈ s.nodes ↔ s.contains id = true) ∧ s.size = s.nodes.length) := by
  intro s
  have hs : s.WellFormed := WellFormed.kept.applyAll wellFormed_new changes
  refine ⟨fun p c hc => ?_, hs.nodup_children, hs.mem_children, hs.exists_climb_eq_none,
    ⟨hs.contains_root, hs.parent_root, hs.label_root⟩, hs.label_isSome,
    ⟨hs.nodup_free, hs.mem_free⟩, s.nodup_nodes, fun id => mem_nodes, hs.freeExact.size_eq⟩
  have hp : s.parent c = some p := (hs.mem_children p c).mp hc
  exact ⟨hs.contains_of_parent hp, contains_of_parent hp⟩

end LabelTree.Store
