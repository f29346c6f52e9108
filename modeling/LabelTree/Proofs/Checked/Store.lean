import LabelTree.Checked.Store
import LabelTree.Proofs.Store.Runs

/-!
# Partial steps — changing a store

Indices into child lists are cut down to the length of the list or were found in it, so they are in
range on any store. A store whose free list is exact (`FreeExact`) has a slot for each index of that
list, and no more such indices than slots; every change keeps the list exact.
-/

namespace LabelTree

theorem Store.FreeExact.kept : Store.Kept Store.FreeExact :=
  FreeExact.slotKept.kept

namespace Checked

variable {s : Store}

theorem size_eq (hs : s.FreeExact) : size s = some s.size := by
  have hlen := hs.perm_range.length_eq
  rw [List.length_append, List.length_range] at hlen
  exact sub_of_le (by omega)

/-! ## One change -/

theorem alloc_eq (hs : s.FreeExact) (node : Node) : alloc s node = some (s.alloc node) := by
  obtain ⟨i, g, rest, hfree, hslot, ha⟩ | ⟨hfree, -⟩ := hs.alloc_cases node
  · simp [alloc, hfree, hslot, ha]
  · simp [alloc, hfree]

example : alloc ⟨#[], [0]⟩ ⟨none, none, none, []⟩ = none := rfl

theorem modifyNode_children (s : Store) (id : NodeId) (f : List NodeId → List NodeId) :
    (s.modifyNode id fun n => { n with children := f (s.children id) }) =
      s.modifyNode id fun n => { n with children := f n.children } :=
  Store.modifyNode_congr fun n hn => by simp [Store.children, hn]

theorem linkChild_eq (s : Store) (parent : NodeId) (index : Nat) (id : NodeId) :
    linkChild s parent index id = some (s.linkChild parent index id) := by
  rw [linkChild, insertAt_of_le (Nat.min_le_right _ _)]
  exact congrArg some (modifyNode_children s parent fun children =>
    children.insertIdx (min index children.length) id)

theorem insertChild_eq (hs : s.FreeExact) (parent : NodeId) (index : Nat) (label : String) :
    insertChild s parent index label = some (s.insertChild parent index label) := by
  simp only [insertChild, alloc_eq hs, linkChild_eq, Store.insertChild]
  split <;> rfl

theorem appendChild_eq (hs : s.FreeExact) (parent : NodeId) (label : String) :
    appendChild s parent label = some (s.appendChild parent label) :=
  insertChild_eq hs _ _ _

theorem appendAfterLabel_eq (hs : s.FreeExact) (parent : NodeId) (label : String) :
    appendAfterLabel s parent label = some (s.appendAfterLabel parent label) :=
  insertChild_eq hs _ _ _

theorem detach_eq (s : Store) (id : NodeId) : detach s id = some (s.detach id) := by
  rw [detach, Store.detach]
  cases hp : s.parent id with
  | none => rfl
  | some parent =>
    cases hi : s.indexInParent id with
    | none => rfl
    | some index =>
      obtain ⟨p, hp', hget⟩ := Store.indexInParent_eq_some hi
      cases hp.symm.trans hp'
      obtain ⟨hlt, -⟩ := List.getElem?_eq_some_iff.mp hget
      have hmodify := modifyNode_children s parent (List.eraseIdx · index)
      simp [removeAt_of_lt hlt, hmodify]

theorem attach_eq (s : Store) (id parent : NodeId) (index : Nat) :
    attach s id parent index = some (s.attach id parent index) := by
  rw [attach, Store.attach, linkChild_eq]
  split <;> rfl

theorem remove_eq (s : Store) (id : NodeId) : remove s id = some (s.remove id) := by
  rw [remove, Store.remove, detach_eq]
  split <;> rfl

/-! ## Grafts -/

theorem appendTops_eq : ∀ (children : List Snapshot) {s : Store} (parent : NodeId), s.FreeExact →
    appendTops s parent children = some (s.appendTops parent children)
  | [], s, parent, hs => rfl
  | child :: rest, s, parent, hs => by
    rw [appendTops, Store.appendTops, appendChild_eq hs]
    cases ha : s.appendChild parent child.label with
    | none => simp [appendTops_eq rest parent hs]
    | some made =>
      obtain ⟨id, t⟩ := made
      have ht : ((t.setValue id child.value).getD t).FreeExact :=
        Store.FreeExact.kept.appendKeeps hs trivial ha
      simp [appendTops_eq rest parent ht]

mutual

theorem graft_eq : ∀ (source : Snapshot) {s : Store} (parent : NodeId), s.FreeExact →
    graft s parent source = some (s.graft parent source)
  | ⟨_, _, children⟩, s, parent, hs => by
    have htops : (s.appendTops parent children).2.FreeExact :=
      Store.appendTops_keeps Store.FreeExact.kept.appendKeeps hs fun _ _ => trivial
    rw [graft, Store.graft, appendTops_eq children parent hs]
    exact graftBelow_eq children _ htops

theorem graftBelow_eq : ∀ (children : List Snapshot) {s : Store} (ids : List (Option NodeId)),
    s.FreeExact → graftBelow s ids children = some (s.graftBelow ids children)
  | child :: rest, s, some id :: ids, hs => by
    have hlater : (s.graftBelow ids rest).2.FreeExact :=
      Store.graftBelow_keeps Store.FreeExact.kept.appendKeeps hs fun _ _ => trivial
    rw [graftBelow, Store.graftBelow, graftBelow_eq rest ids hs]
    simp [graft_eq child id hlater]
  | _ :: rest, s, none :: ids, hs => by
    rw [graftBelow, Store.graftBelow]
    exact graftBelow_eq rest ids hs
  | [], _, [], _ => rfl
  | [], _, some _ :: _, _ => rfl
  | [], _, none :: _, _ => rfl
  | _ :: _, _, [], _ => rfl

end

/-! ## Changes -/

theorem apply_eq (hs : s.FreeExact) (change : Change) : apply s change = some (s.apply change) := by
  cases change with
  | insertChild parent index label => simp [apply, insertChild_eq hs, Store.apply]
  | appendChild parent label => simp [apply, appendChild_eq hs, Store.apply]
  | appendAfterLabel parent label => simp [apply, appendAfterLabel_eq hs, Store.apply]
  | setValue id value => rfl
  | setLabel id label => rfl
  | detach id => simp [apply, detach_eq, Store.apply]
  | attach id parent index => simp [apply, attach_eq, Store.apply]
  | remove id => simp [apply, remove_eq, Store.apply]
  | graft parent source => simp [apply, graft_eq source parent hs, Store.apply]

end Checked

end LabelTree
