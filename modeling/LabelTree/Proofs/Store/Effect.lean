import LabelTree.Proofs.Store.Slots

/-!
# Store — what each operation does

One statement per operation: everything it does to the views of every node. What an operation keeps
or establishes is read off these statements, and no proof after this module opens an operation.
-/

namespace LabelTree.Store

variable {s s' : Store} {id j p : NodeId} {i : Nat} {l : String}

/-! ## Changing one node -/

@[simp] theorem contains_modifyNode (s : Store) (id : NodeId) (f : Node → Node) (j : NodeId) :
    (s.modifyNode id f).contains j = s.contains j := by
  rw [contains, contains, node?_modifyNode]
  split <;> simp

theorem bind_modifyNode {α : Type} (s : Store) (id : NodeId) (f : Node → Node) (j : NodeId)
    {field : Node → Option α} (hf : ∀ n, field (f n) = field n) :
    ((s.modifyNode id f).node? j).bind field = (s.node? j).bind field := by
  rw [node?_modifyNode]
  split
  · cases s.node? j <;> simp [hf]
  · rfl

theorem label_modifyNode (s : Store) (id : NodeId) {f : Node → Node} (j : NodeId)
    (hf : ∀ n, (f n).label = n.label) : (s.modifyNode id f).label j = s.label j :=
  bind_modifyNode s id f j hf

theorem value_modifyNode (s : Store) (id : NodeId) {f : Node → Node} (j : NodeId)
    (hf : ∀ n, (f n).value = n.value) : (s.modifyNode id f).value j = s.value j :=
  bind_modifyNode s id f j hf

theorem parent_modifyNode (s : Store) (id : NodeId) {f : Node → Node} (j : NodeId)
    (hf : ∀ n, (f n).parent = n.parent) : (s.modifyNode id f).parent j = s.parent j :=
  bind_modifyNode s id f j hf

theorem children_modifyNode (s : Store) (id : NodeId) {f : Node → Node} (j : NodeId)
    {g : List NodeId → List NodeId} (hf : ∀ n, (f n).children = g n.children) (hg : g [] = []) :
    (s.modifyNode id f).children j = if j = id then g (s.children j) else s.children j := by
  rw [children, children, node?_modifyNode]
  split
  · cases s.node? j <;> simp [hf, hg]
  · rfl

theorem children_modifyNode_of_eq (s : Store) (id : NodeId) {f : Node → Node} (j : NodeId)
    (hf : ∀ n, (f n).children = n.children) : (s.modifyNode id f).children j = s.children j := by
  simpa using children_modifyNode s id j (g := fun cs => cs) hf rfl

/-- A store in which some fields of one node may differ, none of them a link. -/
structure SameShape (s s' : Store) : Prop where
  contains : ∀ j, s'.contains j = s.contains j
  parent : ∀ j, s'.parent j = s.parent j
  children : ∀ j, s'.children j = s.children j

theorem sameShape_modifyNode (s : Store) (id : NodeId) {f : Node → Node}
    (hp : ∀ n, (f n).parent = n.parent) (hc : ∀ n, (f n).children = n.children) :
    s.SameShape (s.modifyNode id f) where
  contains j := contains_modifyNode s id f j
  parent j := parent_modifyNode s id j hp
  children j := children_modifyNode_of_eq s id j hc

/-! ## Values and labels -/

/-- What giving a node a value does. -/
structure SetsValue (s : Store) (id : NodeId) (v : Option String) (s' : Store) : Prop where
  shape : s.SameShape s'
  label : ∀ j, s'.label j = s.label j
  value : ∀ j, s'.value j = if j = id then v else s.value j

theorem setsValue {v : Option String} (h : s.setValue id v = some s') : s.SetsValue id v s' := by
  rw [setValue] at h
  split at h
  · rename_i hc
    cases h
    refine ⟨sameShape_modifyNode s id (fun _ => rfl) fun _ => rfl,
      fun j => label_modifyNode s id j fun _ => rfl, fun j => ?_⟩
    obtain ⟨n, hn⟩ := contains_iff.mp hc
    rw [value, value, node?_modifyNode]
    split
    · rename_i hj
      simp [hj, hn]
    · rfl
  · cases h

/-- What giving a node a label does. -/
structure SetsLabel (s : Store) (id : NodeId) (l : String) (s' : Store) : Prop where
  shape : s.SameShape s'
  label : ∀ j, s'.label j = if j = id then some l else s.label j
  value : ∀ j, s'.value j = s.value j

theorem setsLabel (h : s.setLabel id l = some s') : id ≠ root ∧ s.SetsLabel id l s' := by
  rw [setLabel] at h
  split at h
  · rename_i hc
    cases h
    refine ⟨hc.1, sameShape_modifyNode s id (fun _ => rfl) fun _ => rfl, fun j => ?_,
      fun j => value_modifyNode s id j fun _ => rfl⟩
    obtain ⟨n, hn⟩ := contains_iff.mp hc.2
    rw [label, label, node?_modifyNode]
    split
    · rename_i hj
      simp [hj, hn]
    · rfl
  · cases h

/-! ## New children -/

/-- A list of children with one more of them at an index, at the end when the index is greater. -/
def spliced (cs : List NodeId) (i : Nat) (id : NodeId) : List NodeId :=
  cs.insertIdx (min i cs.length) id

theorem perm_spliced (cs : List NodeId) (i : Nat) (id : NodeId) :
    (spliced cs i id).Perm (id :: cs) :=
  List.perm_insertIdx id cs (Nat.min_le_right i cs.length)

theorem spliced_eq (cs : List NodeId) (i : Nat) (id : NodeId) :
    spliced cs i id = cs.take i ++ id :: cs.drop i := by
  induction cs generalizing i with
  | nil => simp [spliced]
  | cons c cs ih =>
    cases i with
    | zero => rfl
    | succ i =>
      have h := ih i
      rw [spliced] at h
      simp [spliced, Nat.add_min_add_right, h]

theorem eraseIdx_spliced (cs : List NodeId) (i : Nat) (id : NodeId) :
    (spliced cs i id).eraseIdx (min i cs.length) = cs :=
  List.eraseIdx_insertIdx_self id

/-- What making a child does. -/
structure Inserts (s : Store) (p : NodeId) (i : Nat) (l : String) (id : NodeId) (s' : Store) :
    Prop where
  contains_parent : s.contains p = true
  fresh : s.contains id = false
  contains : ∀ j, s'.contains j = true ↔ j = id ∨ s.contains j = true
  label : ∀ j, s'.label j = if j = id then some l else s.label j
  value : ∀ j, s'.value j = if j = id then none else s.value j
  parent : ∀ j, s'.parent j = if j = id then some p else s.parent j
  children : ∀ j, s'.children j =
    if j = id then [] else if j = p then spliced (s.children p) i id else s.children j

namespace Inserts

theorem ne (h : s.Inserts p i l id s') (hj : s.contains j = true) : j ≠ id :=
  ne_of_contains hj h.fresh

theorem label_of_contains (h : s.Inserts p i l id s') (hj : s.contains j = true) :
    s'.label j = s.label j := by
  rw [h.label, if_neg (h.ne hj)]

theorem children_parent (h : s.Inserts p i l id s') :
    s'.children p = spliced (s.children p) i id := by
  rw [h.children, if_neg (h.ne h.contains_parent), if_pos rfl]

end Inserts

theorem node?_linkChild (s : Store) (p : NodeId) (i : Nat) (id j : NodeId) :
    (s.linkChild p i id).node? j =
      if j = p then (s.node? j).map fun n => { n with children := spliced n.children i id }
      else s.node? j :=
  node?_modifyNode s p _ j

theorem insertChild_isSome (i : Nat) (l : String) (h : s.contains p = true) :
    ∃ id s', s.insertChild p i l = some (id, s') := by
  simp [insertChild, h]

theorem FreeExact.inserts (hs : s.FreeExact) (h : s.insertChild p i l = some (id, s')) :
    s.Inserts p i l id s' := by
  rw [Store.insertChild] at h
  split at h
  case isFalse => cases h
  case isTrue hp =>
    simp only [Option.some.injEq, Prod.mk.injEq] at h
    obtain ⟨rfl, rfl⟩ := h
    have hfresh := hs.node?_alloc_fresh ⟨some l, none, some p, []⟩
    have hnode := hs.node?_alloc ⟨some l, none, some p, []⟩
    generalize s.alloc ⟨some l, none, some p, []⟩ = a at hfresh hnode ⊢
    obtain ⟨id, t⟩ := a
    -- the parent was there before, so the node that gains a child is not the new one
    have hne : p ≠ id := by
      rintro rfl
      rw [contains, hfresh] at hp
      cases hp
    have hview : ∀ j, (t.linkChild p i id).node? j =
        if j = id then some ⟨some l, none, some p, []⟩
        else if j = p then (s.node? j).map fun n => { n with children := spliced n.children i id }
        else s.node? j := by
      intro j
      rw [node?_linkChild, hnode]
      by_cases hj : j = id
      · subst hj
        simp [Ne.symm hne]
      · simp [hj]
    refine ⟨hp, by simp [Store.contains, hfresh], fun j => ?_, fun j => ?_, fun j => ?_,
      fun j => ?_, fun j => ?_⟩
    · rw [Store.contains, Store.contains, hview]
      split
      · simp [*]
      · split <;> simp [*]
    · rw [Store.label, Store.label, hview]
      split
      · rfl
      · split <;> cases s.node? j <;> rfl
    · rw [Store.value, Store.value, hview]
      split
      · rfl
      · split <;> cases s.node? j <;> rfl
    · rw [Store.parent, Store.parent, hview]
      split
      · rfl
      · split <;> cases s.node? j <;> rfl
    · obtain ⟨n, hn⟩ := contains_iff.mp hp
      rw [Store.children, Store.children, Store.children, hview]
      split
      · rfl
      · split
        · rename_i hj
          simp [hj, hn]
        · rfl

/-! ## Unlinking and linking -/

/-- What unlinking a node from its parent does. -/
structure Detaches (s : Store) (id p : NodeId) (i : Nat) (s' : Store) : Prop where
  parent_eq : s.parent id = some p
  getElem?_eq : (s.children p)[i]? = some id
  contains : ∀ j, s'.contains j = s.contains j
  label : ∀ j, s'.label j = s.label j
  value : ∀ j, s'.value j = s.value j
  parent : ∀ j, s'.parent j = if j = id then none else s.parent j
  children : ∀ j, s'.children j = if j = p then (s.children p).eraseIdx i else s.children j

theorem indexInParent_eq_some (h : s.indexInParent id = some i) :
    ∃ p, s.parent id = some p ∧ (s.children p)[i]? = some id := by
  obtain ⟨p, hp, hi⟩ := Option.bind_eq_some_iff.mp h
  rw [List.findIdx?_eq_some_iff_getElem] at hi
  obtain ⟨hlt, heq, -⟩ := hi
  exact ⟨p, hp, by simpa [List.getElem?_eq_getElem hlt] using heq⟩

theorem detaches (h : s.detach id = some ((p, i), s')) : s.Detaches id p i s' := by
  rw [detach] at h
  split at h
  case h_2 => cases h
  case h_1 q k hp hi =>
    cases h
    obtain ⟨q', hq', hget⟩ := indexInParent_eq_some hi
    rw [hp] at hq'
    cases hq'
    refine ⟨hp, hget, fun j => by simp, fun j => ?_, fun j => ?_, fun j => ?_, fun j => ?_⟩
    · rw [label_modifyNode _ id, label_modifyNode _ p] <;> exact fun _ => rfl
    · rw [value_modifyNode _ id, value_modifyNode _ p] <;> exact fun _ => rfl
    · rw [parent, node?_modifyNode]
      split
      · rename_i hj
        subst hj
        cases (s.modifyNode p _).node? j <;> rfl
      · exact parent_modifyNode s p j fun _ => rfl
    · rw [children_modifyNode_of_eq _ id j,
        children_modifyNode s p j (g := fun cs => cs.eraseIdx i) (fun _ => rfl) rfl]
      · split
        · rename_i hj
          rw [hj]
        · rfl
      · exact fun _ => rfl

/-- What linking a node below another does. -/
structure Attaches (s : Store) (id p : NodeId) (i : Nat) (s' : Store) : Prop where
  canAttach : s.canAttach id p = true
  contains : ∀ j, s'.contains j = s.contains j
  label : ∀ j, s'.label j = s.label j
  value : ∀ j, s'.value j = s.value j
  parent : ∀ j, s'.parent j = if j = id then some p else s.parent j
  children : ∀ j, s'.children j = if j = p then spliced (s.children p) i id else s.children j

theorem canAttach_iff : s.canAttach id p = true ↔
    id ≠ root ∧ s.parent id = none ∧ s.contains id = true ∧ s.isWithin p id = false ∧
      s.contains p = true := by
  simp [canAttach, and_assoc]

theorem attach_isSome (i : Nat) (h : s.canAttach id p = true) :
    ∃ s', s.attach id p i = some s' := by
  simp [attach, h]

theorem attaches (h : s.attach id p i = some s') : s.Attaches id p i s' := by
  rw [attach] at h
  split at h
  case isFalse => cases h
  case isTrue hc =>
    cases h
    obtain ⟨-, -, hid, -, hp⟩ := canAttach_iff.mp hc
    obtain ⟨m, hm⟩ := contains_iff.mp hp
    refine ⟨hc, fun j => by simp [linkChild], fun j => ?_, fun j => ?_, fun j => ?_, fun j => ?_⟩
    · rw [label_modifyNode _ id, linkChild, label_modifyNode _ p] <;> exact fun _ => rfl
    · rw [value_modifyNode _ id, linkChild, value_modifyNode _ p] <;> exact fun _ => rfl
    · rw [parent, node?_modifyNode]
      split
      · rename_i hj
        subst hj
        have hj : (s.linkChild p i j).contains j = true := by simpa [linkChild] using hid
        obtain ⟨n, hn⟩ := contains_iff.mp hj
        simp [hn]
      · exact parent_modifyNode s p j fun _ => rfl
    · rw [children_modifyNode_of_eq _ id j, children, node?_linkChild]
      · split
        · rename_i hj
          simp [hj, hm, children]
        · rfl
      · exact fun _ => rfl

/-! ## Deleting -/

theorem node?_foldl_release (s : Store) (ids : List NodeId) (j : NodeId) :
    (ids.foldl release s).node? j = if j ∈ ids then none else s.node? j := by
  induction ids generalizing s with
  | nil => simp
  | cons id ids ih =>
    rw [List.foldl_cons, ih, node?_release]
    by_cases hj : j ∈ ids <;> by_cases hid : j = id <;> simp [hj, hid]

/-- What deleting nodes does. -/
structure Releases (s : Store) (ids : List NodeId) (s' : Store) : Prop where
  contains : ∀ j, s'.contains j = true ↔ s.contains j = true ∧ j ∉ ids
  label : ∀ j, s'.label j = if j ∈ ids then none else s.label j
  value : ∀ j, s'.value j = if j ∈ ids then none else s.value j
  parent : ∀ j, s'.parent j = if j ∈ ids then none else s.parent j
  children : ∀ j, s'.children j = if j ∈ ids then [] else s.children j

theorem releases (s : Store) (ids : List NodeId) : s.Releases ids (ids.foldl release s) := by
  have hview := node?_foldl_release s ids
  generalize ids.foldl release s = t at hview ⊢
  refine ⟨fun j => ?_, fun j => ?_, fun j => ?_, fun j => ?_, fun j => ?_⟩
  · by_cases hj : j ∈ ids <;> simp [Store.contains, hview, hj]
  · by_cases hj : j ∈ ids <;> simp [Store.label, hview, hj]
  · by_cases hj : j ∈ ids <;> simp [Store.value, hview, hj]
  · by_cases hj : j ∈ ids <;> simp [Store.parent, hview, hj]
  · by_cases hj : j ∈ ids <;> simp [Store.children, hview, hj]

end LabelTree.Store
