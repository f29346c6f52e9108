import LabelTree.Proofs.Store.Preservation

/-!
# Store — taking the place of a node

A node that takes the place of another is unlinked, the other is deleted with its subtree, and the
node is linked where the other was. None of the three parts can refuse when the place is outside the
subtree of the node, so no subtree is left unlinked (`WellFormed.takesPlace`).
-/

namespace LabelTree.Store

variable {s s' : Store} {node target p : NodeId} {i : Nat}

/-- A store in which `node` has left its place for that of `target`, and has its label. -/
def takePlace (s : Store) (node target : NodeId) : Store :=
  let label := s.shownLabel target
  let s := ((s.detach node).map Prod.snd).getD s
  let parent := (s.parent target).getD root
  let index := (s.indexInParent target).getD (s.children parent).length
  let (_, s) := s.remove target
  let s := (s.attach node parent index).getD s
  (s.setLabel node label).getD s

/-- Whether a node goes when `node` takes the place of `target`: those below `target` do, but not
those that move along with `node`. -/
def swept (s : Store) (node target id : NodeId) : Bool :=
  s.isWithin id target && !s.isWithin id node

/-- What taking a place does. -/
structure TakesPlace (s : Store) (node target : NodeId) (s' : Store) : Prop where
  contains : ∀ j, s'.contains j = true ↔ s.contains j = true ∧ s.swept node target j = false
  label : ∀ j, s'.label j =
    if j = node then s.label target else if s.swept node target j then none else s.label j
  value : ∀ j, s'.value j = if s.swept node target j then none else s.value j
  parent : ∀ j, s'.parent j =
    if j = node then s.parent target else if s.swept node target j then none else s.parent j
  children : ∀ j, s'.children j =
    if s.swept node target j then []
    else ((s.children j).filter (· ≠ node)).map fun c => if c = target then node else c

/-- Unlinking a node takes its subtree out of the other subtrees. -/
theorem WellFormed.isWithin_unlinks_eq_swept (hs : s.WellFormed) (hs' : s'.WellFormed)
    (h : s.Unlinks node s') (hout : s.isWithin target node = false) (j : NodeId) :
    s'.isWithin j target = s.swept node target j := by
  induction j using hs.upward with
  | step j ih =>
    by_cases hj : j = node
    · subst hj
      have hne : j ≠ target := (ne_of_isWithin_eq_false hout).symm
      have hw : ¬ s'.isWithin j target = true := by
        rw [hs'.isWithin_iff, h.parent]
        simp [hne]
      simpa [swept, isWithin_self] using hw
    · by_cases hjt : j = target
      · subst hjt
        simp [swept, isWithin_self, hout]
      · rw [Bool.eq_iff_iff, hs'.isWithin_iff, h.parent, if_neg hj]
        cases hp : s.parent j with
        | none =>
          have hw : ¬ s.isWithin j target = true := by
            rw [hs.isWithin_iff]
            simp [hjt, hp]
          simp [swept, hjt, hw]
        | some q =>
          have hup : ∀ {a}, j ≠ a → s.isWithin j a = s.isWithin q a := by
            intro a hne
            rw [Bool.eq_iff_iff, hs.isWithin_iff]
            simp [hne, hp]
          -- `j` is neither of the two, so its parent settles both sides
          have hq := ih q hp
          simp only [swept] at hq ⊢
          simp [hjt, hup hjt, hup hj, hq]

theorem map_eq_self_of_not_mem {cs : List NodeId} (h : target ∉ cs) :
    (cs.map fun c => if c = target then node else c) = cs := by
  induction cs with
  | nil => rfl
  | cons c cs ih =>
    obtain ⟨hc, hcs⟩ := List.ne_and_not_mem_of_not_mem_cons h
    rw [List.map_cons, if_neg (Ne.symm hc), ih hcs]

theorem insertIdx_eraseIdx_eq_map {cs : List NodeId} (hn : cs.Nodup) (hi : cs[i]? = some target) :
    (cs.eraseIdx i).insertIdx i node = cs.map fun c => if c = target then node else c := by
  induction cs generalizing i with
  | nil => cases hi
  | cons c cs ih =>
    obtain ⟨hc, hcs⟩ := List.nodup_cons.mp hn
    cases i with
    | zero =>
      have hct : c = target := by simpa using hi
      subst hct
      simp [map_eq_self_of_not_mem hc]
    | succ i =>
      have hget : cs[i]? = some target := by simpa using hi
      have hne : c ≠ target := by
        rintro rfl
        exact hc (List.mem_of_getElem? hget)
      simp [ih hcs hget, hne]

theorem spliced_filter_eq_map {cs : List NodeId} (hn : cs.Nodup) (hi : cs[i]? = some target) :
    spliced (cs.filter (· ≠ target)) i node = cs.map fun c => if c = target then node else c := by
  have hlt : i < cs.length := (List.getElem?_eq_some_iff.mp hi).1
  have hlen : (cs.eraseIdx i).length = cs.length - 1 := List.length_eraseIdx_of_lt hlt
  rw [← eraseIdx_eq_filter hn hi, spliced, Nat.min_eq_left (by omega),
    insertIdx_eraseIdx_eq_map hn hi]

/-- After `node` was unlinked and `target` deleted, `node` can be linked where `target` was. -/
theorem WellFormed.canAttach_place {d t : Store} (hs : s.WellFormed) (hd : d.WellFormed)
    (hw : t.WellFormed) (hu : s.Unlinks node d) (hr : d.Removes target t) (hn : node ≠ root)
    (hcn : s.contains node = true) (hp : s.parent target = some p)
    (hout : s.isWithin target node = false) : t.canAttach node p = true := by
  have hpd : d.parent target = some p := by
    rw [hu.parent, if_neg (ne_of_isWithin_eq_false hout), hp]
  refine canAttach_iff.mpr ⟨hn, ?_, ?_, ?_, ?_⟩
  · rw [hr.parent, hu.parent]
    simp
  · -- `node` is not below `target` any more
    refine (hr.contains node).mpr ⟨by rw [hu.contains, hcn], ?_⟩
    simp [hs.isWithin_unlinks_eq_swept hd hu hout, swept, isWithin_self]
  · -- no link is new, so `p` below `node` would put `target` below it
    rw [← Bool.not_eq_true]
    intro hwp
    have hle : ∀ c q, t.parent c = some q → s.parent c = some q := by
      intro c q hq
      rw [hr.parent] at hq
      split at hq
      · cases hq
      · rw [hu.parent] at hq
        split at hq
        · cases hq
        · exact hq
    have hpn : s.isWithin p node = true := hs.isWithin_mono hw hle hwp
    rw [hs.isWithin_of_isWithin_parent hp hpn] at hout
    cases hout
  · exact (hr.contains p).mpr ⟨hd.contains_of_parent hpd, hd.not_isWithin_child hpd⟩

/-- Taking a place succeeds in each of its parts when `target` is outside the subtree of `node`. -/
theorem WellFormed.takesPlace (hs : s.WellFormed) (hn : node ≠ root) (hcn : s.contains node = true)
    (hp : s.parent target = some p) (hout : s.isWithin target node = false) :
    s.TakesPlace node target (s.takePlace node target) ∧
      (s.takePlace node target).WellFormed := by
  have ht : target ≠ root := hs.ne_root_of_parent hp
  obtain ⟨l, hl⟩ := hs.exists_label_of_parent hp
  -- `node` is unlinked
  obtain ⟨hu, hd⟩ := hs.unlinks node
  unfold takePlace
  generalize ((s.detach node).map Prod.snd).getD s = d at hu hd ⊢
  have hswept := fun j => hs.isWithin_unlinks_eq_swept hd hu hout j
  have hpd : d.parent target = some p := by
    rw [hu.parent, if_neg (ne_of_isWithin_eq_false hout), hp]
  obtain ⟨i, hi⟩ := hd.indexInParent_isSome hpd
  have hget : (d.children p)[i]? = some target := by
    obtain ⟨q, hq, hget⟩ := indexInParent_eq_some hi
    rw [hpd] at hq
    cases hq
    exact hget
  -- `target` is deleted
  obtain ⟨hr, hw⟩ := hd.removes ht (Store.contains_of_parent hpd)
  simp only [hpd, hi, Option.getD_some]
  generalize (d.remove target).2 = t at hr hw ⊢
  -- `node` is linked again and gets the label
  have hcan := hs.canAttach_place hd hw hu hr hn hcn hp hout
  obtain ⟨-, -, hct, -, -⟩ := canAttach_iff.mp hcan
  obtain ⟨u, hatt⟩ := attach_isSome i hcan
  have ha := Store.attaches hatt
  have hwu := hw.attaches ha (FreeExact.slotKept.attach hw.freeExact hatt)
  obtain ⟨v, hv⟩ : ∃ v, u.setLabel node (s.shownLabel target) = some v := by
    simp [Store.setLabel, hn, ha.contains, hct]
  obtain ⟨-, hset⟩ := setsLabel hv
  simp only [hatt, hv, Option.getD_some]
  refine ⟨?_, hwu.setLabel hv⟩
  constructor
  case contains =>
    intro j
    rw [hset.shape.contains, ha.contains, hr.contains, hu.contains, hswept]
  case label =>
    intro j
    rw [hset.label, ha.label, hr.label, hu.label, hswept, shownLabel, hl]
    rfl
  case value =>
    intro j
    rw [hset.value, ha.value, hr.value, hu.value, hswept]
  case parent =>
    intro j
    rw [hset.shape.parent, ha.parent, hr.parent, hu.parent, hswept, hp]
    by_cases hj : j = node <;> simp [hj]
  case children =>
    intro j
    rw [hset.shape.children, ha.children]
    by_cases hj : j = p
    · subst hj
      have hkept : s.swept node target j = false := by
        rw [← hswept]
        exact hd.not_isWithin_child hpd
      rw [if_pos rfl, hr.children, hswept, hkept, if_neg (by simp), if_neg (by simp),
        spliced_filter_eq_map (hd.nodup_children j) hget, hu.children]
    · -- `target` is a child of `p` alone, so nothing is replaced here
      have hno : target ∉ d.children j := by
        rw [hd.mem_children, hpd, Option.some.injEq]
        exact Ne.symm hj
      rw [if_neg hj, hr.children, hswept,
        hd.filter_children_of_ne (by simpa [hpd] using Ne.symm hj),
        hu.children, map_eq_self_of_not_mem (hu.children j ▸ hno)]

end LabelTree.Store
