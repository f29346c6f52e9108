import LabelTree.Proofs.Store.View
import LabelTree.Store.Invariant

/-!
# Store — lineages

In a well-formed store parent links never lead back, so a lineage names no node twice and the bound
of a walk is never met: `lineage` satisfies the equation of the unbounded walk
(`WellFormed.lineage_eq`). What follows is about `isWithin` as an order: it is reflexive, transitive
and antisymmetric, and the nodes that one node is within are a chain.
-/

namespace LabelTree.Store

variable {s : Store} {id a b c p : NodeId}

/-! ## Nodes and slots -/

/-- There are no more nodes than slots. -/
theorem length_le_of_nodup {ids : List NodeId} (hn : ids.Nodup)
    (hc : ∀ id ∈ ids, s.contains id = true) : ids.length ≤ s.slots.size := by
  have hnd : (ids.map NodeId.index).Nodup := by
    refine List.pairwise_map.mpr (List.Pairwise.imp_of_mem ?_ hn)
    intro x y hx hy hne heq
    exact hne (eq_of_index_eq (hc x hx) (hc y hy) heq)
  have hsub : ids.map NodeId.index ⊆ List.range s.slots.size := by
    intro i hi
    obtain ⟨x, hx, rfl⟩ := List.mem_map.mp hi
    exact List.mem_range.mpr (index_lt_of_contains (hc x hx))
  simpa using hnd.length_le_of_subset hsub

namespace WellFormed

theorem freeExact (hs : s.WellFormed) : s.FreeExact :=
  ⟨hs.nodup_free, hs.mem_free⟩

theorem contains_of_parent (hs : s.WellFormed) (h : s.parent c = some p) : s.contains p = true :=
  contains_of_mem_children ((hs.mem_children p c).mpr h)

theorem contains_of_child (hs : s.WellFormed) (h : c ∈ s.children p) : s.contains c = true :=
  Store.contains_of_parent ((hs.mem_children p c).mp h)

theorem ne_root_of_parent (hs : s.WellFormed) (h : s.parent c = some p) : c ≠ root := by
  rintro rfl
  rw [hs.parent_root] at h
  cases h

theorem exists_label_of_parent (hs : s.WellFormed) (h : s.parent c = some p) :
    ∃ l, s.label c = some l :=
  Option.isSome_iff_exists.mp
    (hs.label_isSome c (hs.ne_root_of_parent h) (Store.contains_of_parent h))

theorem parent_ne_self (hs : s.WellFormed) : s.parent id ≠ some id := by
  obtain ⟨rank, hr⟩ := hs.ranked
  intro h
  exact Nat.lt_irrefl _ (hr id id h)

/-- Induction from the parent of a node to the node. -/
theorem upward (hs : s.WellFormed) {P : NodeId → Prop}
    (step : ∀ id, (∀ p, s.parent id = some p → P p) → P id) (id : NodeId) : P id := by
  obtain ⟨rank, hr⟩ := hs.ranked
  have hall : ∀ n id, rank id = n → P id := by
    intro n
    induction n using Nat.strongRecOn with
    | _ n ih =>
      rintro id rfl
      apply step
      intro p hp
      exact ih (rank p) (hr id p hp) p rfl
  exact hall _ id rfl

/-! ## The bound of a lineage -/

theorem rank_of_mem_lineageUpTo {rank : NodeId → Nat}
    (hr : ∀ c p, s.parent c = some p → rank p < rank c) (n : Nat) :
    ∀ id, ∀ x ∈ s.lineageUpTo n id, x = id ∨ rank x < rank id := by
  induction n with
  | zero =>
    intro id x hx
    cases hx
  | succ n ih =>
    intro id x hx
    rcases List.mem_cons.mp hx with rfl | hx
    · exact .inl rfl
    · cases hp : s.parent id with
      | none => simp [hp] at hx
      | some p =>
        simp only [hp] at hx
        have hlt := hr id p hp
        rcases ih p x hx with rfl | h
        · exact .inr hlt
        · exact .inr (Nat.lt_trans h hlt)

theorem nodup_lineageUpTo (hs : s.WellFormed) (n : Nat) : ∀ id, (s.lineageUpTo n id).Nodup := by
  obtain ⟨rank, hr⟩ := hs.ranked
  induction n with
  | zero => intro id; exact List.nodup_nil
  | succ n ih =>
    intro id
    cases hp : s.parent id with
    | none => simp [lineageUpTo, hp]
    | some p =>
      simp only [lineageUpTo, hp]
      refine List.nodup_cons.mpr ⟨?_, ih p⟩
      intro hmem
      have hlt := hr id p hp
      rcases rank_of_mem_lineageUpTo hr n p id hmem with rfl | h
      · exact Nat.lt_irrefl _ hlt
      · omega

theorem contains_of_mem_lineageUpTo (hs : s.WellFormed) (n : Nat) :
    ∀ id, s.contains id = true → ∀ x ∈ s.lineageUpTo n id, s.contains x = true := by
  induction n with
  | zero =>
    intro id _ x hx
    cases hx
  | succ n ih =>
    intro id hid x hx
    rcases List.mem_cons.mp hx with rfl | hx
    · exact hid
    · cases hp : s.parent id with
      | none => simp [hp] at hx
      | some p =>
        simp only [hp] at hx
        exact ih p (hs.contains_of_parent hp) x hx

/-- A lineage that is shorter than its bound is whole. -/
theorem lineageUpTo_eq_of_length_lt {n : Nat} :
    ∀ {id : NodeId} {m : Nat}, (s.lineageUpTo n id).length < n → n ≤ m →
      s.lineageUpTo m id = s.lineageUpTo n id := by
  induction n with
  | zero => intro id m h; omega
  | succ n ih =>
    intro id m h hm
    obtain ⟨m, rfl⟩ : ∃ k, m = k + 1 := ⟨m - 1, by omega⟩
    cases hp : s.parent id with
    | none => simp [lineageUpTo, hp]
    | some p =>
      simp only [lineageUpTo, hp, List.length_cons] at h ⊢
      rw [ih (by omega) (by omega)]

theorem lineage_of_parent (hs : s.WellFormed) (h : s.parent id = some p) :
    s.lineage id = id :: s.lineage p := by
  have hlen : (s.lineageUpTo s.walkLimit id).length ≤ s.slots.size :=
    length_le_of_nodup (hs.nodup_lineageUpTo _ id)
      (hs.contains_of_mem_lineageUpTo _ id (Store.contains_of_parent h))
  have hcons : s.lineageUpTo s.walkLimit id = id :: s.lineageUpTo s.slots.size p := by
    simp [walkLimit, lineageUpTo, h]
  rw [hcons, List.length_cons] at hlen
  -- the lineage of the parent leaves room, so one step less lists it as well
  have hp : s.lineage p = s.lineageUpTo s.slots.size p :=
    lineageUpTo_eq_of_length_lt (by omega) (by simp [walkLimit])
  rw [hp]
  exact hcons

end WellFormed

theorem lineage_of_top (h : s.parent id = none) : s.lineage id = [id] := by
  simp [lineage, walkLimit, lineageUpTo, h]

/-- The equation of the walk without a bound. -/
theorem WellFormed.lineage_eq (hs : s.WellFormed) (id : NodeId) :
    s.lineage id = id :: ((s.parent id).map s.lineage).getD [] := by
  cases h : s.parent id with
  | none => simp [lineage_of_top h]
  | some p => simp [hs.lineage_of_parent h]

/-! ## Being within a node -/

theorem isWithin_self (s : Store) (id : NodeId) : s.isWithin id id = true := by
  simp [isWithin, lineage, walkLimit, lineageUpTo]

theorem ne_of_isWithin_eq_false (h : s.isWithin a b = false) : a ≠ b := by
  rintro rfl
  rw [isWithin_self] at h
  cases h

namespace WellFormed

theorem isWithin_iff (hs : s.WellFormed) :
    s.isWithin id a = true ↔ id = a ∨ ∃ p, s.parent id = some p ∧ s.isWithin p a = true := by
  rw [isWithin, List.contains_iff_mem, hs.lineage_eq, List.mem_cons, eq_comm (a := a)]
  cases s.parent id <;> simp [isWithin]

theorem isWithin_parent (hs : s.WellFormed) (h : s.parent id = some p) :
    s.isWithin id p = true :=
  hs.isWithin_iff.mpr (.inr ⟨p, h, isWithin_self s p⟩)

theorem isWithin_of_isWithin_parent (hs : s.WellFormed) (hp : s.parent id = some p)
    (h : s.isWithin p a = true) : s.isWithin id a = true :=
  hs.isWithin_iff.mpr (.inr ⟨p, hp, h⟩)

theorem isWithin_trans (hs : s.WellFormed) (hab : s.isWithin a b = true)
    (hbc : s.isWithin b c = true) : s.isWithin a c = true := by
  induction a using hs.upward with
  | step a ih =>
    rcases hs.isWithin_iff.mp hab with rfl | ⟨p, hp, hpb⟩
    · exact hbc
    · exact hs.isWithin_of_isWithin_parent hp (ih p hp hpb)

theorem contains_of_isWithin (hs : s.WellFormed) (hid : s.contains id = true)
    (h : s.isWithin id a = true) : s.contains a = true := by
  induction id using hs.upward with
  | step id ih =>
    rcases hs.isWithin_iff.mp h with rfl | ⟨q, hq, hqa⟩
    · exact hid
    · exact ih q hq (hs.contains_of_parent hq) hqa

theorem rank_of_isWithin (hs : s.WellFormed) {rank : NodeId → Nat}
    (hr : ∀ c p, s.parent c = some p → rank p < rank c) (h : s.isWithin a b = true) :
    a = b ∨ rank b < rank a := by
  induction a using hs.upward with
  | step a ih =>
    rcases hs.isWithin_iff.mp h with rfl | ⟨p, hp, hpb⟩
    · exact .inl rfl
    · have hlt := hr a p hp
      rcases ih p hp hpb with rfl | h
      · exact .inr hlt
      · exact .inr (Nat.lt_trans h hlt)

theorem isWithin_antisymm (hs : s.WellFormed) (hab : s.isWithin a b = true)
    (hba : s.isWithin b a = true) : a = b := by
  obtain ⟨rank, hr⟩ := hs.ranked
  rcases hs.rank_of_isWithin hr hab with h | h
  · exact h
  · rcases hs.rank_of_isWithin hr hba with h' | h'
    · exact h'.symm
    · omega

/-- A node is not within any of its children. -/
theorem not_isWithin_child (hs : s.WellFormed) (h : s.parent c = some p) :
    s.isWithin p c = false := by
  rw [← Bool.not_eq_true]
  intro hpc
  have heq := hs.isWithin_antisymm (hs.isWithin_parent h) hpc
  exact hs.parent_ne_self (heq ▸ h)

/-- Of two nodes that a node is within, one is within the other. -/
theorem isWithin_or_isWithin (hs : s.WellFormed) (ha : s.isWithin id a = true)
    (hb : s.isWithin id b = true) : s.isWithin a b = true ∨ s.isWithin b a = true := by
  induction id using hs.upward with
  | step id ih =>
    rcases hs.isWithin_iff.mp ha with rfl | ⟨p, hp, hpa⟩
    · exact .inl hb
    · rcases hs.isWithin_iff.mp hb with rfl | ⟨q, hq, hqb⟩
      · exact .inr ha
      · rw [hp] at hq
        cases hq
        exact ih p hp hpa hqb

/-- Two children of one node that a node is within are the same. -/
theorem eq_of_isWithin_children (hs : s.WellFormed) (ha : s.parent a = some p)
    (hb : s.parent b = some p) (hxa : s.isWithin id a = true) (hxb : s.isWithin id b = true) :
    a = b := by
  have key : ∀ {x y}, s.parent x = some p → s.parent y = some p → s.isWithin x y = true →
      x = y := by
    intro x y hx hy hxy
    rcases hs.isWithin_iff.mp hxy with h | ⟨q, hq, hqy⟩
    · exact h
    · rw [hx] at hq
      cases hq
      rw [hs.not_isWithin_child hy] at hqy
      cases hqy
  rcases hs.isWithin_or_isWithin hxa hxb with h | h
  · exact key ha hb h
  · exact (key hb ha h).symm

/-- A node of one store is within another there if it is so in a store with more links. -/
theorem isWithin_mono {s' : Store} (hs : s.WellFormed) (hs' : s'.WellFormed)
    (hle : ∀ c p, s'.parent c = some p → s.parent c = some p) (h : s'.isWithin id a = true) :
    s.isWithin id a = true := by
  induction id using hs'.upward with
  | step id ih =>
    rcases hs'.isWithin_iff.mp h with rfl | ⟨p, hp, hpa⟩
    · exact isWithin_self s id
    · exact hs.isWithin_of_isWithin_parent (hle id p hp) (ih p hp hpa)

end WellFormed

/-! ## Ends of lineages -/

/-- The node that `n` parent links lead to. -/
def climb (s : Store) : Nat → NodeId → Option NodeId
  | 0, id => some id
  | n + 1, id => (s.parent id).bind (s.climb n)

namespace WellFormed

/-- Parent links come to an end. -/
theorem exists_climb_eq_none (hs : s.WellFormed) (id : NodeId) : ∃ n, s.climb n id = none := by
  induction id using hs.upward with
  | step id ih =>
    cases hp : s.parent id with
    | none => exact ⟨1, by simp [climb, hp]⟩
    | some p =>
      obtain ⟨n, hn⟩ := ih p hp
      exact ⟨n + 1, by simp [climb, hp, hn]⟩

theorem isWithin_root (hs : s.WellFormed) (hid : s.contains id = true)
    (hp : ∀ id, id ≠ root → s.contains id = true → (s.parent id).isSome = true) :
    s.isWithin id root = true := by
  induction id using hs.upward with
  | step id ih =>
    by_cases h : id = root
    · rw [h]
      exact isWithin_self s root
    · obtain ⟨p, hp'⟩ := Option.isSome_iff_exists.mp (hp id h hid)
      exact hs.isWithin_of_isWithin_parent hp' (ih p hp' (hs.contains_of_parent hp'))

end WellFormed

end LabelTree.Store
