import LabelTree.Proofs.Address.Steps
import LabelTree.Proofs.Resolve.Narrow
import LabelTree.Proofs.Store.Runs

/-!
# Address — an address leads to its node

The last step of an address leads from the parent to the node alone: where no sibling shares the
label there is no other candidate, and else the position is the node's place among the candidates.
So the address of a node below the root leads to that node and to no other (`resolve_address`), and
no two such nodes share an address (`address_injective`).
-/

namespace LabelTree.Store

variable {s : Store} {id p : NodeId} {label : String}

/-! ## Places among siblings -/

/-- The rank of a sibling is its place, counted from one, among those that share the label. -/
theorem getElem?_filter_rank {ids : List NodeId} (hid : id ∈ ids) (hl : s.label id = some label) :
    ∃ n, s.rank label id ids = n + 1 ∧
      (ids.filter fun c => s.label c = some label)[n]? = some id := by
  induction ids with
  | nil => cases hid
  | cons c cs ih =>
    by_cases hc : c = id
    · subst hc
      exact ⟨0, by simp [rank, hl], by simp [hl]⟩
    · obtain ⟨n, hrank, hn⟩ := ih ((List.mem_cons.mp hid).resolve_left fun h => hc h.symm)
      by_cases hcl : s.label c = some label
      · exact ⟨n + 1, by simp [rank, hc, hcl, hrank]; omega, by simp [hcl, hn]⟩
      · exact ⟨n, by simp [rank, hc, hcl, hrank], by simp [hcl, hn]⟩

namespace WellFormed

/-- The last step of an address leads from the parent to the node alone. -/
theorem candidates_leadingStep (hs : s.WellFormed) (hp : s.parent id = some p)
    (hl : s.label id = some label) : s.candidates (s.leadingStep id) p = [id] := by
  have hmem : id ∈ s.children p := (hs.mem_children p id).mpr hp
  have hcount : s.sameLabelCount id =
      ((s.children p).filter fun c => s.label c = some label).length := by
    rw [sameLabelCount, hp, hl]
    exact List.countP_eq_length_filter
  have hnodes : s.candidates (s.leadingStep id) p =
      (positionPredicates (s.position? id)).foldl s.narrow
        ((s.children p).filter fun c => s.label c = some label) := by
    rw [leadingStep, candidates, axisNodes_exact, shownLabel, hl]
    rfl
  rw [hnodes, position?]
  split
  · obtain ⟨n, hrank, hn⟩ := getElem?_filter_rank hmem hl
    have hposition : s.position id = n + 1 := by rw [position, hp, hl]; exact hrank
    rw [hposition]
    simp [positionPredicates, narrow, hn]
  · rename_i hone
    -- the node is the only candidate
    rw [hcount] at hone
    generalize hcs : ((s.children p).filter fun c => s.label c = some label) = cs at hone
    have hin : id ∈ cs := by
      rw [← hcs]
      simp [hmem, hl]
    cases cs with
    | nil => cases hin
    | cons c rest =>
      have hrest : rest = [] := by simpa using hone
      subst hrest
      simpa [positionPredicates, eq_comm] using hin

theorem foldl_leadingSteps (hs : s.WellFormed) (hid : s.contains id = true)
    (hwithin : s.isWithin id root = true) : (s.leadingSteps id).foldl s.advance [root] = [id] := by
  induction id using hs.upward with
  | step id ih =>
    by_cases hroot : id = root
    · rw [hroot, leadingSteps_root]
      rfl
    · obtain ⟨p, hp, hpwithin⟩ := (hs.isWithin_iff.mp hwithin).resolve_left hroot
      obtain ⟨label, hl⟩ := Option.isSome_iff_exists.mp (hs.label_isSome id hroot hid)
      rw [hs.leadingSteps_of_parent hroot hp, List.foldl_append,
        ih p hp (hs.contains_of_parent hp) hpwithin]
      have hadvance : s.advance [p] (s.leadingStep id) = s.candidates (s.leadingStep id) p := by
        simp [advance, leadingStep]
      rw [List.foldl_cons, List.foldl_nil, hadvance, hs.candidates_leadingStep hp hl]

/-- An address compiles, and from any context it leads to its node alone. -/
theorem resolve_address (hs : s.WellFormed) (hlabels : ∀ id l, s.label id = some l → l ≠ "")
    (hfit : s.PositionsFit) (hid : s.contains id = true) (hwithin : s.isWithin id root = true) :
    ∃ path, Path.compile (s.address id) = .ok path ∧ path.absolute = true ∧
      ∀ context, s.resolve path context = [id] :=
  ⟨_, hs.compile_address hlabels hfit hid, rfl, fun _ => hs.foldl_leadingSteps hid hwithin⟩

theorem address_injective (hs : s.WellFormed) (hlabels : ∀ id l, s.label id = some l → l ≠ "")
    (hfit : s.PositionsFit) {a b : NodeId} (ha : s.contains a = true)
    (hra : s.isWithin a root = true) (hb : s.contains b = true) (hrb : s.isWithin b root = true)
    (h : s.address a = s.address b) : a = b := by
  obtain ⟨path, hpath, -, hres⟩ := hs.resolve_address hlabels hfit ha hra
  obtain ⟨path', hpath', -, hres'⟩ := hs.resolve_address hlabels hfit hb hrb
  rw [h, hpath'] at hpath
  cases hpath
  have heq := (hres root).symm.trans (hres' root)
  simpa using heq

end WellFormed

/-- The address of every node below the root compiles to an absolute path, which leads to that node
and to no other from any context. So distinct nodes have distinct addresses. -/
theorem addresses_lead_back (hs : s.WellFormed) (hlabels : ∀ id l, s.label id = some l → l ≠ "")
    (hfit : s.PositionsFit) :
    (∀ id, s.contains id = true → s.isWithin id root = true →
        ∃ path, Path.compile (s.address id) = .ok path ∧ path.absolute = true ∧
          ∀ context, s.resolve path context = [id]) ∧
      ∀ a b, s.contains a = true → s.isWithin a root = true → s.contains b = true →
        s.isWithin b root = true → a ≠ b → s.address a ≠ s.address b :=
  ⟨fun _ hid hwithin => hs.resolve_address hlabels hfit hid hwithin,
    fun _ _ ha hra hb hrb hne h => hne (hs.address_injective hlabels hfit ha hra hb hrb h)⟩

/-- What holds of the labels in the slots holds of all labels. -/
theorem forall_label_of_slots {good : String → Prop}
    (h : ∀ slot ∈ s.slots.toList, ∀ l ∈ slot.node.bind Node.label, good l) :
    ∀ id l, s.label id = some l → good l := by
  intro id l hl
  rw [label, node?] at hl
  cases hslot : s.slots[id.index]? with
  | none => simp [hslot] at hl
  | some slot =>
    refine h slot (Array.mem_toList_iff.mpr (Array.mem_of_getElem? hslot)) l ?_
    simp only [hslot, Option.bind_some] at hl
    split at hl
    · exact hl
    · cases hl

/-- Two siblings with the label `..` and one that ends in a blank. -/
theorem addresses_lead_back_escaped :
    let s := new.applyAll [.appendChild root "..", .appendChild root "..", .appendChild ⟨2, 0⟩ "a "]
    s.address ⟨3, 0⟩ = "/\\..[2]/a\\ " ∧
      ∃ path, Path.compile (s.address ⟨3, 0⟩) = .ok path ∧ s.resolve path root = [⟨3, 0⟩] := by
  intro s
  have hs : s.WellFormed := Reachable.wellFormed ⟨_, rfl⟩
  have hlabels : ∀ id l, s.label id = some l → l ≠ "" := forall_label_of_slots (by decide)
  have hfit : s.PositionsFit := hs.positionsFit (by decide)
  obtain ⟨hback, -⟩ := addresses_lead_back hs hlabels hfit
  obtain ⟨path, hpath, -, hres⟩ := hback ⟨3, 0⟩ (by decide) (by decide)
  exact ⟨by decide, path, hpath, hres root⟩

end LabelTree.Store
