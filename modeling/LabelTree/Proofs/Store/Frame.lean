import LabelTree.Proofs.Store.Place
import LabelTree.Proofs.Store.Runs

/-!
# Store — what a change leaves as it was

A frame says of two stores, one later than the other, what holds of the nodes that both have: all
but some keep their parent, their label and their order among siblings, and all but some keep their
value. Frames compose, because an id that was deleted never names a node again (`Later`). Each
operation has one: deleting and making nodes moves none, and taking a place moves the one node that
takes it.
-/

namespace LabelTree.Store

variable {s t u : Store} {id p node target : NodeId} {i : Nat} {l : String} {v : Option String}
  {moved valued moved' valued' : NodeId → Prop}

/-! ## Ids over time -/

/-- That slots are only filled or emptied for good: each emptying starts a new generation. -/
def Later (s t : Store) : Prop :=
  ∀ (i : Nat) (slot : Slot), s.slots[i]? = some slot → ∃ slot', t.slots[i]? = some slot' ∧
    slot.generation ≤ slot'.generation ∧
      (slot.node.isSome = true → slot'.generation = slot.generation → slot'.node.isSome = true)

namespace Later

theorem refl (s : Store) : s.Later s :=
  fun _ slot h => ⟨slot, h, Nat.le_refl _, fun hnode _ => hnode⟩

theorem trans (h : s.Later t) (h' : t.Later u) : s.Later u := by
  intro i a ha
  obtain ⟨b, hb, hab, hnode⟩ := h i a ha
  obtain ⟨c, hc, hbc, hnode'⟩ := h' i b hb
  refine ⟨c, hc, Nat.le_trans hab hbc, fun hsome heq => hnode' (hnode hsome ?_) ?_⟩ <;> omega

/-- A node that is there before and after is there in between. -/
theorem contains (h : s.Later t) (h' : t.Later u) (hs : s.contains id = true)
    (hu : u.contains id = true) : t.contains id = true := by
  obtain ⟨m, hm⟩ := contains_iff.mp hs
  obtain ⟨n, hn⟩ := contains_iff.mp hu
  obtain ⟨⟨g, node⟩, hslot, hle, hnode⟩ := h _ _ (node?_eq_some_iff.mp hm)
  obtain ⟨c, hc, hle', -⟩ := h' _ _ hslot
  rw [node?_eq_some_iff.mp hn] at hc
  cases hc
  have hg : g = id.generation := Nat.le_antisymm hle' hle
  obtain ⟨k, rfl⟩ := Option.isSome_iff_exists.mp (hnode rfl hg)
  exact contains_iff.mpr ⟨k, node?_eq_some_iff.mpr (hg ▸ hslot)⟩

/-- A node that was there and is gone is gone for good. -/
theorem not_contains (h : s.Later t) (h' : t.Later u) (hs : s.contains id = true)
    (ht : t.contains id = false) : u.contains id = false := by
  rw [← Bool.not_eq_true] at ht ⊢
  exact fun hu => ht (h.contains h' hs hu)

/-- A change of one slot. -/
theorem of_modify {f : Slot → Slot} (h : ∀ slot, slot.generation ≤ (f slot).generation ∧
      (slot.node.isSome = true → (f slot).generation = slot.generation →
        (f slot).node.isSome = true)) (s : Store) (i : Nat) (free : List Nat) :
    s.Later ⟨s.slots.modify i f, free⟩ := by
  intro k slot hk
  refine ⟨if i = k then f slot else slot, by simp [Array.getElem?_modify, hk]; split <;> rfl, ?_⟩
  split
  · exact h slot
  · exact ⟨Nat.le_refl _, fun hnode _ => hnode⟩

theorem slotKept (s : Store) : SlotKept fun t => t.FreeExact ∧ s.Later t where
  modifyNode id f h := by
    refine ⟨h.1.modifyNode id f, h.2.trans (of_modify (fun slot => ?_) _ _ _)⟩
    split <;> simp
  alloc {t} node h := by
    refine ⟨h.1.alloc node, h.2.trans ?_⟩
    obtain ⟨i, g, rest, -, -, ha⟩ | ⟨-, ha⟩ := h.1.alloc_cases node
    · rw [ha]
      exact of_modify (fun slot => by simp) _ _ _
    · rw [ha]
      intro k slot hk
      have hlt := (Array.getElem?_eq_some_iff.mp hk).1
      refine ⟨slot, ?_, Nat.le_refl _, fun hnode _ => hnode⟩
      simp [Array.getElem?_push, Nat.ne_of_lt hlt, hk]
  release {t} id h := by
    refine ⟨h.1.release id, h.2.trans ?_⟩
    rw [release]
    split
    · exact of_modify (fun slot => by simp) _ _ _
    · exact refl t

end Later

/-- Every operation leaves a later store. -/
theorem WellFormed.later_kept (hs : s.WellFormed) {t : Store}
    (h : ∀ {P : Store → Prop}, SlotKept P → P s → P t) : s.Later t :=
  (h (Later.slotKept s) ⟨hs.freeExact, Later.refl s⟩).2

/-! ## Frames -/

/-- What holds of the nodes of two stores, one later than the other. -/
structure Frame (s : Store) (moved valued : NodeId → Prop) (t : Store) : Prop where
  later : s.Later t
  parent : ∀ j, s.contains j = true → t.contains j = true → ¬ moved j → t.parent j = s.parent j
  label : ∀ j, s.contains j = true → t.contains j = true → ¬ moved j → t.label j = s.label j
  value : ∀ j, s.contains j = true → t.contains j = true → ¬ valued j → t.value j = s.value j
  /-- Siblings that stay keep their order. -/
  order : ∀ p a b, s.contains a = true → s.contains b = true → t.contains a = true →
    t.contains b = true → ¬ moved a → ¬ moved b → [a, b].Sublist (s.children p) →
    [a, b].Sublist (t.children p)

namespace Frame

theorem refl (s : Store) (moved valued : NodeId → Prop) : s.Frame moved valued s :=
  ⟨Later.refl s, fun _ _ _ _ => rfl, fun _ _ _ _ => rfl, fun _ _ _ _ => rfl,
    fun _ _ _ _ _ _ _ _ _ h => h⟩

theorem trans (h : s.Frame moved valued t) (h' : t.Frame moved' valued' u) :
    s.Frame (fun j => moved j ∨ moved' j) (fun j => valued j ∨ valued' j) u := by
  have hmid : ∀ {j}, s.contains j = true → u.contains j = true → t.contains j = true :=
    fun hj hj' => h.later.contains h'.later hj hj'
  constructor
  case later => exact h.later.trans h'.later
  case parent =>
    intro j hj hj' hm
    rw [not_or] at hm
    have hj₁ := hmid hj hj'
    rw [h'.parent j hj₁ hj' hm.2, h.parent j hj hj₁ hm.1]
  case label =>
    intro j hj hj' hm
    rw [not_or] at hm
    have hj₁ := hmid hj hj'
    rw [h'.label j hj₁ hj' hm.2, h.label j hj hj₁ hm.1]
  case value =>
    intro j hj hj' hm
    rw [not_or] at hm
    have hj₁ := hmid hj hj'
    rw [h'.value j hj₁ hj' hm.2, h.value j hj hj₁ hm.1]
  case order =>
    intro p a b ha hb ha' hb' hma hmb hab
    rw [not_or] at hma hmb
    have ha₁ := hmid ha ha'
    have hb₁ := hmid hb hb'
    exact h'.order p a b ha₁ hb₁ ha' hb' hma.2 hmb.2 (h.order p a b ha hb ha₁ hb₁ hma.1 hmb.1 hab)

/-- Only nodes of the first store matter. -/
theorem mono (h : s.Frame moved valued t) (hm : ∀ j, s.contains j = true → moved j → moved' j)
    (hv : ∀ j, s.contains j = true → valued j → valued' j) : s.Frame moved' valued' t where
  later := h.later
  parent j hj hj' hout := h.parent j hj hj' fun hj'' => hout (hm j hj hj'')
  label j hj hj' hout := h.label j hj hj' fun hj'' => hout (hm j hj hj'')
  value j hj hj' hout := h.value j hj hj' fun hj'' => hout (hv j hj hj'')
  order p a b ha hb ha' hb' hma hmb :=
    h.order p a b ha hb ha' hb' (fun h => hma (hm a ha h)) fun h => hmb (hm b hb h)

end Frame

/-- Nothing that is there before and after is moved. -/
abbrev Still (s t : Store) : Prop :=
  s.Frame (fun _ => False) (fun _ => False) t

theorem Still.trans (h : s.Still t) (h' : t.Frame moved valued u) : s.Frame moved valued u :=
  (Frame.trans h h').mono (fun _ _ h => h.resolve_left id) fun _ _ h => h.resolve_left id

/-! ## Operations -/

theorem sublist_pair_filter {a b : NodeId} {cs : List NodeId} {k : NodeId → Bool}
    (h : [a, b].Sublist cs) (ha : k a = true) (hb : k b = true) :
    [a, b].Sublist (cs.filter k) := by
  simpa [ha, hb] using h.filter k

theorem sublist_spliced (cs : List NodeId) (i : Nat) (id : NodeId) :
    cs.Sublist (spliced cs i id) := by
  have h := List.eraseIdx_sublist (spliced cs i id) (min i cs.length)
  rwa [eraseIdx_spliced] at h

theorem Kept.takePlace {P : Store → Prop} (hP : Kept P) (hs : P s) (node target : NodeId) :
    P (s.takePlace node target) := by
  have hdetached : P (((s.detach node).map Prod.snd).getD s) :=
    getD_map_keeps hs fun _ _ => hP.detach hs
  unfold Store.takePlace
  dsimp only
  generalize ((s.detach node).map Prod.snd).getD s = d at hdetached ⊢
  have hremoved := hP.remove target hdetached
  generalize (d.remove target).2 = r at hremoved ⊢
  have hattached : ∀ p i, P ((r.attach node p i).getD r) := fun p i =>
    getD_keeps hremoved fun _ => hP.attach hremoved
  exact getD_keeps (hattached _ _) fun _ => hP.setLabel (hattached _ _)

namespace WellFormed

theorem frame_setValue (hs : s.WellFormed) (h : s.setValue id v = some t) :
    s.Frame (fun _ => False) (· = id) t := by
  have he := setsValue h
  constructor
  case later => exact hs.later_kept fun hP hs => hP.setValue hs h
  case parent => exact fun j _ _ _ => he.shape.parent j
  case label => exact fun j _ _ _ => he.label j
  case value =>
    intro j _ _ hj
    rw [he.value, if_neg hj]
  case order =>
    intro p a b _ _ _ _ _ _ hab
    rw [he.shape.children]
    exact hab

theorem still_insertChild (hs : s.WellFormed) (h : s.insertChild p i l = some (id, t)) :
    s.Still t := by
  have he := hs.freeExact.inserts h
  have hne : ∀ {j}, s.contains j = true → j ≠ id := fun hj => ne_of_contains hj he.fresh
  constructor
  case later => exact hs.later_kept fun hP hs => hP.insertChild hs h
  case parent =>
    intro j hj _ _
    rw [he.parent, if_neg (hne hj)]
  case label =>
    intro j hj _ _
    rw [he.label, if_neg (hne hj)]
  case value =>
    intro j hj _ _
    rw [he.value, if_neg (hne hj)]
  case order =>
    intro q a b _ _ _ _ _ _ hab
    have hq : q ≠ id := hne (contains_of_mem_children (hab.subset List.mem_cons_self))
    rw [he.children, if_neg hq]
    split
    · rename_i hqp
      exact hab.trans (hqp ▸ sublist_spliced (s.children p) i id)
    · exact hab

/-- A new child is given a value. -/
theorem still_setValue_new {w : Store} (hs : s.WellFormed) (h : s.insertChild p i l = some (id, t))
    (hv : t.setValue id v = some w) : s.Still w := by
  have hfresh := (hs.freeExact.inserts h).fresh
  refine (still_insertChild hs h).trans ((hs.insertChild h).frame_setValue hv) |>.mono
    (fun _ _ h => h) fun j hj heq => ?_
  rw [heq, hfresh] at hj
  cases hj

theorem still_remove (hs : s.WellFormed) (id : NodeId) : s.Still (s.remove id).2 := by
  by_cases hid : id = root ∨ ¬ s.contains id = true
  · rw [Store.remove, if_pos hid]
    exact Frame.refl s _ _
  · rw [not_or, Decidable.not_not] at hid
    obtain ⟨he, -⟩ := hs.removes hid.1 hid.2
    have hout : ∀ {j}, (s.remove id).2.contains j = true → s.isWithin j id = false :=
      fun hj => ((he.contains _).mp hj).2
    constructor
    case later => exact hs.later_kept fun hP hs => hP.remove hs id
    case parent =>
      intro j _ hj _
      rw [he.parent, hout hj]
      rfl
    case label =>
      intro j _ hj _
      rw [he.label, hout hj]
      rfl
    case value =>
      intro j _ hj _
      rw [he.value, hout hj]
      rfl
    case order =>
      intro p a b _ _ ha hb _ _ hab
      have hne : ∀ {j}, (s.remove id).2.contains j = true → decide (j ≠ id) = true :=
        fun hj => decide_eq_true (ne_of_isWithin_eq_false (hout hj))
      -- a parent of what is left is left too
      have hp : s.isWithin p id = false := by
        have hpa := (hs.mem_children p a).mp (hab.subset List.mem_cons_self)
        rw [← Bool.not_eq_true]
        intro hp
        have hwithin := hs.isWithin_of_isWithin_parent hpa hp
        rw [hout ha] at hwithin
        cases hwithin
      rw [he.children, hp]
      exact sublist_pair_filter hab (hne ha) (hne hb)

theorem frame_takePlace (hs : s.WellFormed) (hn : node ≠ root) (hcn : s.contains node = true)
    (hp : s.parent target = some p) (hout : s.isWithin target node = false) :
    s.Frame (· = node) (fun _ => False) (s.takePlace node target) := by
  obtain ⟨he, -⟩ := hs.takesPlace hn hcn hp hout
  have hkept : ∀ {j}, (s.takePlace node target).contains j = true → s.swept node target j = false :=
    fun hj => ((he.contains _).mp hj).2
  constructor
  case later =>
    exact hs.later_kept fun hP hs => hP.kept.takePlace hs node target
  case parent =>
    intro j _ hj hne
    rw [he.parent, if_neg hne, hkept hj]
    rfl
  case label =>
    intro j _ hj hne
    rw [he.label, if_neg hne, hkept hj]
    rfl
  case value =>
    intro j _ hj _
    rw [he.value, hkept hj]
    rfl
  case order =>
    intro q a b _ _ ha hb hna hnb hab
    have htarget : s.swept node target target = true := by simp [swept, isWithin_self, hout]
    have hnt : ∀ {j}, (s.takePlace node target).contains j = true → j ≠ target := by
      rintro j hj rfl
      rw [hkept hj] at htarget
      cases htarget
    -- a parent of what stays stays too
    have hq : s.swept node target q = false := by
      have hqa := (hs.mem_children q a).mp (hab.subset List.mem_cons_self)
      have ha := hkept ha
      have hup : ∀ {c}, a ≠ c → s.isWithin a c = s.isWithin q c := by
        intro c hne
        rw [Bool.eq_iff_iff, hs.isWithin_iff]
        simp [hne, hqa]
      rwa [swept, hup (hnt ‹_›), hup hna] at ha
    rw [he.children, hq]
    have hfilter := sublist_pair_filter (k := fun c => decide (c ≠ node)) hab (by simpa using hna)
      (by simpa using hnb)
    simpa [hnt ha, hnt hb] using hfilter.map fun c => if c = target then node else c

/-- A graft makes nodes only. -/
theorem still_graft (hs : s.WellFormed) (p : NodeId) (source : Snapshot) :
    s.Still (s.graft p source).2 := by
  have hstep : AppendKeeps (fun t => t.WellFormed ∧ s.Still t) fun _ => True := by
    intro t p l v id w ht _ h
    have hw := ht.1.insertChild h
    have hstill : w.WellFormed ∧ s.Still w := ⟨hw, ht.2.trans (ht.1.still_insertChild h)⟩
    refine getD_keeps (P := fun t => t.WellFormed ∧ s.Still t) hstill fun x hx => ?_
    exact ⟨hw.setValue hx, ht.2.trans (ht.1.still_setValue_new h hx)⟩
  have hstart : s.WellFormed ∧ s.Still s := ⟨hs, Frame.refl s _ _⟩
  exact (graft_keeps hstep hstart fun _ _ => trivial).2

end WellFormed

end LabelTree.Store
