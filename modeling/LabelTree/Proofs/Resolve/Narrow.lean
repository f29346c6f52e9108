import LabelTree.Proofs.Store.Lineage
import LabelTree.Resolve.Chain

/-!
# Resolve — predicates keep a part of the candidates

A predicate leaves some of the candidates in the order that they have, and it leaves those that it
keeps one by one (`mem_narrow`). As the candidates of a step are distinct, that settles what a list
of predicates leaves (`narrows_iff`), and with it what a chain of candidates is
(`leadsTo_cons_iff`).
-/

namespace LabelTree.Store

variable {s : Store} {id : NodeId}

/-! ## One predicate -/

theorem toList_getElem?_sublist (cs : List NodeId) (i : Nat) : (cs[i]?.toList).Sublist cs := by
  cases h : cs[i]? with
  | none => exact List.nil_sublist cs
  | some c => exact List.singleton_sublist.mpr (List.mem_of_getElem? h)

theorem narrow_sublist (s : Store) (cs : List NodeId) (p : Predicate) :
    (s.narrow cs p).Sublist cs := by
  cases p with
  | position n =>
    cases n with
    | zero => exact List.nil_sublist cs
    | succ n => exact toList_getElem?_sublist cs n
  | last back =>
    -- one element of the reversed list is one of the list
    have hmem : ∀ c ∈ cs.reverse[back]?.toList, c ∈ cs := by
      intro c hc
      exact List.mem_reverse.mp (List.mem_of_getElem? (Option.mem_toList.mp hc))
    rw [narrow]
    cases h : cs.reverse[back]? with
    | none => exact List.nil_sublist cs
    | some c =>
      refine List.singleton_sublist.mpr (hmem c ?_)
      simp [h]
  | compare operand literal negated => exact List.filter_sublist
  | hasChild name => exact List.filter_sublist

theorem mem_narrow {cs : List NodeId} {p : Predicate} :
    id ∈ s.narrow cs p ↔ s.Keeps cs id p := by
  cases p with
  | position n =>
    cases n with
    | zero => simp [narrow, Keeps]
    | succ n => simp [narrow, Keeps]
  | last back =>
    simp only [narrow, Keeps, Option.mem_toList]
    constructor
    · intro h
      have hlt : back < cs.reverse.length := (List.getElem?_eq_some_iff.mp h).1
      rw [List.length_reverse] at hlt
      rw [List.getElem?_reverse hlt] at h
      exact ⟨_, h, by omega⟩
    · rintro ⟨i, hi, heq⟩
      have hlt : back < cs.length := by omega
      have hidx : cs.length - 1 - back = i := by omega
      rw [List.getElem?_reverse hlt, hidx]
      exact hi
  | compare operand literal negated =>
    rw [narrow, Keeps, List.mem_filter]
    refine and_congr_right fun _ => ?_
    cases s.holds operand literal id <;> cases negated <;> decide
  | hasChild name => simp [narrow, Keeps]

/-! ## Predicates in turn -/

theorem foldl_narrow_sublist (s : Store) (ps : List Predicate) (cs : List NodeId) :
    (ps.foldl s.narrow cs).Sublist cs := by
  induction ps generalizing cs with
  | nil => exact List.Sublist.refl cs
  | cons p ps ih => exact (ih _).trans (s.narrow_sublist cs p)

theorem narrows_foldl (s : Store) (ps : List Predicate) (cs : List NodeId) :
    s.Narrows cs ps (ps.foldl s.narrow cs) := by
  induction ps generalizing cs with
  | nil => exact .nil cs
  | cons p ps ih => exact .cons (s.narrow_sublist cs p) (fun _ => mem_narrow) (ih _)

/-- A part of a list without repetitions is what its members leave of the list. -/
theorem filter_mem_eq_of_sublist {l k : List NodeId} (hn : l.Nodup) (h : k.Sublist l) :
    l.filter (· ∈ k) = k := by
  induction h with
  | slnil => rfl
  | @cons k l a hk ih =>
    obtain ⟨ha, hl⟩ := List.nodup_cons.mp hn
    have hout : a ∉ k := fun hak => ha (hk.subset hak)
    simp [hout, ih hl]
  | @cons_cons k l a hk ih =>
    obtain ⟨ha, hl⟩ := List.nodup_cons.mp hn
    have hcongr : l.filter (· ∈ a :: k) = l.filter (· ∈ k) := by
      refine List.filter_congr fun x hx => ?_
      have hne : x ≠ a := by
        rintro rfl
        exact ha hx
      simp [hne]
    rw [List.filter_cons_of_pos (by simp), hcongr, ih hl]

theorem eq_of_sublist {l k k' : List NodeId} (hn : l.Nodup) (h : k.Sublist l)
    (h' : k'.Sublist l) (hmem : ∀ x, x ∈ k ↔ x ∈ k') : k = k' := by
  rw [← filter_mem_eq_of_sublist hn h, ← filter_mem_eq_of_sublist hn h']
  exact List.filter_congr fun x _ => by simp [hmem]

theorem narrows_iff {cs result : List NodeId} {ps : List Predicate} (hn : cs.Nodup) :
    s.Narrows cs ps result ↔ result = ps.foldl s.narrow cs := by
  constructor
  · intro h
    induction h with
    | nil => rfl
    | @cons cs kept result p ps hsub hkeep hrest ih =>
      -- two parts of `cs` with the same members are the same part
      have hkept : kept = s.narrow cs p :=
        eq_of_sublist hn hsub (s.narrow_sublist cs p) fun x => by rw [hkeep, mem_narrow]
      subst hkept
      exact ih ((s.narrow_sublist cs p).nodup hn)
  · rintro rfl
    exact s.narrows_foldl ps cs

/-! ## One step -/

theorem WellFormed.nodup_axisNodes (hs : s.WellFormed) (axis : Axis) (node : NodeId) :
    (s.axisNodes axis node).Nodup := by
  cases axis with
  | child matcher => exact (hs.nodup_children node).filter _
  | self => simp [axisNodes]
  | parent =>
    rw [axisNodes]
    cases s.parent node <;> simp

theorem axisNodes_exact (s : Store) (label : String) (p : NodeId) :
    s.axisNodes (.child (.exact label)) p =
      (s.children p).filter fun c => s.label c = some label := by
  refine List.filter_congr fun c _ => ?_
  cases s.label c <;> simp [Matcher.accepts, eq_comm]

/-- What a step selects is part of what its axis leads to. -/
theorem candidates_sublist (s : Store) (axis : Axis) (ps : List Predicate) (node : NodeId) :
    (s.candidates (.select axis ps) node).Sublist (s.axisNodes axis node) :=
  s.foldl_narrow_sublist ps _

theorem leadsTo_nil_iff {a c : NodeId} : s.LeadsTo [] a c ↔ c = a := by
  constructor
  · intro h
    cases h
    rfl
  · rintro rfl
    exact .nil c

theorem WellFormed.leadsTo_cons_iff (hs : s.WellFormed) {step : Step} {steps : List Step}
    {a c : NodeId} :
    s.LeadsTo (step :: steps) a c ↔ ∃ b ∈ s.candidates step a, s.LeadsTo steps b c := by
  constructor
  · intro h
    cases h with
    | cons hnarrow hb hrest =>
      rw [narrows_iff (hs.nodup_axisNodes _ a)] at hnarrow
      subst hnarrow
      exact ⟨_, hb, hrest⟩
  · rintro ⟨b, hb, hrest⟩
    cases step with
    | select axis ps => exact .cons (s.narrows_foldl ps _) hb hrest
    | append label offset => cases hb

end LabelTree.Store
